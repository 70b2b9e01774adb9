import Hlquery.Index.MappedRoundTrip
import Hlquery.Index.Query

/-!
# What the written files can hold

The round trip of the files needs sizes that fit the format. Here is what holds whatever the sizes:
**files that were written from a map never return a document that the map does not have**
(`holds_of_indexFiles`). A number of terms or a length that is cut off to its field makes the scan
end early, and a posting list that is cut off is read up to its last whole posting.
-/

set_option autoImplicit false

namespace Hlquery.Index

open Bytes Wire

theorem isPrefix_append_cases {α : Type} :
    ∀ {a b s : List α}, s <+: a ++ b → (s <+: a ∧ s.length < a.length) ∨ ∃ t, s = a ++ t ∧ t <+: b
  | [], b, s, h => .inr ⟨s, rfl, h⟩
  | x :: a, b, [], _ => .inl ⟨List.nil_prefix, by simp⟩
  | x :: a, b, y :: s, h => by
    obtain ⟨hxy, hs⟩ := List.cons_prefix_cons.mp h
    rcases isPrefix_append_cases hs with ⟨hp, hl⟩ | ⟨t, he, ht⟩
    · exact .inl ⟨List.cons_prefix_cons.mpr ⟨hxy, hp⟩, by simpa using hl⟩
    · exact .inr ⟨t, by rw [hxy, he]; rfl, ht⟩

theorem readVarint_of_cut :
    ∀ {more n shift value : Nat} {s : Bytes}, shift + 7 * more < 32 → s <+: varint more n →
      s.length < (varint more n).length → (readVarint shift value s).2 = []
  | _, _, _, _, [], _, _, _ => rfl
  | 0, n, shift, value, b :: s, _, _, hl => by
    simp [varint] at hl
  | more + 1, n, shift, value, b :: s, hs, hp, hl => by
    unfold varint at hp hl
    split at hp
    · rename_i hbig
      rw [if_pos hbig] at hl
      obtain ⟨hfirst, hrest⟩ := List.cons_prefix_cons.mp hp
      have hb : ((n % 128 + 128).toUInt8).toNat = n % 128 + 128 := by simp; omega
      rw [readVarint, hfirst]
      simp only [hb]
      rw [if_neg (by omega), if_neg (by omega)]
      exact readVarint_of_cut (by omega) hrest (by simpa using hl)
    · rename_i hsmall
      rw [if_neg hsmall] at hl
      simp at hl

theorem readLe_of_short {w : Nat} {s : Bytes} (h : s.length < w) : readLe w s = none := by
  unfold readLe
  rw [if_neg (by omega)]

section Lists

variable {S : Type} (single : SinglePrecision S)

/-- Of a posting that is cut off nothing is read: the text ends in the number, in the score, in the
length or in the id. -/
theorem decodeEntries_of_short {post : Posting S} {docs written prev : Nat} {s : Bytes}
    (hid : post.documentId.length ≤ 0xffff) (hs : s <+: writePosting single written post)
    (hshort : s.length < (writePosting single written post).length) :
    decodeEntries single (docs + 1) prev s = [] := by
  rw [decodeEntries]
  split
  · rfl
  have htext : writePosting single written post = writeVarint (hashDelta written post.documentId) ++
      (le 4 (single.toFloat post.score).toNat ++ (le 2 post.documentId.length ++
        post.documentId)) := rfl
  rw [htext] at hs hshort
  rcases isPrefix_append_cases hs with ⟨hp, hl⟩ | ⟨s₁, rfl, hs₁⟩
  · have hcut : (readVarint 0 0 s).2 = [] := readVarint_of_cut (by decide) hp hl
    dsimp only
    rw [hcut, readLe_of_short (by simp)]
  rw [readVarint_writeVarint (hashDelta_lt ..)]
  dsimp only
  rcases isPrefix_append_cases hs₁ with ⟨-, hl⟩ | ⟨s₂, rfl, hs₂⟩
  · rw [length_le] at hl
    rw [readLe_of_short hl]
  rw [readLe_append (by simpa using (single.toFloat post.score).toNat_lt)]
  dsimp only
  rcases isPrefix_append_cases hs₂ with ⟨-, hl⟩ | ⟨s₃, rfl, hs₃⟩
  · rw [length_le] at hl
    rw [readLe_of_short hl]
  rw [readLe_append (by omega)]
  dsimp only
  rw [if_pos (by simpa using hshort)]

/-- **A list that is cut off is read up to its last whole posting.** The hash that the reader carries
along plays no part in it. -/
theorem decodeEntries_of_cut : ∀ {posts : List (Posting S)} {docs written read : Nat} {s : Bytes},
      (∀ post ∈ posts, post.documentId.length ≤ 0xffff) → s <+: writeEntries single written posts →
      ∀ post ∈ decodeEntries single docs read s, ∃ post' ∈ posts, post.documentId = post'.documentId
  | _, 0, _, _, _, _, _, post, h => absurd h (by simp [decodeEntries])
  | [], docs + 1, _, read, s, _, hs, post, h => by
    obtain rfl : s = [] := List.prefix_nil.mp hs
    simp [decodeEntries] at h
  | first :: posts, docs + 1, written, read, s, hlen, hs, post, h => by
    have hid : first.documentId.length ≤ 0xffff := hlen first (by simp)
    rcases isPrefix_append_cases hs with ⟨hp, hl⟩ | ⟨s', rfl, hs'⟩
    · rw [decodeEntries_of_short single hid hp hl] at h
      cases h
    · rw [decodeEntries_writePosting single hid] at h
      rcases List.mem_cons.mp h with rfl | h
      · exact ⟨first, by simp, rfl⟩
      · obtain ⟨post', hmem, he⟩ := decodeEntries_of_cut
          (fun p hp => hlen p (List.mem_cons_of_mem _ hp)) hs' post h
        exact ⟨post', List.mem_cons_of_mem _ hmem, he⟩

theorem decodePostings_of_cut (order : PostingSort S) {postings : List (Posting S)} {s : Bytes}
    (hid : ∀ post ∈ postings, post.documentId.length ≤ 0xffff)
    (hs : s <+: writePostings single order postings) :
    ∀ post ∈ decodePostings single s, ∃ post' ∈ postings, post.documentId = post'.documentId := by
  intro post h
  unfold writePostings at hs
  split at hs
  · obtain rfl : s = [] := List.prefix_nil.mp hs
    simp [decodePostings, readLe] at h
  · unfold decodePostings at h
    rcases isPrefix_append_cases hs with ⟨-, hl⟩ | ⟨s', rfl, hs'⟩
    · rw [length_le] at hl
      rw [readLe_of_short hl] at h
      cases h
    · have hread : readLe 4 (le 4 postings.length ++ s') =
          some (postings.length % 256 ^ 4, s') := by
        unfold readLe
        rw [if_pos (by simp), List.take_left' (length_le _ _), List.drop_left' (length_le _ _),
          leValue_le]
      obtain ⟨post', hmem, he⟩ := decodeEntries_of_cut single
        (fun p hp => hid p ((order.perm postings).mem_iff.mp hp)) hs' post h
      exact ⟨post', (order.perm postings).mem_iff.mp hmem, he⟩

end Lists

/-! ## The term map -/

theorem findTermLoop_mem (term : Bytes) :
    ∀ {records : List TermRecord} (terms : Nat), (∀ r ∈ records, r.term.length ≤ 0xffff) →
      findTermLoop term terms (records.flatMap TermRecord.mapEntry) = ⟨0, 0⟩ ∨
        ∃ r ∈ records, findTermLoop term terms (records.flatMap TermRecord.mapEntry) =
          ⟨r.postingsOffset % 2 ^ 64, r.postingsLength % 2 ^ 32⟩
  | _, 0, _ => .inl rfl
  | [], terms + 1, _ => .inl rfl
  | r :: records, terms + 1, hlen => by
    have ih := findTermLoop_mem term terms fun r hr => hlen r (List.mem_cons_of_mem _ hr)
    rw [List.flatMap_cons, findTermLoop_mapEntry (hlen r (by simp))]
    split
    · exact .inr ⟨r, by simp, rfl⟩
    split
    · exact .inl rfl
    rcases ih with ih | ⟨r', hr', ih⟩
    · exact .inl ih
    · exact .inr ⟨r', List.mem_cons_of_mem _ hr', ih⟩

section Contents

variable {S : Type} {single : SinglePrecision S} {order : PostingSort S} {directory : Directory}

/-- **Written files hold no other documents than the map they were written from.** -/
theorem holds_of_indexFiles {terms : ByteMap (List (Posting S))} (hfit : lengthsFit terms = true)
    (hsize : ∀ file payload, (file, payload) ∈ indexFiles (encodedTerms single order terms) →
      payload.length < 2 ^ 64)
    (hdir : ∀ file payload, (file, payload) ∈ indexFiles (encodedTerms single order terms) →
      directory file = some (mmapFile file.magic payload)) :
    ∃ index, loadIndex directory = some index ∧ ∀ docId, index.Holds single docId →
      ∃ (term : Bytes) (postings : List (Posting S)), terms[term]? = some postings ∧
        ∃ post ∈ postings, post.documentId = docId := by
  obtain ⟨index, hload, hmap, hpost, -⟩ := loadIndex_indexFiles hsize hdir
  refine ⟨index, hload, ?_⟩
  rintro docId ⟨term, post, hmem, rfl⟩
  set entries := encodedTerms single order terms with hentries
  have hshort : ∀ r ∈ termRecords 0 0 entries, r.term.length ≤ 0xffff := by
    intro r hr
    obtain ⟨entry, he, ht, -⟩ := mem_termRecords [] hr
    obtain ⟨kv, hkv, rfl⟩ := List.mem_map.mp he
    rw [ht]
    exact (lengths_of_lengthsFit hfit (Std.ExtTreeMap.mem_toList_iff_getElem?_eq_some.mp hkv)).1
  have hfind : index.findTerm term = ⟨0, 0⟩ ∨ ∃ r ∈ termRecords 0 0 entries,
      index.findTerm term = ⟨r.postingsOffset % 2 ^ 64, r.postingsLength % 2 ^ 32⟩ := by
    unfold MMapIndex.findTerm
    split
    · exact .inl rfl
    split
    · rw [hmap, show (termMapBuffer entries).drop 4 =
        (termRecords 0 0 entries).flatMap TermRecord.mapEntry from
          List.drop_left' (length_le _ _)]
      exact findTermLoop_mem term _ hshort
    · exact .inl rfl
  unfold MMapIndex.searchTerm at hmem
  dsimp only at hmem
  rcases hfind with hfind | ⟨r, hr, hfind⟩
  · rw [hfind, if_pos rfl] at hmem
    cases hmem
  · have hbuffer := hsize .postings (postingsBuffer entries) (by simp [indexFiles])
    obtain ⟨entry, he, -, hl, hoffset, hslice⟩ := mem_termRecords [] hr
    rw [List.length_nil] at hoffset
    obtain ⟨⟨key, postings⟩, hkv, rfl⟩ := List.mem_map.mp he
    have hget := Std.ExtTreeMap.mem_toList_iff_getElem?_eq_some.mp hkv
    rw [hfind, Nat.mod_eq_of_lt (by omega : r.postingsOffset < 2 ^ 64), hpost] at hmem
    split at hmem
    · cases hmem
    · split at hmem
      · cases hmem
      · -- the bytes that are decoded are the first of the entry's
        have hcut : ((postingsBuffer entries).drop r.postingsOffset).take
            (r.postingsLength % 2 ^ 32) <+: writePostings single order postings := by
          rw [show writePostings single order postings = _ from hslice.symm, List.nil_append]
          exact List.take_prefix_take_left (Nat.mod_le _ _)
        obtain ⟨post', hmem', he'⟩ := decodePostings_of_cut single order
          (lengths_of_lengthsFit hfit hget).2 hcut post hmem
        exact ⟨key, postings, hget, post', hmem', he'.symm⟩

end Contents

end Hlquery.Index
