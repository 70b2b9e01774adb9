import Hlquery.Index.Replacement
import Mathlib.Data.List.DropRight

/-!
# The terms of a document

What a word becomes is a normal form: it is in lower case, and it starts and ends with something that
is kept there. Normalizing it again changes nothing (`normalizeTerm_idem`).

A document is indexed under its plain terms, which are those of all its texts, and under a synthetic
term for each field and each term of that field (`mem_keys`). The terms of a field are plain terms as
well, since the text of the field is one of the texts (`Document.plain_of_field`).

`soleDocument` is the smallest collection that has a document, and its postings are those of the
document.
-/

set_option autoImplicit false

namespace Hlquery.Index

open Bytes

/-! ## Normal words -/

theorem toLowerByte_idem (b : UInt8) : toLowerByte (toLowerByte b) = toLowerByte b := by
  have hall : ∀ n < 256, toLowerByte (toLowerByte (UInt8.ofNat n)) = toLowerByte (UInt8.ofNat n) := by
    decide +kernel
  have := hall b.toNat (UInt8.toNat_lt b)
  rwa [UInt8.ofNat_toNat] at this

theorem trimBack_cons (c : UInt8) (s : Bytes) : trimBack (c :: s) =
      if trimBack s = [] ∧ keepsAtEnd c = false then [] else c :: trimBack s := by
  unfold trimBack
  rw [List.reverse_cons, List.dropWhile_append]
  cases hdrop : s.reverse.dropWhile fun b => !keepsAtEnd b with
  | nil =>
    cases hc : keepsAtEnd c with
    | false => simp [hc]
    | true => simp [hc]
  | cons d rest => simp

theorem trimBack_eq_nil {s : Bytes} : trimBack s = [] ↔ ∀ b ∈ s, keepsAtEnd b = false := by
  induction s with
  | nil => simp [trimBack]
  | cons c s ih =>
    rw [trimBack_cons, List.forall_mem_cons, ← ih]
    split
    · rename_i h
      simp [h]
    · rename_i h
      simpa [and_comm] using h

theorem mem_trimFront_of_keeps {b : UInt8} (hb : keepsAtEnd b = true) :
    ∀ {s : Bytes}, b ∈ s → b ∈ trimFront s
  | c :: s, h => by
    unfold trimFront
    split
    · rename_i hc
      rcases List.mem_cons.mp h with rfl | h
      · rw [hb] at hc
        cases hc
      · exact mem_trimFront_of_keeps hb h
    · exact h

/-- **What is left of a text** is empty exactly if it has nothing to keep. -/
theorem normalizeTerm_ne_nil {s : Bytes} :
    normalizeTerm s ≠ [] ↔ ∃ b ∈ s, keepsAtEnd (toLowerByte b) = true := by
  unfold normalizeTerm
  rw [Ne, trimBack_eq_nil]
  simp only [not_forall, Bool.not_eq_false]
  constructor
  · rintro ⟨b, hb, hkeeps⟩
    obtain ⟨a, ha, rfl⟩ := List.mem_map.mp (mem_trimFront hb)
    exact ⟨a, ha, hkeeps⟩
  · rintro ⟨b, hb, hkeeps⟩
    exact ⟨toLowerByte b, mem_trimFront_of_keeps hkeeps (List.mem_map_of_mem hb), hkeeps⟩

theorem head_trimFront {c : UInt8} {s : Bytes} : ∀ {text : Bytes}, trimFront text = c :: s →
      keepsAtEnd c = true ∨ isNormalizedCashtag (c :: s) = true
  | [], h => absurd h (by simp [trimFront])
  | d :: text, h => by
    unfold trimFront at h
    split at h
    · exact head_trimFront h
    rename_i hd
    obtain ⟨rfl, rfl⟩ := List.cons.inj h
    cases hkeeps : keepsAtEnd d with
    | true => exact .inl rfl
    | false =>
      rw [hkeeps] at hd
      exact .inr (by simpa using hd)

theorem trimFront_of_head {c : UInt8} {s : Bytes}
    (h : keepsAtEnd c = true ∨ isNormalizedCashtag (c :: s) = true) :
    trimFront (c :: s) = c :: s := by
  unfold trimFront
  rcases h with h | h <;> simp [h]

theorem keepsAtEnd_of_cashtag {sign d : UInt8} {rest : Bytes}
    (h : isNormalizedCashtag (sign :: d :: rest) = true) : keepsAtEnd d = true := by
  unfold isNormalizedCashtag at h
  rw [Bool.and_eq_true] at h
  simp [keepsAtEnd, h.2]

theorem trimFront_trimBack (text : Bytes) :
    trimFront (trimBack (trimFront text)) = trimBack (trimFront text) := by
  cases hfront : trimFront text with
  | nil => rfl
  | cons c s =>
    rcases head_trimFront hfront with hc | hc
    · rw [trimBack_cons, if_neg (by simp [hc]), trimFront_of_head (.inl hc)]
    -- the letter or digit after the sign of a cashtag stays
    cases s with
    | nil => simp [isNormalizedCashtag] at hc
    | cons d s =>
      have hkeeps := keepsAtEnd_of_cashtag hc
      have hback : trimBack (c :: d :: s) = c :: d :: trimBack s := by
        have hrest : trimBack (d :: s) = d :: trimBack s := by
          rw [trimBack_cons, if_neg (by simp [hkeeps])]
        rw [trimBack_cons, hrest, if_neg (by simp)]
      rw [hback]
      exact trimFront_of_head (.inr hc)

theorem toLower_normalizeTerm (word : Bytes) : toLower (normalizeTerm word) = normalizeTerm word := by
  refine (List.map_congr_left fun b hb => ?_).trans (List.map_id _)
  obtain ⟨a, -, rfl⟩ := List.mem_map.mp (mem_trimFront (mem_trimBack hb))
  exact toLowerByte_idem a

/-- **A normal word stays as it is.** -/
theorem normalizeTerm_idem (word : Bytes) :
    normalizeTerm (normalizeTerm word) = normalizeTerm word := by
  have hback : ∀ s, trimBack (trimBack s) = trimBack s := fun s => List.rdropWhile_idempotent _ _
  calc normalizeTerm (normalizeTerm word)
      = trimBack (trimFront (normalizeTerm word)) := by
        rw [normalizeTerm, toLower_normalizeTerm]
    _ = trimBack (normalizeTerm word) := by
        unfold normalizeTerm
        rw [trimFront_trimBack]
    _ = normalizeTerm word := hback _

theorem normalizeTerm_of_cashtag {sign d : UInt8} {rest : Bytes}
    (hcashtag : isNormalizedCashtag (sign :: d :: rest) = true)
    (hnormal : normalizeTerm (sign :: d :: rest) = sign :: d :: rest) :
    normalizeTerm (d :: rest) = d :: rest := by
  have hkeeps := keepsAtEnd_of_cashtag hcashtag
  -- nothing was trimmed, at the back neither
  have hlower : toLower (sign :: d :: rest) = sign :: d :: rest := by
    rw [← hnormal]
    exact toLower_normalizeTerm _
  obtain ⟨-, hlowerRest⟩ := List.cons.inj hlower
  have hback : trimBack (d :: rest) = d :: rest := by
    unfold normalizeTerm at hnormal
    rw [hlower, trimFront_of_head (.inr hcashtag), trimBack_cons] at hnormal
    split at hnormal
    · cases hnormal
    · exact (List.cons.inj hnormal).2
  calc normalizeTerm (d :: rest) = trimBack (trimFront (d :: rest)) := by
        unfold normalizeTerm
        rw [show toLower (d :: rest) = d :: rest from hlowerRest]
    _ = d :: rest := by rw [trimFront_of_head (.inl hkeeps), hback]

/-! ## The words of a text -/

theorem skipSeparators_suffix : ∀ s : Bytes, skipSeparators s <:+ s
  | [] => List.suffix_refl _
  | c :: s => by
    unfold skipSeparators
    split
    · exact (skipSeparators_suffix s).trans (List.suffix_cons c s)
    · exact List.suffix_refl _

theorem restOfWord_append : ∀ s : Bytes, (restOfWord s).1 ++ (restOfWord s).2 = s
  | [] => rfl
  | c :: s => by
    unfold restOfWord
    split
    · rfl
    · exact congrArg (c :: ·) (restOfWord_append s)

theorem exists_word {term : Bytes} :
    ∀ {fuel words : Nat} {text : Bytes}, term ∈ extractLoop fuel words text →
      ∃ word ⊆ text, term ∈ wordTerms word
  | 0, _, _, h => absurd h (by simp [extractLoop])
  | fuel + 1, words, text, h => by
    unfold extractLoop at h
    split at h
    · cases h
    split at h
    · cases h
    rename_i c s hs
    have htext : c :: s ⊆ text := by
      rw [← hs]
      exact (skipSeparators_suffix text).subset
    have hsplit := restOfWord_append s
    rcases List.mem_append.mp h with ht | ht
    · refine ⟨_, fun b hb => htext ?_, ht⟩
      rcases List.mem_cons.mp hb with rfl | hb
      · exact List.mem_cons_self
      · rw [← hsplit]
        exact List.mem_cons_of_mem _ (List.mem_append_left _ hb)
    · obtain ⟨word, hword, hterm⟩ := exists_word ht
      refine ⟨word, fun b hb => htext (List.mem_cons_of_mem _ ?_), hterm⟩
      rw [← hsplit]
      exact List.mem_append_right _ (hword hb)

/-- **A text with a term has a normal form** when it is taken as one word. -/
theorem normalizeTerm_ne_nil_of_mem {text term : Bytes} (h : term ∈ extractTerms text) :
    normalizeTerm text ≠ [] := by
  obtain ⟨word, hword, hterm⟩ := exists_word h
  have hnormal : normalizeTerm word ≠ [] := by
    intro hnil
    unfold wordTerms at hterm
    rw [if_pos hnil] at hterm
    cases hterm
  obtain ⟨b, hb, hkeeps⟩ := normalizeTerm_ne_nil.mp hnormal
  exact normalizeTerm_ne_nil.mpr ⟨b, List.mem_of_mem_take (hword hb), hkeeps⟩

/-- **A term is normal.** So is a cashtag without its sign. -/
theorem normalizeTerm_of_mem {text term : Bytes} (h : term ∈ extractTerms text) :
    normalizeTerm term = term := by
  obtain ⟨word, -, hterm⟩ := exists_word h
  unfold wordTerms at hterm
  dsimp only at hterm
  split at hterm
  · cases hterm
  split at hterm
  · rename_i hcashtag
    rcases List.mem_cons.mp hterm with rfl | hterm
    · exact normalizeTerm_idem word
    · have hnormal := normalizeTerm_idem word
      rw [List.mem_singleton.mp hterm]
      cases hword : normalizeTerm word with
      | nil => rfl
      | cons sign rest =>
        rw [hword] at hcashtag hnormal
        cases rest with
        | nil => simp [isNormalizedCashtag] at hcashtag
        | cons d rest => exact normalizeTerm_of_cashtag hcashtag hnormal
  · rw [List.mem_singleton.mp hterm]
    exact normalizeTerm_idem word

/-! ## The keys of a document -/

namespace Document

variable (doc : Document)

def HasText (field text : Bytes) : Prop :=
  doc.fieldTermsByName[field]? = some (extractTerms text) ∧
    ∀ term ∈ extractTerms text, term ∈ doc.allTermsList

variable {doc}

/-- The terms of a field are those of a text of the document, and all of them are plain terms. -/
theorem exists_hasText {field : Bytes} {terms : List Bytes}
    (h : doc.fieldTermsByName[field]? = some terms) :
    ∃ text, terms = extractTerms text ∧ doc.HasText field text := by
  obtain ⟨text, rfl, hplain⟩ := exists_fieldText doc h
  exact ⟨text, rfl, h, hplain⟩

theorem normal_of_mem {term : Bytes} (h : term ∈ doc.allTermsList) : normalizeTerm term = term := by
  unfold allTermsList at h
  simp only [List.mem_append, List.mem_flatMap] at h
  rcases h with ((h | h) | h) | ⟨field, -, h⟩
  all_goals exact normalizeTerm_of_mem h

/-- **The keys of a document**: its plain terms, and a synthetic term for each term of a field. -/
theorem mem_keys {S : Type} (ranking : Ranking S) (name : Bytes) {key : Bytes} :
    key ∈ (doc.postings ranking name).map Prod.fst ↔ key ∈ doc.allTermsList ∨
      ∃ field text, doc.HasText field text ∧
        ∃ term ∈ extractTerms text, key = buildFieldScopedTerm field term := by
  have hplain : key ∈ (doc.plainPostings ranking name).map Prod.fst ↔ key ∈ doc.allTermsList := by
    unfold plainPostings
    rw [List.map_map]
    simp only [Function.comp_def, List.map_id']
    exact mem_ofList
  have hscoped : key ∈ (doc.scopedPostings ranking name).map Prod.fst ↔
      ∃ field text, doc.HasText field text ∧
        ∃ term ∈ extractTerms text, key = buildFieldScopedTerm field term := by
    unfold scopedPostings
    simp only [List.map_flatMap, List.map_map, Function.comp_def, List.mem_flatMap, List.mem_map]
    constructor
    · rintro ⟨⟨field, terms⟩, hfield, term, hterm, rfl⟩
      obtain ⟨text, rfl, htext⟩ :=
        exists_hasText (Std.ExtTreeMap.mem_toList_iff_getElem?_eq_some.mp hfield)
      exact ⟨field, text, htext, term, mem_ofList.mp hterm, rfl⟩
    · rintro ⟨field, text, htext, term, hterm, rfl⟩
      exact ⟨(field, extractTerms text),
        Std.ExtTreeMap.mem_toList_iff_getElem?_eq_some.mpr htext.1, term,
        mem_ofList.mpr hterm, rfl⟩
  unfold postings
  rw [List.map_append, List.mem_append, hplain, hscoped]

end Document

/-! ## A collection with one document -/

section SoleDocument

variable {S : Type} (ranking : Ranking S) (name : Bytes) (doc : Document)

/-- The call that gives a collection its first document. -/
def firstAddition : Operation S := .addDocument ⟨0, 0, fun _ _ => 0⟩ name doc

def soleDocument : CollectionIndex S :=
  (InvertedIndex.run ranking [firstAddition name doc]).collection name

theorem soleDocument_eq : soleDocument ranking name doc =
      (((CollectionIndex.empty.touch name 0).removeDocumentFromIndex doc.id).enterDocument ranking
        name doc).markDirty 0 := by
  have hempty : (∅ : InvertedIndex S).collection name = .empty := by
    simp [InvertedIndex.collection]
  have hbelow : ((∅ : InvertedIndex S).collection name).BelowLimits := by
    rw [hempty]
    constructor
    · simp [CollectionIndex.empty, maxDocumentsPerCollection]
    · simp [CollectionIndex.empty, maxTermsPerCollection]
  have hevict : InvertedIndex.EvictsNothing ⟨0, 0, fun _ _ => 0⟩
      (InvertedIndex.withDocument ranking ⟨0, 0, fun _ _ => 0⟩ name doc doc ∅) :=
    InvertedIndex.evictsNothing_of_le (by simp)
  unfold soleDocument InvertedIndex.run firstAddition
  rw [List.foldl_cons, List.foldl_nil, InvertedIndex.step,
    InvertedIndex.addDocument_of_belowLimits ranking hbelow hevict]
  unfold InvertedIndex.withDocument
  rw [InvertedIndex.modify_modify, InvertedIndex.collection_modify, if_pos rfl, hempty]

theorem soleDocument_spec : (soleDocument ranking name doc).mmapIndex = none ∧
      (soleDocument ranking name doc).index =
        some ((doc.postings ranking name).foldl CollectionIndex.pushPosting ∅) ∧
      doc.id ∈ (soleDocument ranking name doc).documentTerms.getD ∅ := by
  have hstart : ∃ c : CollectionIndex S, CollectionIndex.empty.touch name 0 = c ∧ c.index = none ∧
      c.documentTerms = none ∧ c.documentLengths = none ∧ c.totalLength = none ∧
      c.mmapIndex = none := by
    unfold CollectionIndex.touch
    split <;> exact ⟨_, rfl, rfl, rfl, rfl, rfl, rfl⟩
  obtain ⟨c, hc, hnoIndex, hnoTerms, hnoLengths, hnoTotal, hnoSnapshot⟩ := hstart
  have hremoved : c.removeDocumentFromIndex doc.id = c := by
    unfold CollectionIndex.removeDocumentFromIndex
    rw [hnoIndex]
  have htotal : c.totalLength.getD 0 = CollectionIndex.sumLengths (c.documentLengths.getD ∅) := by
    rw [hnoTotal, hnoLengths]
    decide
  have hnew : c.lengthOf doc.id = none := by
    unfold CollectionIndex.lengthOf
    rw [hnoLengths]
    simp
  obtain ⟨hindex, hterms, -⟩ := CollectionIndex.enterDocument_spec ranking name htotal hnew
  rw [hnoIndex, Option.getD_none] at hindex
  rw [soleDocument_eq, hc, hremoved]
  refine ⟨?_, hindex, ?_⟩
  · exact (CollectionIndex.sameSnapshot_enterDocument ranking name doc c).1.trans hnoSnapshot
  have hmem : doc.id ∈ (c.enterDocument ranking name doc).documentTerms.getD ∅ := by
    rw [hterms]
    simp
  exact hmem

theorem mem_postingsOf_soleDocument {key : Bytes} {post : Posting S} :
    post ∈ (soleDocument ranking name doc).postingsOf key ↔
      (key, post) ∈ doc.postings ranking name := by
  unfold CollectionIndex.postingsOf
  rw [(soleDocument_spec ranking name doc).2.1, Option.getD_some,
    CollectionIndex.foldl_pushPosting_get]
  simp only [Std.ExtTreeMap.getElem?_empty, Option.getD_none, List.nil_append, List.mem_map,
    List.mem_filter, decide_eq_true_eq]
  constructor
  · rintro ⟨⟨term, found⟩, ⟨hmem, rfl⟩, rfl⟩
    exact hmem
  · intro hmem
    exact ⟨(key, post), ⟨hmem, rfl⟩, rfl⟩

/-- **Its postings are those of the document**, for each of the keys. -/
theorem exists_posting_soleDocument {key docId : Bytes} :
    (∃ post ∈ (soleDocument ranking name doc).postingsOf key, post.documentId = docId) ↔
      docId = doc.id ∧ key ∈ (doc.postings ranking name).map Prod.fst := by
  simp only [mem_postingsOf_soleDocument]
  constructor
  · rintro ⟨post, hpost, rfl⟩
    exact ⟨documentId_of_mem_postings ranking name doc hpost, List.mem_map_of_mem hpost⟩
  · rintro ⟨rfl, hkey⟩
    obtain ⟨⟨term, post⟩, hpost, rfl⟩ := List.mem_map.mp hkey
    exact ⟨post, hpost, documentId_of_mem_postings ranking name doc hpost⟩

end SoleDocument

end Hlquery.Index
