import Hlquery.Index.SnapshotSearch

/-!
# Walking through a snapshot

A term is looked up in the map of a snapshot, where its length stands next to it. A prefix, a pattern
and the number of documents are found in another way: `SearchPrefix`, `SearchWildcard` and
`GetDocumentCount` walk through the file of the terms, where each ends with a zero byte, and look up
what they have read. Nothing keeps a zero byte out of a term, since a text may hold one and it is no
separator; the walk then reads two pieces of a term, and finds neither.

The count leaves a document with an empty id out.

**The three agree with the postings that the snapshot was written from exactly if no term holds a zero
byte and no document has an empty id** (`walk_agrees_iff`).
-/

set_option autoImplicit false

namespace Hlquery.Index

open Bytes

namespace MMapIndex

variable {S : Type} (single : SinglePrecision S)

/-- The ids that `GetDocumentCount` collects. An empty term ends the walk. -/
def walkedIds (index : MMapIndex) : ByteSet :=
  .ofList ((((mappedTerms [] index.termsData).takeWhile fun term => term ≠ []).flatMap fun term =>
    (index.searchTerm single term).map Posting.documentId).filter fun docId => docId ≠ []) _

def getDocumentCount (index : MMapIndex) : Nat := (index.walkedIds single).size

theorem zero_not_mem_mappedTerms : ∀ (s : Bytes) {current term : Bytes}, 0 ∉ current →
    term ∈ mappedTerms current s → 0 ∉ term
  | [], _, _, _, h => absurd h (by simp [mappedTerms])
  | b :: s, current, term, hcurrent, h => by
    unfold mappedTerms at h
    split at h
    · rcases List.mem_cons.mp h with rfl | h
      · simpa using hcurrent
      · exact zero_not_mem_mappedTerms s (by simp) h
    · rename_i hb
      refine zero_not_mem_mappedTerms s ?_ h
      rw [List.mem_cons, not_or]
      exact ⟨fun he => hb he.symm, hcurrent⟩

end MMapIndex

/-! ## What memory has -/

section Memory

variable {S : Type}

def HasTerm (terms : ByteMap (List (Posting S))) (test : Bytes → Bool) (docId : Bytes) : Prop :=
  ∃ (term : Bytes) (postings : List (Posting S)), terms[term]? = some postings ∧ test term = true ∧
    ∃ post ∈ postings, post.documentId = docId

def indexedIds (terms : ByteMap (List (Posting S))) : ByteSet :=
  .ofList ((terms.toList.flatMap Prod.snd).map Posting.documentId) _

variable {terms : ByteMap (List (Posting S))}

theorem exists_mem_flatMap_iff {test : Bytes → Bool} {docId : Bytes} :
    (∃ post ∈ (terms.toList.filter fun entry => test entry.1).flatMap Prod.snd,
      post.documentId = docId) ↔ HasTerm terms test docId := by
  constructor
  · rintro ⟨post, hpost, hid⟩
    obtain ⟨⟨term, postings⟩, hmem, hpost⟩ := List.mem_flatMap.mp hpost
    obtain ⟨hterm, htest⟩ := List.mem_filter.mp hmem
    exact ⟨term, postings, Std.ExtTreeMap.mem_toList_iff_getElem?_eq_some.mp hterm, htest, post, hpost,
      hid⟩
  · rintro ⟨term, postings, hget, htest, post, hpost, hid⟩
    exact ⟨post, List.mem_flatMap.mpr ⟨(term, postings), List.mem_filter.mpr
      ⟨Std.ExtTreeMap.mem_toList_iff_getElem?_eq_some.mpr hget, htest⟩, hpost⟩, hid⟩

theorem mem_indexedIds {docId : Bytes} :
    docId ∈ indexedIds terms ↔ HasTerm terms (fun _ => true) docId := by
  rw [← exists_mem_flatMap_iff]
  unfold indexedIds
  simp

end Memory

/-! ## The walk and memory -/

section Walk

variable {S : Type} (single : SinglePrecision S) (scoring : Scoring S)

/-- A prefix and a pattern find the documents with such a term, and the count is that of all
documents with a term. An empty prefix or pattern finds nothing. -/
structure WalkAgrees (terms : ByteMap (List (Posting S))) (index : MMapIndex) : Prop where
  withPrefix : ∀ prefixValue docId : Bytes,
    (∃ post ∈ index.searchPrefix single scoring prefixValue, post.documentId = docId) ↔
      prefixValue ≠ [] ∧ HasTerm terms (fun term => startsWith term prefixValue) docId
  withPattern : ∀ patternValue docId : Bytes,
    (∃ post ∈ index.searchWildcard single scoring patternValue, post.documentId = docId) ↔
      patternValue ≠ [] ∧ HasTerm terms (fun term => scoring.wildcardMatch term patternValue) docId
  count : index.getDocumentCount single = (indexedIds terms).size

/-- **The condition**: no zero byte in a term, and no empty id. -/
structure Walkable (terms : ByteMap (List (Posting S))) : Prop where
  no_zero : ∀ term ∈ terms, 0 ∉ term
  no_empty_id : ([] : Bytes) ∉ indexedIds terms

variable {single scoring} {order : PostingSort S} {terms : ByteMap (List (Posting S))}
  {index : MMapIndex}

section

variable (h : IsSnapshot single order terms index)
include h

theorem IsSnapshot.mappedTerms_eq
    (hzero : ∀ term ∈ terms, 0 ∉ term) :
    MMapIndex.mappedTerms [] index.termsData = terms.keys := by
  rw [h.termsData, mappedTerms_termsBuffer, encodedTerms, List.map_map,
    ← Std.ExtTreeMap.map_fst_toList_eq_keys]
  · rfl
  intro entry hmem
  obtain ⟨⟨term, postings⟩, hterm, rfl⟩ := List.mem_map.mp hmem
  have hget := Std.ExtTreeMap.mem_toList_iff_getElem?_eq_some.mp hterm
  exact hzero term (Std.ExtTreeMap.mem_iff_isSome_getElem?.mpr (by rw [hget]; rfl))

/-- Without zero bytes the count is that of the documents that have an id. -/
theorem IsSnapshot.mem_walkedIds (hproper : Proper terms)
    (hzero : ∀ term ∈ terms, 0 ∉ term) {docId : Bytes} :
    docId ∈ index.walkedIds single ↔ docId ∈ indexedIds terms ∧ docId ≠ [] := by
  have hall : terms.keys.takeWhile (fun term => term ≠ []) = terms.keys := by
    refine List.takeWhile_eq_self_iff.mpr fun term hterm => ?_
    simpa using fun he : term = [] =>
      hproper.no_empty_term (he ▸ Std.ExtTreeMap.mem_keys.mp hterm)
  unfold MMapIndex.walkedIds
  rw [Std.ExtTreeSet.mem_ofList, h.mappedTerms_eq hzero, hall, mem_indexedIds]
  simp only [List.contains_eq_mem, List.mem_filter, List.mem_flatMap, List.mem_map, decide_eq_true_eq]
  refine and_congr_left fun _ => ?_
  constructor
  · rintro ⟨term, hterm, hfound⟩
    have hin := Std.ExtTreeMap.mem_keys.mp hterm
    rw [h.exists_mem_searchTerm (fun he => hproper.no_empty_term (he ▸ hin)) (h.short term hin)]
      at hfound
    obtain ⟨postings, hget⟩ := Option.isSome_iff_exists.mp
      (Std.ExtTreeMap.mem_iff_isSome_getElem?.mp hin)
    rw [hget] at hfound
    exact ⟨term, postings, hget, rfl, hfound⟩
  · rintro ⟨term, postings, hget, -, hfound⟩
    have hin : term ∈ terms := Std.ExtTreeMap.mem_iff_isSome_getElem?.mpr (by rw [hget]; rfl)
    refine ⟨term, Std.ExtTreeMap.mem_keys.mpr hin, ?_⟩
    rw [h.exists_mem_searchTerm (fun he => hproper.no_empty_term (he ▸ hin)) (h.short term hin), hget]
    exact hfound

theorem WalkAgrees.walkable (hproper : Proper terms)
    (hagrees : WalkAgrees single scoring terms index) : Walkable terms := by
  have hzero : ∀ term ∈ terms, 0 ∉ term := by
    intro term hterm hmem
    obtain ⟨postings, hget⟩ := Option.isSome_iff_exists.mp
      (Std.ExtTreeMap.mem_iff_isSome_getElem?.mp hterm)
    have hne : term ≠ [] := fun he => hproper.no_empty_term (he ▸ hterm)
    cases postings with
    | nil => exact hproper.no_empty_list term hget
    | cons post postings =>
      -- the whole term as a prefix: no piece of a term begins with it
      have hfound := (hagrees.withPrefix term post.documentId).mpr
        ⟨hne, term, _, hget, by simp [startsWith], post, .head _, rfl⟩
      unfold MMapIndex.searchPrefix at hfound
      rw [if_neg hne, exists_mem_searchTerms] at hfound
      obtain ⟨read, hread, hstarts, -⟩ := hfound
      obtain ⟨rest, rfl⟩ := List.isPrefixOf_iff_prefix.mp hstarts
      exact MMapIndex.zero_not_mem_mappedTerms index.termsData (by simp) hread
        (List.mem_append_left _ hmem)
  refine ⟨hzero, fun hempty => ?_⟩
  have hsame : index.walkedIds single = (indexedIds terms).erase [] := by
    refine Std.ExtTreeSet.ext_mem fun {docId} => ?_
    rw [h.mem_walkedIds hproper hzero, Std.ExtTreeSet.mem_erase, and_comm]
    refine and_congr_left fun _ => not_congr ?_
    rw [Std.LawfulEqCmp.compare_eq_iff_eq, eq_comm]
  have hcount := hagrees.count
  unfold MMapIndex.getDocumentCount at hcount
  rw [hsame, Std.ExtTreeSet.size_erase, if_pos (Std.ExtTreeSet.contains_iff_mem.mpr hempty)] at hcount
  have hpos : (indexedIds terms).size ≠ 0 := by
    intro hzero
    have hnone : (indexedIds terms).isEmpty = true := by
      rw [Std.ExtTreeSet.isEmpty_eq_size_beq_zero, hzero]
      rfl
    rw [Std.ExtTreeSet.isEmpty_iff.mp hnone] at hempty
    cases hempty
  omega

end

theorem Walkable.exists_mem_searchTerms (hwalk : Walkable terms)
    (h : IsSnapshot single order terms index) (hproper : Proper terms) {test : Bytes → Bool}
    {docId : Bytes} :
    (∃ post ∈ index.searchTerms single scoring test, post.documentId = docId) ↔
      HasTerm terms test docId :=
  (CollectionIndex.exists_mem_mappedTerms h hproper.no_empty_term hwalk.no_zero
    fun _ _ => rfl).trans exists_mem_flatMap_iff

theorem Walkable.walkAgrees (h : IsSnapshot single order terms index) (hproper : Proper terms)
    (hwalk : Walkable terms) : WalkAgrees single scoring terms index where
  withPrefix prefixValue docId := by
    unfold MMapIndex.searchPrefix
    split
    · rename_i hnil
      simp [hnil]
    · rename_i hne
      rw [hwalk.exists_mem_searchTerms h hproper]
      exact (and_iff_right hne).symm
  withPattern patternValue docId := by
    unfold MMapIndex.searchWildcard
    split
    · rename_i hnil
      simp [hnil]
    · rename_i hne
      rw [hwalk.exists_mem_searchTerms h hproper]
      exact (and_iff_right hne).symm
  count := by
    have hsame : index.walkedIds single = indexedIds terms := by
      refine Std.ExtTreeSet.ext_mem fun {docId} => ?_
      rw [h.mem_walkedIds hproper hwalk.no_zero]
      refine ⟨And.left, fun hmem => ⟨hmem, fun hnil => hwalk.no_empty_id (hnil ▸ hmem)⟩⟩
    unfold MMapIndex.getDocumentCount
    rw [hsame]

end Walk

namespace Traced

variable {S : Type} {single : SinglePrecision S} {order : PostingSort S} {ranking : Ranking S}

/-- **The walk through a snapshot.** Let the postings of a collection after some run be written, and the
files be opened. Prefixes, patterns and the count agree with the postings exactly if no term holds a
zero byte and no document with a term has an empty id. -/
theorem walk_agrees_iff (calls : List (Call S)) (name : Bytes)
    (terms : ByteMap (List (Posting S))) (directory : Directory) (snapshot : MMapIndex)
    (hmemory : (((start ∅ ∅).run single order ranking calls).store.index.collection name).index =
      some terms)
    (hwritten : IsWritten single order terms directory) (hfits : FitsFiles single order terms)
    (hload : loadIndex directory = some snapshot) (scoring : Scoring S) :
    WalkAgrees single scoring terms snapshot ↔ Walkable terms := by
  have hsnapshot := isSnapshot_of_isWritten hwritten hfits hload
  have hproper := proper_of_run calls hmemory
  exact ⟨fun h => h.walkable hsnapshot hproper, fun h => h.walkAgrees hsnapshot hproper⟩

end Traced

/-! ### A zero byte in a title -/

def oneMapped (doc : Document) : Option MMapIndex :=
  (((Traced.start ∅ ∅).run bitScores (insertionOrder Nat) unitRanking
    [.addDocument smallSurroundings (lit "c") doc, .flushToDisk goodFlush 0 0]).store.index.collection
      (lit "c")).mmapIndex

theorem walk_agrees_oneDocument :
    ∃ terms snapshot, (((Traced.start ∅ ∅).run bitScores (insertionOrder Nat) unitRanking
        oneDocument).store.index.collection (lit "c")).index = some terms ∧
      WalkAgrees bitScores wildcardScores terms snapshot := by
  have hflushed : lit "c" ∈ (((Traced.start ∅ ∅).run bitScores (insertionOrder Nat) unitRanking
      oneDocument).store.flushToDisk bitScores (insertionOrder Nat) goodFlush 0 0).2 := by
    decide +kernel
  obtain ⟨terms, directory, hindex, -, hwritten, -, -⟩ := Traced.flushed_directory hflushed rfl
  have hfits : Traced.FitsFiles bitScores (insertionOrder Nat) terms :=
    Traced.fitsFiles_of_all hindex (by decide +kernel)
  obtain ⟨snapshot, hload, -⟩ := searchTerm_indexFiles hwritten.1 hfits.1 hfits.2 hwritten.2
  refine ⟨terms, snapshot, hindex, (Traced.walk_agrees_iff oneDocument (lit "c") terms directory
    snapshot hindex hwritten hfits hload wildcardScores).mpr ?_⟩
  have hall : (((Traced.start ∅ ∅).run bitScores (insertionOrder Nat) unitRanking
      oneDocument).store.index.collection (lit "c")).index.all (fun terms =>
        (∀ term ∈ terms.keys, 0 ∉ term) ∧ [] ∉ indexedIds terms) = true := by decide +kernel
  rw [hindex, Option.all_some, decide_eq_true_eq] at hall
  exact ⟨fun term hterm => hall.1 term (Std.ExtTreeMap.mem_keys.mpr hterm), hall.2⟩

/-- A document whose only word holds a zero byte is not found by a prefix of the word, and is not
counted. -/
theorem zero_byte_not_walked : (oneMapped (titled [45] [97, 0, 98])).map (fun index =>
      ((index.searchTerm bitScores [97, 0, 98]).map Posting.documentId,
        (index.searchPrefix bitScores wildcardScores [97]).map Posting.documentId,
        (index.searchWildcard bitScores wildcardScores (lit "a*")).map Posting.documentId,
        index.getDocumentCount bitScores)) = some ([[45]], [], [], 0) := by
  decide +kernel

end Hlquery.Index
