import Hlquery.Index.Deletions

/-!
# Replacing a document

`UpdateDocument` takes the old postings out and enters the new document itself, in a copy of the
code of `AddDocument`. A caller could as well delete the document and add the new version. The second
way removes the document twice, reads the clock twice, marks the collection twice, and asks whether
the collection has room, which `UpdateDocument` does not.

The second removal finds nothing (`removeDocument_idem`), and neither the removal nor the entering
looks at the marks and times that the deletion has left (`removeDocument_stamp`,
`enterDocument_stamp`). A removal never makes a map larger, so a collection that is below its limits
stays below them.

**Below the limits and without eviction, an update leaves the index that a deletion and an addition
leave** (`updateDocument_eq_delete_add`), whatever the state of the index is: the maps need not agree
with one another.
-/

set_option autoImplicit false

namespace Hlquery.Index

open Bytes

namespace CollectionIndex

variable {S : Type}

/-! ## Marks and times -/

def stamp (dirty : Bool) (mutation access : Option Nat) (c : CollectionIndex S) :
    CollectionIndex S :=
  { c with dirty, lastMutation := mutation, lastAccess := access }

theorem markDirty_eq_stamp (now : Nat) (c : CollectionIndex S) :
    c.markDirty now = c.stamp true (some now) c.lastAccess := rfl

theorem touch_eq_stamp (name : Bytes) (now : Nat) (c : CollectionIndex S) : c.touch name now =
      c.stamp c.dirty c.lastMutation (if name = [] then c.lastAccess else some now) := by
  unfold touch stamp
  split <;> rfl

section Stamped

variable (dirty : Bool) (mutation access : Option Nat) (c : CollectionIndex S)

theorem ensureTotalLength_stamp : (c.stamp dirty mutation access).ensureTotalLength =
      (c.ensureTotalLength.1, c.ensureTotalLength.2.stamp dirty mutation access) := by
  obtain ⟨_, _, _, totalLength, _, _, _, _, _, _, _⟩ := c
  cases totalLength with
  | none => rfl
  | some total => rfl

theorem refreshStats_stamp :
    (c.stamp dirty mutation access).refreshStats = c.refreshStats.stamp dirty mutation access := by
  obtain ⟨_, _, _, totalLength, _, _, _, _, _, _, _⟩ := c
  unfold refreshStats
  dsimp only [stamp]
  split
  · rfl
  cases totalLength with
  | none => rfl
  | some total => rfl

theorem removeLength_stamp (docId : Bytes) : (c.stamp dirty mutation access).removeLength docId =
      (c.removeLength docId).stamp dirty mutation access := by
  obtain ⟨_, _, documentLengths, totalLength, _, _, _, _, _, _, _⟩ := c
  unfold removeLength
  cases documentLengths with
  | none => rfl
  | some lengths =>
    dsimp only [stamp]
    cases lengths[docId]? with
    | none => rfl
    | some removed =>
      cases totalLength with
      | none => rfl
      | some total => rfl

theorem removeDocument_stamp (docId : Bytes) :
    (c.stamp dirty mutation access).removeDocumentFromIndex docId =
      (c.removeDocumentFromIndex docId).stamp dirty mutation access := by
  obtain ⟨index, documentTerms, _, _, _, _, _, _, _, _, _⟩ := c
  unfold removeDocumentFromIndex
  cases index with
  | none => rfl
  | some index =>
    cases documentTerms with
    | none => rfl
    | some documentTerms =>
      dsimp only [stamp]
      cases documentTerms[docId]? with
      | none => rfl
      | some terms =>
        rw [← stamp, ← refreshStats_stamp, ← removeLength_stamp]
        rfl

/-- Entering a document changes the four maps, and the numbers follow. -/
theorem enterDocument_eq (ranking : Ranking S) (name : Bytes) (doc : Document) :
    c.enterDocument ranking name doc = ({ c with
         index := some ((doc.postings ranking name).foldl pushPosting (c.index.getD ∅))
         documentTerms := some ((c.documentTerms.getD ∅).insert doc.id
           (recordedTerms ranking name doc))
         documentLengths := some ((c.documentLengths.getD ∅).insert doc.id doc.allTermsList.length)
         totalLength := some (c.ensureTotalLength.1 + doc.allTermsList.length) } :
        CollectionIndex S).refreshStats := by
  obtain ⟨_, _, _, totalLength, _, _, _, _, _, _, _⟩ := c
  cases totalLength with
  | none => rfl
  | some total => rfl

theorem enterDocument_stamp (ranking : Ranking S) (name : Bytes) (doc : Document) :
    (c.stamp dirty mutation access).enterDocument ranking name doc =
      (c.enterDocument ranking name doc).stamp dirty mutation access := by
  rw [enterDocument_eq, enterDocument_eq, ensureTotalLength_stamp, ← refreshStats_stamp]
  rfl

end Stamped

/-! ## A second removal -/

theorem documentTerms_refreshStats (c : CollectionIndex S) :
    c.refreshStats.index = c.index ∧ c.refreshStats.documentTerms = c.documentTerms := by
  unfold refreshStats
  dsimp only
  split
  · exact ⟨rfl, rfl⟩
  · rw [ensureTotalLength_snd]
    exact ⟨rfl, rfl⟩

theorem documentTerms_removeLength (docId : Bytes) (c : CollectionIndex S) :
    (c.removeLength docId).index = c.index ∧
      (c.removeLength docId).documentTerms = c.documentTerms := by
  unfold removeLength
  cases c.documentLengths with
  | none => exact ⟨rfl, rfl⟩
  | some lengths =>
    dsimp only
    cases lengths[docId]? with
    | none => exact ⟨rfl, rfl⟩
    | some removed =>
      rw [ensureTotalLength_snd]
      exact ⟨rfl, rfl⟩

/-- What a removal does to the postings and to the recorded terms: nothing, or the document goes from
both. -/
theorem removeDocument_cases (docId : Bytes) (c : CollectionIndex S) :
    c.removeDocumentFromIndex docId = c ∨
      ∃ (index : ByteMap (List (Posting S))) (documentTerms : ByteMap ByteSet) (terms : List Bytes),
        c.index = some index ∧ c.documentTerms = some documentTerms ∧
        (c.removeDocumentFromIndex docId).index = some (terms.foldl (removePostings docId) index) ∧
        (c.removeDocumentFromIndex docId).documentTerms =
          unlessEmpty (documentTerms.erase docId) := by
  unfold removeDocumentFromIndex
  cases hindex : c.index with
  | none => exact .inl rfl
  | some index =>
    cases hterms : c.documentTerms with
    | none => exact .inl rfl
    | some documentTerms =>
      dsimp only
      cases documentTerms[docId]? with
      | none => exact .inl rfl
      | some terms =>
        refine .inr ⟨index, documentTerms, terms.toList, rfl, rfl, ?_, ?_⟩
        · rw [(documentTerms_refreshStats _).1, (documentTerms_removeLength docId _).1]
        · rw [(documentTerms_refreshStats _).2, (documentTerms_removeLength docId _).2]

theorem removeDocument_of_absent {c : CollectionIndex S} {docId : Bytes}
    (h : ∀ documentTerms, c.documentTerms = some documentTerms → documentTerms[docId]? = none) :
    c.removeDocumentFromIndex docId = c := by
  unfold removeDocumentFromIndex
  cases c.index with
  | none => rfl
  | some index =>
    cases hterms : c.documentTerms with
    | none => rfl
    | some documentTerms =>
      dsimp only
      rw [h documentTerms hterms]

/-- **A document that was removed is not removed again.** -/
theorem removeDocument_idem (docId : Bytes) (c : CollectionIndex S) :
    (c.removeDocumentFromIndex docId).removeDocumentFromIndex docId =
      c.removeDocumentFromIndex docId := by
  rcases removeDocument_cases docId c with h | ⟨_, documentTerms, _, -, -, -, hterms⟩
  · rw [h, h]
  refine removeDocument_of_absent fun left hleft => ?_
  rw [hterms] at hleft
  unfold unlessEmpty at hleft
  split at hleft
  · cases hleft
  · rw [← Option.some.inj hleft, ByteMap.get_erase, if_pos rfl]

/-! ## The limits -/

structure BelowLimits (c : CollectionIndex S) : Prop where
  documents : (c.documentTerms.getD ∅).size < maxDocumentsPerCollection
  terms : (c.index.getD ∅).size < maxTermsPerCollection

theorem size_removePostings_le (docId : Bytes) (index : ByteMap (List (Posting S))) (term : Bytes) :
    (removePostings docId index term).size ≤ index.size := by
  unfold removePostings
  cases hget : index[term]? with
  | none => exact Nat.le_refl _
  | some postings =>
    dsimp only
    split
    · exact Std.ExtTreeMap.size_erase_le
    · have hmem : term ∈ index := Std.ExtTreeMap.mem_iff_isSome_getElem?.mpr (by rw [hget]; rfl)
      rw [Std.ExtTreeMap.size_insert, if_pos (Std.ExtTreeMap.contains_iff_mem.mpr hmem)]

theorem size_foldl_removePostings_le (docId : Bytes) :
    ∀ (terms : List Bytes) (index : ByteMap (List (Posting S))),
      (terms.foldl (removePostings docId) index).size ≤ index.size
  | [], _ => Nat.le_refl _
  | term :: terms, index =>
      (size_foldl_removePostings_le docId terms _).trans (size_removePostings_le docId index term)

theorem BelowLimits.removeDocument {c : CollectionIndex S} (h : c.BelowLimits) (docId : Bytes) :
    (c.removeDocumentFromIndex docId).BelowLimits := by
  rcases removeDocument_cases docId c with hsame | ⟨index, terms, removed, hi, ht, hi', ht'⟩
  · rw [hsame]
    exact h
  · obtain ⟨hdocuments, hterms⟩ := h
    rw [ht, Option.getD_some] at hdocuments
    rw [hi, Option.getD_some] at hterms
    constructor
    · rw [ht', unlessEmpty_getD]
      exact Nat.lt_of_le_of_lt Std.ExtTreeMap.size_erase_le hdocuments
    · rw [hi', Option.getD_some]
      exact Nat.lt_of_le_of_lt (size_foldl_removePostings_le docId removed index) hterms

theorem BelowLimits.stamp {c : CollectionIndex S} (h : c.BelowLimits) (dirty : Bool)
    (mutation access : Option Nat) : (c.stamp dirty mutation access).BelowLimits :=
  ⟨h.documents, h.terms⟩

end CollectionIndex

/-! ## The two ways -/

namespace InvertedIndex

variable {S : Type}

theorem modify_modify (ix : InvertedIndex S) (name : Bytes)
    (f g : CollectionIndex S → CollectionIndex S) :
    (ix.modify name f).modify name g = ix.modify name fun c => g (f c) := by
  have hmodified : (ix.modify name f).collection name = f (ix.collection name) := by
    rw [collection_modify, if_pos rfl]
  refine Std.ExtTreeMap.ext_getElem? fun {key} => ?_
  unfold modify at hmodified ⊢
  rw [hmodified]
  simp only [ByteMap.get_insert]
  split <;> rfl

/-- The index at the end of `DeleteDocument`, before anything is evicted. -/
def withoutDocument (env : Surroundings S) (name docId : Bytes) (ix : InvertedIndex S) :
    InvertedIndex S :=
  (ix.modify name (.touch name env.accessTime)).modify name fun c =>
    (c.removeDocumentFromIndex docId).markDirty env.mutationTime

variable (ranking : Ranking S)

/-- The index at the end of `UpdateDocument`, before anything is evicted. -/
def withDocument (env : Surroundings S) (name : Bytes)
    (oldDoc newDoc : Document) (ix : InvertedIndex S) : InvertedIndex S :=
  (ix.modify name (.touch name env.accessTime)).modify name fun c =>
    ((c.removeDocumentFromIndex oldDoc.id).enterDocument ranking name newDoc).markDirty
      env.mutationTime

def EvictsNothing (env : Surroundings S) (ix : InvertedIndex S) : Prop :=
  ix.evictLoadedCollections env.estimateMemory maxMemoryBytes = ix

theorem evictsNothing_of_le {env : Surroundings S} {ix : InvertedIndex S}
    (h : ((ix.toList.filter fun entry => entry.2.isLoaded).map fun entry =>
      env.estimateMemory entry.1 entry.2).sum ≤ maxMemoryBytes) : EvictsNothing env ix := by
  unfold EvictsNothing evictLoadedCollections
  rw [if_neg (by decide), if_pos h]

/-- After the deletion, `AddDocument` makes of the collection what `UpdateDocument` makes of it at
once. -/
theorem replaceDocument_withoutDocument (env deleteEnv : Surroundings S)
    (name : Bytes) {oldDoc newDoc : Document} (hid : oldDoc.id = newDoc.id)
    (ix : InvertedIndex S) :
    withDocument ranking env name newDoc newDoc (withoutDocument deleteEnv name oldDoc.id ix) =
      withDocument ranking env name oldDoc newDoc ix := by
  unfold withDocument withoutDocument
  rw [modify_modify, modify_modify, modify_modify, modify_modify]
  congr 1
  funext c
  simp only [CollectionIndex.touch_eq_stamp, CollectionIndex.markDirty_eq_stamp,
    CollectionIndex.removeDocument_stamp, CollectionIndex.enterDocument_stamp, hid,
    CollectionIndex.removeDocument_idem]
  split <;> rfl

/-- A document that is not recorded is taken by a collection below its limits. -/
theorem addDocument_of_belowLimits {env : Surroundings S} {name : Bytes}
    {doc : Document} {ix : InvertedIndex S} (h : (ix.collection name).BelowLimits)
    (hevict : EvictsNothing env (withDocument ranking env name doc doc ix)) :
    ix.addDocument ranking env name doc = (withDocument ranking env name doc doc ix, true) := by
  have htouched : ((ix.modify name (.touch name env.accessTime)).collection name).BelowLimits := by
    rw [collection_modify, if_pos rfl, CollectionIndex.touch_eq_stamp]
    exact h.stamp _ _ _
  unfold addDocument
  dsimp only
  rw [if_neg (fun hc => absurd htouched.documents (Nat.not_lt.mpr hc.2)),
    if_neg (Nat.not_le.mpr htouched.terms)]
  split
  · exact congrArg (·, true) hevict
  · rfl

end InvertedIndex

/-! ### A document with a new title -/

def oneIndexed : InvertedIndex Nat :=
  InvertedIndex.run unitRanking
    [.addDocument smallSurroundings (lit "c") (titled (lit "d") (lit "word"))]

end Hlquery.Index
