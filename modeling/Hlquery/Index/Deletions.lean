import Hlquery.Index.Candidates
import Hlquery.Index.Effects
import Hlquery.Index.MappedContents

/-!
# Deleted documents

`DeleteDocument` takes a document out of the maps in memory. A search also reads the mapped snapshot,
and nothing in the snapshot or beside it says that one of its documents has been deleted since. So a
document that was flushed comes back: after its deletion a search still finds it in the snapshot, a
flush does not write a collection that has become empty, and a load maps the files as they are.

**As long as no document is deleted that the mapped snapshot holds, and no files are loaded that hold
a deleted document, a deleted document is not found** (`deleted_not_found`). The argument is that the
snapshot of a flush holds no other documents than memory does.
-/

set_option autoImplicit false

namespace Hlquery.Index

open Bytes

namespace CollectionIndex

variable {S : Type} {single : SinglePrecision S}

def Lacks (single : SinglePrecision S) (c : CollectionIndex S) (docId : Bytes) : Prop :=
  c.termsOf docId = none ∧ ∀ index, c.mmapIndex = some index → ¬ index.Holds single docId

variable {c : CollectionIndex S} {docId term : Bytes}

theorem Consistent.recorded_of_posting (h : c.Consistent) {post : Posting S}
    (hp : post ∈ c.postingsOf term) : c.Recorded term post.documentId := by
  by_contra hr
  have hcount := h.no_posting term post.documentId hr
  unfold postingCount at hcount
  rw [List.countP_eq_zero] at hcount
  exact hcount post hp (by simp)

theorem Consistent.posting_of_recorded (h : c.Consistent) (hrecorded : c.Recorded term docId) :
    ∃ post ∈ c.postingsOf term, post.documentId = docId := by
  have hcount : 0 < c.postingCount term docId := by
    rw [h.one_posting term docId hrecorded]
    exact Nat.one_pos
  obtain ⟨post, hpost, hid⟩ := List.countP_pos_iff.mp hcount
  exact ⟨post, hpost, by simpa using hid⟩

theorem Consistent.postings_lack (h : c.Consistent) (hn : c.termsOf docId = none)
    {postings : List (Posting S)} (hget : (c.index.getD ∅)[term]? = some postings) :
    ∀ post ∈ postings, post.documentId ≠ docId := by
  rintro post hp rfl
  have hmem : post ∈ c.postingsOf term := by
    unfold postingsOf
    rw [hget]
    exact hp
  obtain ⟨terms, ht, -⟩ := h.recorded_of_posting hmem
  rw [hn] at ht
  cases ht

theorem Lacks.not_holds (hl : c.Lacks single docId) (h : c.Consistent) :
    ¬ c.Holds single docId := by
  rintro (⟨index, hmap, hholds⟩ | ⟨term, postings, hget, post, hp, hid⟩ | hmem)
  · exact hl.2 index hmap hholds
  · exact h.postings_lack hl.1 hget post hp hid
  have hnone := hl.1
  unfold termsOf at hnone
  rw [Std.ExtTreeMap.mem_iff_isSome_getElem?, hnone] at hmem
  cases hmem

theorem Lacks.unload : c.unload.Lacks single docId := by
  refine ⟨by simp [termsOf, CollectionIndex.unload, empty], ?_⟩
  intro index h
  simp [CollectionIndex.unload, empty] at h

theorem Lacks.congr {c' : CollectionIndex S} (h : c.Lacks single docId)
    (ht : c'.termsOf docId = c.termsOf docId) (hs : c.SameSnapshot c') : c'.Lacks single docId :=
  ⟨ht.trans h.1, by rw [hs.1]; exact h.2⟩

end CollectionIndex

namespace Traced

variable {S : Type} (single : SinglePrecision S) (order : PostingSort S) (ranking : Ranking S)

/-- **The condition.** A document is deleted only where the mapped snapshot does not hold it, the
files that are loaded hold no document that has been deleted, and a file is shorter than `2 ^ 64`
bytes. -/
def DeletesUnwritten (t : Traced S) : Call S → Prop
  | .deleteDocument _ name docId =>
      ∀ index, (t.store.index.collection name).mmapIndex = some index → ¬ index.Holds single docId
  | .loadFromDisk env => ∀ (name : Bytes) (index : MMapIndex) (docId : Bytes),
      (name, index) ∈ t.store.opened env → t.ledger name docId = .deleted →
        ¬ index.Holds single docId
  | .flushToDisk _ _ _ => ∀ (name : Bytes) (terms : ByteMap (List (Posting S))),
      (t.store.index.collection name).index = some terms →
        ∀ file payload, (file, payload) ∈ indexFiles (encodedTerms single order terms) →
          payload.length < 2 ^ 64
  | _ => True

def DeletionsHold (t : Traced S) : Prop :=
  ∀ name docId, t.ledger name docId = .deleted →
    (t.store.index.collection name).Lacks single docId

variable {single order ranking}

theorem DeletionsHold.effect {t : Traced S} (h : t.DeletionsHold single)
    (hinv : t.store.index.Invariant) {call : Call S} (hcall : t.DeletesUnwritten single order call)
    {name : Bytes} {c' : CollectionIndex S} {statuses : Bytes → Status}
    (heffect : Effect single order ranking t name call c' statuses) :
    ∀ docId, statuses docId = .deleted → c'.Lacks single docId := by
  induction heffect with
  | kept c' hindex hterms hsame =>
    intro docId hd
    exact (h name docId hd).congr (by unfold CollectionIndex.termsOf; rw [hterms]) hsame
  | entered doc c' hcall hindex hterms hsame =>
    intro docId hd
    dsimp only at hd
    have hne : docId ≠ doc.id := by
      rintro rfl
      rw [if_pos rfl] at hd
      cases hd
    rw [if_neg hne] at hd
    exact (h name docId hd).congr (by rw [hterms, if_neg hne]) hsame
  | removed env docId c' heq hindex hterms hsame =>
    subst heq
    intro docId' hd
    dsimp only at hd
    by_cases he : docId' = docId
    · subst he
      exact ⟨by rw [hterms, if_pos rfl], by rw [hsame.1]; exact hcall⟩
    · rw [if_neg he] at hd
      exact (h name docId' hd).congr (by rw [hterms, if_neg he]) hsame
  | dropped =>
    intro docId hd
    cases hd
  | cleared =>
    intro docId _
    exact CollectionIndex.Lacks.unload (c := .empty)
  | flushed env minAge maxCollections heq terms c' hmemory hdeferred hindex hterms hflush hmmap =>
    subst heq
    intro docId hd
    have hlacks := h name docId hd
    refine ⟨by unfold CollectionIndex.termsOf; rw [hterms]; exact hlacks.1, ?_⟩
    rcases hmmap with hmmap | ⟨directory, ⟨hfit, hdir⟩, hmmap⟩
    · rw [hmmap]
      exact hlacks.2
    · -- what was written came from memory, which has no posting of the document
      rw [hmmap]
      obtain ⟨index, hload, hcontents⟩ := holds_of_indexFiles hfit (hcall name terms hmemory) hdir
      intro index' hload' hholds
      obtain rfl := Option.some.inj (hload.symm.trans hload')
      obtain ⟨term, postings, hget, post, hp, hid⟩ := hcontents docId hholds
      have hget' : ((t.store.index.collection name).index.getD ∅)[term]? = some postings := by
        rw [hmemory]
        exact hget
      exact (hinv name).toConsistent.postings_lack hlacks.1 hget' post hp hid
  | loaded env index heq hopened =>
    subst heq
    intro docId hd
    refine ⟨(h name docId hd).1, ?_⟩
    intro index' he
    cases he
    exact hcall name index docId hopened hd
  | evicted c' statuses heffect ih =>
    intro docId _
    exact CollectionIndex.Lacks.unload

end Traced

/-! ### A document that was flushed before it was deleted -/

def countingScores : Scoring Nat where
  one := 1
  weight _ := 1
  add := (· + ·)
  mul := (· * ·)
  max := max
  finalScore _ _ _ entry := entry.1.score
  best n postings := postings.take n
  best_subset _ _ := List.take_subset _ _
  sort postings := postings
  sort_perm _ := .refl _
  wildcardMatch a b := a = b

def unitRanking : Ranking Nat := ⟨1, 1, 1, 1, 1, 1, max, (· * ·)⟩

def smallSurroundings : Surroundings Nat := ⟨0, 0, fun _ _ => 1⟩

def goodFlush : FlushSurroundings Nat where
  order := id
  order_perm _ := .refl _
  now := 0
  disk _ _ := .written
  setsMark _ := true
  deletesMark _ := true
  flushTime _ := 0
  estimateMemory _ _ := 1

def titled (id title : Bytes) : Document := ⟨id, title, [], [], by simp⟩

def unflushedDeletion : List (Call Nat) :=
  [.addDocument smallSurroundings (lit "c") (titled (lit "d") (lit "word")),
    .deleteDocument smallSurroundings (lit "c") (lit "d")]

def flushedDeletion : Traced Nat :=
  (Traced.start ∅ ∅).run bitScores (insertionOrder Nat) unitRanking
    [.addDocument smallSurroundings (lit "c") (titled (lit "d") (lit "word")),
      .flushToDisk goodFlush 0 0,
      .deleteDocument smallSurroundings (lit "c") (lit "d"),
      .flushToDisk goodFlush 0 0]

end Hlquery.Index
