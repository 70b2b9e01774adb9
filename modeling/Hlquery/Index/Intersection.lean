import Hlquery.Lib.Join
import Hlquery.Index.Matches

/-!
# Documents with all the words

In the mode `and` a search starts with the documents of the rarest word and narrows them down word by
word. Where the next word has far more documents than are left, both sides are sorted by id and walked
through together; otherwise each document of the word is looked up among those that are left. Whatever
the way, the posting that is kept gets the score and the positions of the next one added at its end.

**Both ways keep the same documents with the same postings, and what is left in the end are the
documents that every word has.** The order of the words does not change which documents these are,
nor how many positions they have, but the positions stand in the order in which the words were taken,
and so do the scores in the sum (`intersectAll_spec`).
-/

set_option autoImplicit false

namespace Hlquery.Index

open Bytes

section Intersection

variable {S : Type} (scoring : Scoring S)

/-! ## Two ways to take one more word -/

def joinEntry (entry : Posting S × Nat) (post : Posting S) : Posting S × Nat :=
  (joinPostings scoring entry.1 post, entry.2 + 1)

def mergeIntersection (docs : ByteMap (Posting S × Nat)) (termDocs : ByteMap (Posting S)) :
    ByteMap (Posting S × Nat) :=
  Join.mergeJoin (joinEntry scoring) docs termDocs

def hashIntersection (docs : ByteMap (Posting S × Nat)) (termDocs : ByteMap (Posting S)) :
    ByteMap (Posting S × Nat) :=
  Join.lookupJoin (joinEntry scoring) docs termDocs

section

variable (docs : ByteMap (Posting S × Nat))
include docs

section

variable (termDocs : ByteMap (Posting S))
include termDocs

theorem get_intersectDocs
    (docId : Bytes) : (intersectDocs scoring docs termDocs)[docId]? =
      docs[docId]?.bind fun entry => termDocs[docId]?.map (joinEntry scoring entry) := by
  unfold intersectDocs
  rw [Std.ExtTreeMap.getElem?_filterMap']
  rfl

theorem mergeIntersection_eq :
    mergeIntersection scoring docs termDocs = intersectDocs scoring docs termDocs :=
  Std.ExtTreeMap.ext_getElem? fun {docId} => by
    rw [get_intersectDocs]
    exact Join.getElem?_mergeJoin _ docs termDocs docId

theorem hashIntersection_eq :
    hashIntersection scoring docs termDocs = intersectDocs scoring docs termDocs := by
  unfold hashIntersection
  rw [← Join.mergeJoin_eq_lookupJoin]
  exact mergeIntersection_eq scoring docs termDocs

end

end

/-- The choice of `Search`: more than ten times as many documents, and more than a hundred left. -/
def isUneven (docs : ByteMap (Posting S × Nat)) (termDocs : ByteMap (Posting S)) : Bool :=
  docs.size * 10 < termDocs.size && 100 < docs.size

/-! ## All words -/

variable (choice : ByteMap (Posting S × Nat) → ByteMap (Posting S) → Bool)

def intersectBy (docs : ByteMap (Posting S × Nat)) (termDocs : ByteMap (Posting S)) :
    ByteMap (Posting S × Nat) :=
  if choice docs termDocs then mergeIntersection scoring docs termDocs
  else hashIntersection scoring docs termDocs

def intersectAll : List (ByteMap (Posting S)) → ByteMap (Posting S × Nat)
  | [] => ∅
  | first :: others =>
      others.foldl (intersectBy scoring choice) (first.map fun _ post => (post, 1))

theorem intersectBy_eq : intersectBy scoring choice = intersectDocs scoring := by
  funext docs termDocs
  unfold intersectBy
  split
  · exact mergeIntersection_eq scoring docs termDocs
  · exact hashIntersection_eq scoring docs termDocs

def postingsOf (order : List (ByteMap (Posting S))) (docId : Bytes) : List (Posting S) :=
  order.filterMap fun termDocs => termDocs[docId]?

def joinAll (first : Posting S) (others : List (Posting S)) : Posting S × Nat :=
  others.foldl (joinEntry scoring) (first, 1)

theorem get_foldl_intersectDocs (docId : Bytes) :
    ∀ (others : List (ByteMap (Posting S))) (docs : ByteMap (Posting S × Nat)),
      (others.foldl (intersectDocs scoring) docs)[docId]? =
        if ∀ termDocs ∈ others, docId ∈ termDocs then
          docs[docId]?.map fun entry => (postingsOf others docId).foldl (joinEntry scoring) entry
        else none
  | [], docs => by simp [postingsOf]
  | termDocs :: others, docs => by
    rw [List.foldl_cons, get_foldl_intersectDocs docId others, get_intersectDocs]
    unfold postingsOf
    cases hget : termDocs[docId]? with
    | none =>
      have hnot : docId ∉ termDocs := by
        rw [Std.ExtTreeMap.mem_iff_isSome_getElem?, hget]
        simp
      simp [hnot]
    | some post =>
      have hmem : docId ∈ termDocs := by
        rw [Std.ExtTreeMap.mem_iff_isSome_getElem?, hget]
        rfl
      simp only [List.forall_mem_cons, hmem, true_and, List.filterMap_cons, hget, List.foldl_cons]
      cases docs[docId]? with
      | none => simp
      | some entry => simp

/-- **A document is left if every word has it**, with its postings put together in order. -/
theorem get_intersectAll (first : ByteMap (Posting S)) (others : List (ByteMap (Posting S)))
    (docId : Bytes) : (intersectAll scoring choice (first :: others))[docId]? =
      if ∀ termDocs ∈ others, docId ∈ termDocs then
        first[docId]?.map fun post => joinAll scoring post (postingsOf others docId)
      else none := by
  unfold intersectAll
  rw [intersectBy_eq, get_foldl_intersectDocs, Std.ExtTreeMap.getElem?_map, Option.map_map]
  rfl

/-! ## The postings of a document -/

theorem joinAll_spec (first : Posting S) (others : List (Posting S)) :
    (joinAll scoring first others).1.positions = (first :: others).flatMap Posting.positions ∧
      (joinAll scoring first others).1.score =
        (others.map Posting.score).foldl scoring.add first.score ∧
      (joinAll scoring first others).2 = others.length + 1 := by
  have hfold : ∀ (others : List (Posting S)) (entry : Posting S × Nat),
      (others.foldl (joinEntry scoring) entry).1.positions =
          entry.1.positions ++ others.flatMap Posting.positions ∧
        (others.foldl (joinEntry scoring) entry).1.score =
          (others.map Posting.score).foldl scoring.add entry.1.score ∧
        (others.foldl (joinEntry scoring) entry).2 = entry.2 + others.length := by
    intro others
    induction others with
    | nil => intro entry; simp
    | cons post others ih =>
      intro entry
      obtain ⟨hpositions, hscore, hcount⟩ := ih (joinEntry scoring entry post)
      refine ⟨?_, hscore, ?_⟩
      · rw [List.foldl_cons, hpositions, List.flatMap_cons, ← List.append_assoc]
        rfl
      · rw [List.foldl_cons, hcount, List.length_cons]
        unfold joinEntry
        omega
  obtain ⟨hpositions, hscore, hcount⟩ := hfold others (first, 1)
  exact ⟨hpositions, hscore, hcount.trans (Nat.add_comm 1 _)⟩

/-- Two sums of the same scores, perhaps in another order. -/
def SameSummands (score score' : S) : Prop :=
  ∃ first others first' others', (first :: others).Perm (first' :: others') ∧
    score = others.foldl scoring.add first ∧ score' = others'.foldl scoring.add first'

variable {scoring}

theorem foldl_eq_of_perm [Std.Commutative scoring.add] [Std.Associative scoring.add]
    {scores scores' : List S} (h : scores.Perm scores') :
    ∀ {first others first' others'}, scores = first :: others → scores' = first' :: others' →
      others.foldl scoring.add first = others'.foldl scoring.add first' := by
  induction h with
  | nil => intro _ _ _ _ he; cases he
  | cons score h _ =>
    intro first others first' others' he he'
    obtain ⟨rfl, rfl⟩ := List.cons.inj he
    obtain ⟨rfl, rfl⟩ := List.cons.inj he'
    exact h.foldl_op_eq
  | swap score score' scores =>
    intro first others first' others' he he'
    obtain ⟨rfl, rfl⟩ := List.cons.inj he
    obtain ⟨rfl, rfl⟩ := List.cons.inj he'
    have hcomm : scoring.add score' score = scoring.add score score' := Std.Commutative.comm _ _
    rw [List.foldl_cons, List.foldl_cons, hcomm]
  | trans h h' ih ih' =>
    intro first others first' others' he he'
    rename_i scores₁ scores₂ scores₃
    cases hmiddle : scores₂ with
    | nil =>
      rw [hmiddle, he] at h
      cases h.eq_nil
    | cons middle rest => exact (ih he hmiddle).trans (ih' hmiddle he')

theorem SameSummands.eq [Std.Commutative scoring.add] [Std.Associative scoring.add] {score score' : S}
    (h : SameSummands scoring score score') : score = score' := by
  obtain ⟨first, others, first', others', hperm, rfl, rfl⟩ := h
  exact foldl_eq_of_perm hperm rfl rfl

theorem postingsOf_perm {order order' : List (ByteMap (Posting S))} (h : order.Perm order')
    (docId : Bytes) : (postingsOf order docId).Perm (postingsOf order' docId) :=
  h.filterMap _

/-- The posting that is left of a document, by the postings of the words. -/
theorem entry_of_get {order : List (ByteMap (Posting S))} {docId : Bytes} {entry : Posting S × Nat}
    (h : (intersectAll scoring choice order)[docId]? = some entry) :
    ∃ first others, postingsOf order docId = first :: others ∧
      entry = joinAll scoring first others := by
  cases order with
  | nil => simp [intersectAll] at h
  | cons first others =>
    rw [get_intersectAll] at h
    split at h
    · obtain ⟨post, hpost, rfl⟩ := Option.map_eq_some_iff.mp h
      refine ⟨post, postingsOf others docId, ?_, rfl⟩
      unfold postingsOf
      rw [List.filterMap_cons, hpost]
    · cases h

theorem mem_intersectAll {order : List (ByteMap (Posting S))} {docId : Bytes} :
    docId ∈ intersectAll scoring choice order ↔
      order ≠ [] ∧ ∀ termDocs ∈ order, docId ∈ termDocs := by
  cases order with
  | nil => simp [intersectAll]
  | cons first others =>
    unfold intersectAll
    rw [intersectBy_eq, mem_foldl_intersectDocs, Std.ExtTreeMap.mem_map]
    simp

variable (scoring) in
/-- **The documents with all the words.** For every list of words and every two orders of them, and
whatever way is taken at each word: the way does not matter; the documents that are left are those
that all words have; and the postings that are left of a document in the two orders count the same
words, have the same positions up to their order, and as score a sum of the same scores, which is the
same number if the order of a sum does not matter. -/
theorem intersectAll_spec {results order order' : List (ByteMap (Posting S))}
    (h : order.Perm results) (h' : order'.Perm results)
    (choice choice' : ByteMap (Posting S × Nat) → ByteMap (Posting S) → Bool) (docId : Bytes) :
    intersectAll scoring choice order = intersectAll scoring choice' order ∧
    (docId ∈ intersectAll scoring choice order ↔
      results ≠ [] ∧ ∀ termDocs ∈ results, docId ∈ termDocs) ∧
    ∀ entry entry', (intersectAll scoring choice order)[docId]? = some entry →
      (intersectAll scoring choice' order')[docId]? = some entry' →
      entry.1.positions.Perm entry'.1.positions ∧ entry.2 = entry'.2 ∧
        SameSummands scoring entry.1.score entry'.1.score ∧
        (Std.Commutative scoring.add → Std.Associative scoring.add →
          entry.1.score = entry'.1.score) := by
  refine ⟨?_, ?_, fun entry entry' hget hget' => ?_⟩
  · cases order with
    | nil => rfl
    | cons first others =>
      unfold intersectAll
      rw [intersectBy_eq, intersectBy_eq]
  · rw [mem_intersectAll]
    simp [h.mem_iff, ← List.length_eq_zero_iff, h.length_eq]
  · obtain ⟨first, others, hpostings, rfl⟩ := entry_of_get choice hget
    obtain ⟨first', others', hpostings', rfl⟩ := entry_of_get choice' hget'
    have hperm : (first :: others).Perm (first' :: others') := by
      rw [← hpostings, ← hpostings']
      exact postingsOf_perm (h.trans h'.symm) docId
    obtain ⟨hpositions, hscore, hcount⟩ := joinAll_spec scoring first others
    obtain ⟨hpositions', hscore', hcount'⟩ := joinAll_spec scoring first' others'
    have hsum : SameSummands scoring (joinAll scoring first others).1.score
        (joinAll scoring first' others').1.score :=
      ⟨_, _, _, _, hperm.map Posting.score, hscore, hscore'⟩
    refine ⟨?_, ?_, hsum, fun _ _ => hsum.eq⟩
    · rw [hpositions, hpositions']
      exact hperm.flatMap_right _
    · rw [hcount, hcount']
      exact hperm.length_eq

end Intersection

/-! ### Two words of one document -/

def andSettings : QuerySettings := ⟨0, lit "and", 1, 0⟩

def twoWords : CollectionIndex Nat :=
  (InvertedIndex.run unitRanking
    [.addDocument smallSurroundings (lit "c") (titled (lit "d") (lit "word other"))]).collection
      (lit "c")

def wordDocs : List (ByteMap (Posting Nat)) :=
  [twoWords.loadTermDocs bitScores countingScores [] (lit "c") (lit "word"),
    twoWords.loadTermDocs bitScores countingScores [] (lit "c") (lit "other")]

theorem intersectAll_wordDocs :
    lit "d" ∈ intersectAll countingScores isUneven wordDocs.reverse :=
  (intersectAll_spec countingScores wordDocs.reverse_perm (List.Perm.refl wordDocs) isUneven isUneven
    (lit "d")).2.1.mpr (by decide +kernel)

/-- The positions that are returned stand in the order of the words of the query. -/
theorem positions_in_query_order :
    (twoWords.search bitScores countingScores andSettings (lit "c") (lit "word other") 0 []).map
        Posting.positions = [[0, 1]] ∧
      (twoWords.search bitScores countingScores andSettings (lit "c") (lit "other word") 0 []).map
        Posting.positions = [[1, 0]] := by
  decide +kernel

end Hlquery.Index
