import Hlquery.Lib.Selection
import Hlquery.Index.Matches

/-!
# The best documents

At the end of a search the scored candidates are cut down to the limit and sorted, with the higher
score first, and with the smaller id first where the scores are equal. To sort them all would be too
much work for a large number of candidates. `Search` has `nth_element` put the best ones in front, drops
the others and sorts what is left.

The candidates come from a map by ids, so the comparison decides between any two of them, and what
`nth_element` leaves open about equal elements does not matter. **What is returned are the first of all
candidates in their order, as many as the limit says; a limit of zero is no limit**
(`rank_eq_first`).

`!=` between two scores is that one of them is less than the other, which is what it is for `double`s
other than NaN; with NaN the standard library promises nothing for this comparison.
-/

set_option autoImplicit false

namespace Hlquery.Index

open Bytes Selection

section Ranking

variable {S : Type} (lt : S → S → Bool)

/-- The comparison of `Search`: a higher score first, then a smaller id. -/
def comesBefore (a b : Posting S) : Bool :=
  if lt a.score b.score || lt b.score a.score then lt b.score a.score
  else compare a.documentId b.documentId == .lt

/-- What the standard library promises of `nth_element` with `resize`, and of `sort`. -/
structure Scoring.Ranks (scoring : Scoring S) : Prop where
  sorted : ∀ postings, Sorted (comesBefore lt) postings (scoring.sort postings)
  best : ∀ (n : Nat) (entries : List (Posting S × Nat)), n < entries.length →
    ∃ arranged, Arranged (fun a b => comesBefore lt a.1 b.1) n entries arranged ∧
      scoring.best n entries = arranged.take n

variable {lt}

theorem documentId_eq_of_not_before {a b : Posting S} (hab : comesBefore lt a b = false)
    (hba : comesBefore lt b a = false) : a.documentId = b.documentId := by
  unfold comesBefore at hab hba
  rw [Bool.or_comm] at hba
  split at hab
  · rename_i hdiffer
    rw [if_pos hdiffer] at hba
    simp [hab, hba] at hdiffer
  · rename_i hsame
    rw [if_neg hsame] at hba
    have hle : compare a.documentId b.documentId ≠ .lt := by simpa using hab
    have hge : compare b.documentId a.documentId ≠ .lt := by simpa using hba
    cases hcompare : compare a.documentId b.documentId with
    | lt => exact absurd hcompare hle
    | eq => exact Std.LawfulEqCmp.eq_of_compare hcompare
    | gt => exact absurd (Std.OrientedCmp.lt_of_gt hcompare) hge

theorem decides_of_distinct {postings : List (Posting S)}
    (h : (postings.map Posting.documentId).Nodup) : Decides (comesBefore lt) postings := by
  intro a ha b hb hab hba
  exact List.inj_on_of_nodup_map h ha hb (documentId_eq_of_not_before hab hba)

theorem strict_of_sorted {postings sorted : List (Posting S)}
    (h : Sorted (comesBefore lt) postings sorted)
    (hdistinct : (postings.map Posting.documentId).Nodup) :
    sorted.Pairwise fun a b => comesBefore lt a b = true := by
  have hnodup : sorted.Nodup := h.perm.symm.nodup hdistinct.of_map
  refine (h.inOrder.and hnodup).imp_of_mem fun {a b} ha hb hab => ?_
  by_contra hnot
  rw [Bool.not_eq_true] at hnot
  exact hab.2 (decides_of_distinct hdistinct a (h.perm.mem_iff.mp ha) b (h.perm.mem_iff.mp hb) hnot
    hab.1)

end Ranking

namespace CollectionIndex

variable {S : Type} {scoring : Scoring S} {settings : QuerySettings} {lt : S → S → Bool}

def scored (score : Posting S × Nat → S) (docs : ByteMap (Posting S × Nat)) : List (Posting S) :=
  docs.toList.map fun entry => { entry.2.1 with score := score entry.2 }

theorem distinct_scored {P : Bytes → Prop} {docs : ByteMap (Posting S × Nat)}
    (h : FoundIn P Prod.fst docs) (score : Posting S × Nat → S) :
    ((scored score docs).map Posting.documentId).Nodup := by
  have hkeys : (scored score docs).map Posting.documentId = docs.keys := by
    unfold scored
    rw [List.map_map, ← Std.ExtTreeMap.map_fst_toList_eq_keys]
    refine List.map_congr_left fun entry hmem => ?_
    exact (h entry.1 entry.2 (Std.ExtTreeMap.mem_toList_iff_getElem?_eq_some.mp hmem)).1
  rw [hkeys]
  exact Std.ExtTreeMap.nodup_keys

/-- **The best results.** If no candidate is cut off before the scoring, the search returns the first
candidates in the order of falling scores and rising ids, and all of them if the limit is zero. -/
theorem rank_eq_first (hranks : scoring.Ranks lt) {P : Bytes → Prop}
    (docs : ByteMap (Posting S × Nat)) (hdocs : FoundIn P Prod.fst docs)
    (score : Posting S × Nat → S) (limit : Nat)
    (hunpruned : pruneCandidates scoring settings limit (docs.toList.map Prod.snd) =
      docs.toList.map Prod.snd) :
    ∃ sorted, sorted.Perm (scored score docs) ∧
      (sorted.Pairwise fun a b => comesBefore lt a b = true) ∧
      rank scoring settings limit score docs = if limit = 0 then sorted else sorted.take limit := by
  have hdistinct := distinct_scored hdocs score
  have hall := hranks.sorted (scored score docs)
  refine ⟨scoring.sort (scored score docs), hall.perm, strict_of_sorted hall hdistinct, ?_⟩
  set entries : List (Posting S × Nat) := (docs.toList.map Prod.snd).map fun entry =>
    ({ entry.1 with score := score entry }, entry.2) with hentries
  have hpostings : entries.map Prod.fst = scored score docs := by
    rw [hentries, List.map_map, List.map_map]
    rfl
  unfold rank
  dsimp only
  rw [hunpruned, ← hentries]
  split
  · rename_i hcut
    -- `nth_element` puts the first ones in front
    obtain ⟨arranged, harranged, hbest⟩ := hranks.best limit entries hcut.2
    have hmapped : Arranged (comesBefore lt) limit (scored score docs) (arranged.map Prod.fst) := by
      refine ⟨hpostings ▸ harranged.perm.map Prod.fst, fun a ha b hb => ?_⟩
      rw [← List.map_take] at ha
      rw [← List.map_drop] at hb
      obtain ⟨entry, hentry, rfl⟩ := List.mem_map.mp ha
      obtain ⟨entry', hentry', rfl⟩ := List.mem_map.mp hb
      exact harranged.apart entry hentry entry' hentry'
    have hle : limit ≤ (scored score docs).length := by
      rw [← hpostings, List.length_map]
      exact Nat.le_of_lt hcut.2
    rw [hbest, List.map_take, if_neg (by omega)]
    exact Sorted.take_of_arranged (decides_of_distinct hdistinct) hmapped hle (hranks.sorted _) hall
      (hranks.sorted _)
  · rw [hpostings]
    split
    · rfl
    · have hle : (scoring.sort (scored score docs)).length ≤ limit := by
        rw [hall.perm.length_eq, ← hpostings, List.length_map]
        omega
      rw [List.take_of_length_le hle]

end CollectionIndex

/-! ### Scores that are numbers -/

/-- The order that is left: not behind. -/
def notBehind (a b : Posting Nat) : Prop := comesBefore (fun a b => decide (a < b)) b a = false

instance : DecidableRel notBehind := fun _ _ => instDecidableEqBool _ _

theorem notBehind_iff {a b : Posting Nat} : notBehind a b ↔
    b.score < a.score ∨ a.score = b.score ∧ (compare a.documentId b.documentId).isLE := by
  have hids : compare b.documentId a.documentId = (compare a.documentId b.documentId).swap :=
    Std.OrientedCmp.eq_swap
  unfold notBehind comesBefore
  simp only [Bool.or_eq_true, decide_eq_true_eq]
  split
  · rw [decide_eq_false_iff_not]
    omega
  · have heq : a.score = b.score := by omega
    rw [hids]
    cases compare a.documentId b.documentId with
    | lt => simp [heq]
    | eq => simp [heq]
    | gt => simp [heq]

instance : Std.Total notBehind where
  total a b := by
    simp only [notBehind_iff]
    have hids : compare b.documentId a.documentId = (compare a.documentId b.documentId).swap :=
      Std.OrientedCmp.eq_swap
    cases hcompare : compare a.documentId b.documentId with
    | lt => simp; omega
    | eq => simp; omega
    | gt =>
      rw [hcompare] at hids
      simp [hids]
      omega

instance : IsTrans (Posting Nat) notBehind where
  trans a b c hab hbc := by
    rw [notBehind_iff] at *
    rcases hab with hab | ⟨hab, hid⟩
    · exact .inl (by omega)
    rcases hbc with hbc | ⟨hbc, hid'⟩
    · exact .inl (by omega)
    · exact .inr ⟨hab.trans hbc, Std.TransCmp.isLE_trans hid hid'⟩

def sortedScores : Scoring Nat :=
  { countingScores with
    best := fun n entries => (entries.insertionSort fun a b => notBehind a.1 b.1).take n
    best_subset := fun _ _ _ h =>
      (List.perm_insertionSort _ _).mem_iff.mp (List.mem_of_mem_take h)
    sort := fun postings => postings.insertionSort notBehind
    sort_perm := fun _ => List.perm_insertionSort _ _ }

theorem ranks_sortedScores : sortedScores.Ranks fun a b => decide (a < b) where
  sorted postings := ⟨List.perm_insertionSort _ _, List.pairwise_insertionSort notBehind postings⟩
  best n entries _ := by
    have hpairwise : (entries.insertionSort fun a b => notBehind a.1 b.1).Pairwise fun a b =>
        notBehind a.1 b.1 := by
      exact List.pairwise_insertionSort _ _
    refine ⟨_, ⟨List.perm_insertionSort (fun a b => notBehind a.1 b.1) entries, ?_⟩, rfl⟩
    rw [← List.take_append_drop n (entries.insertionSort fun a b => notBehind a.1 b.1)] at hpairwise
    exact (List.pairwise_append.mp hpairwise).2.2

def threeCandidates : ByteMap (Posting Nat × Nat) :=
  (((∅ : ByteMap (Posting Nat × Nat)).insert (lit "a") (⟨lit "a", lit "c", 1, []⟩, 1)).insert
    (lit "b") (⟨lit "b", lit "c", 2, []⟩, 1)).insert (lit "d") (⟨lit "d", lit "c", 2, []⟩, 1)

theorem rank_threeCandidates : ∃ sorted : List (Posting Nat),
      sorted.Perm (CollectionIndex.scored (fun entry => entry.1.score) threeCandidates) ∧
      (sorted.Pairwise fun a b => comesBefore (fun a b => decide (a < b)) a b = true) ∧
      CollectionIndex.rank sortedScores orSettings 2 (fun entry => entry.1.score) threeCandidates =
        sorted.take 2 := by
  have hfound : FoundIn (fun _ => True) Prod.fst threeCandidates := by
    refine FoundIn.insert (FoundIn.insert (FoundIn.insert (foundIn_empty _) ?_ ?_) ?_ ?_) ?_ ?_
    all_goals trivial
  exact CollectionIndex.rank_eq_first ranks_sortedScores threeCandidates hfound
    (fun entry => entry.1.score) 2 (by simp [pruneCandidates, orSettings])

/-- With the limit zero all candidates are returned, not the first zero of them. -/
theorem rank_limit_zero :
    (CollectionIndex.rank sortedScores orSettings 0 (fun entry => entry.1.score)
      threeCandidates).map Posting.documentId = [lit "b", lit "d", lit "a"] := by
  decide +kernel

end Hlquery.Index
