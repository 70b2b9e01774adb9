import Mathlib.Data.List.Sort

/-!
# The first elements of a list

`std::sort` and `std::nth_element` take a comparison that says which of two elements comes before the
other. What they promise is weaker than an order: in a sorted list no element comes before one that
stands in front of it, and after `nth_element` no element from the place `n` on comes before one of the
first `n`. Where the comparison decides between any two elements of the list, that is enough to fix
the result of a sort (`Sorted.unique`), and **to sort the elements in front of the place `n` is to take
the first `n` of the sorted list** (`Sorted.take_of_arranged`).
-/

set_option autoImplicit false

namespace Hlquery.Selection

variable {α : Type} (before : α → α → Bool)

/-- The promise of `sort`. -/
structure Sorted (l sorted : List α) : Prop where
  perm : sorted.Perm l
  inOrder : sorted.Pairwise fun a b => before b a = false

/-- The promise of `nth_element`. -/
structure Arranged (n : Nat) (l arranged : List α) : Prop where
  perm : arranged.Perm l
  apart : ∀ a ∈ arranged.take n, ∀ b ∈ arranged.drop n, before b a = false

/-- The comparison decides between any two elements of a list. -/
def Decides (l : List α) : Prop :=
  ∀ a ∈ l, ∀ b ∈ l, before a b = false → before b a = false → a = b

variable {before}

/-- **There is one way to sort.** -/
theorem Sorted.unique {l sorted sorted' : List α} (hl : Decides before l)
    (h : Sorted before l sorted) (h' : Sorted before l sorted') : sorted = sorted' := by
  refine List.Perm.eq_of_pairwise (fun a b ha hb hab hba => ?_) h.inOrder h'.inOrder
    (h.perm.trans h'.perm.symm)
  exact hl a (h.perm.mem_iff.mp ha) b (h'.perm.mem_iff.mp hb) hba hab

/-- Two sorted parts, none of the second before any of the first. -/
theorem Sorted.append {front back sortedFront sortedBack : List α}
    (hfront : Sorted before front sortedFront) (hback : Sorted before back sortedBack)
    (h : ∀ a ∈ front, ∀ b ∈ back, before b a = false) :
    Sorted before (front ++ back) (sortedFront ++ sortedBack) where
  perm := hfront.perm.append hback.perm
  inOrder := by
    refine List.pairwise_append.mpr ⟨hfront.inOrder, hback.inOrder, fun a ha b hb => ?_⟩
    exact h a (hfront.perm.mem_iff.mp ha) b (hback.perm.mem_iff.mp hb)

/-- **The first `n`, sorted, are the first `n` of all, sorted.** -/
theorem Sorted.take_of_arranged {n : Nat} {l arranged sorted front : List α}
    (hl : Decides before l) (harranged : Arranged before n l arranged) (hn : n ≤ l.length)
    (hfront : Sorted before (arranged.take n) front) (hsorted : Sorted before l sorted)
    {back : List α} (hback : Sorted before (arranged.drop n) back) : front = sorted.take n := by
  have happend : Sorted before l (front ++ back) := by
    have := hfront.append hback harranged.apart
    rw [List.take_append_drop] at this
    exact ⟨this.perm.trans harranged.perm, this.inOrder⟩
  have hlength : front.length = n := by
    rw [hfront.perm.length_eq, List.length_take, harranged.perm.length_eq]
    exact Nat.min_eq_left hn
  rw [← happend.unique hl hsorted, ← hlength, List.take_left']
  rfl

end Hlquery.Selection
