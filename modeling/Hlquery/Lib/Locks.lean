import Mathlib.Data.Finset.Max
import Mathlib.Logic.Function.Basic

/-!
# Threads and locks

Each thread has a program of acquisitions and releases, and a schedule says which thread goes on next.
A deadlock is a set of threads that all wait for locks that threads of the set hold; a thread that waits
for a lock of its own is one. **Threads that take locks in the order of a rank never come to a deadlock.**
-/

set_option autoImplicit false

namespace Hlquery.Locks

inductive Action (L : Type) where
  | acquire (lock : L)
  | release (lock : L)

structure Threads (L : Type) where
  rest : Nat → List (Action L)
  holder : L → Option Nat := fun _ => none

variable {L : Type} [DecidableEq L]

/-- The thread `i` goes on, unless it has to wait. -/
def Threads.step (s : Threads L) (i : Nat) : Threads L :=
  match s.rest i with
  | [] => s
  | .acquire l :: rest =>
    if s.holder l = none then
      ⟨Function.update s.rest i rest, Function.update s.holder l (some i)⟩
    else s
  | .release l :: rest => ⟨Function.update s.rest i rest, Function.update s.holder l none⟩

def Threads.Deadlocked (s : Threads L) : Prop :=
  ∃ D : Finset Nat, D.Nonempty ∧ ∀ i ∈ D, ∃ l rest, s.rest i = .acquire l :: rest ∧
    ∃ j ∈ D, s.holder l = some j

def Ranked (rank : L → Nat) : List L → List (Action L) → Prop
  | _, [] => True
  | held, .acquire l :: rest => (∀ h ∈ held, rank h < rank l) ∧ Ranked rank (l :: held) rest
  | held, .release l :: rest => Ranked rank (held.filter (· ≠ l)) rest

def Threads.InOrder (rank : L → Nat) (s : Threads L) : Prop :=
  ∀ i, ∃ held, Ranked rank held (s.rest i) ∧ ∀ l, s.holder l = some i → l ∈ held

variable {rank : L → Nat} {s : Threads L}

theorem Threads.InOrder.step (h : s.InOrder rank) (i : Nat) : (s.step i).InOrder rank := by
  unfold Threads.step
  obtain ⟨held, hranked, hheld⟩ := h i
  split
  · exact h
  · rename_i l rest hrest
    rw [hrest] at hranked
    split
    · intro j
      by_cases hj : j = i
      · subst hj
        refine ⟨l :: held, by simpa using hranked.2, fun l' hl' => ?_⟩
        by_cases hl : l' = l
        · exact hl ▸ List.mem_cons_self
        · exact List.mem_cons_of_mem _ (hheld l' (by simpa [hl] using hl'))
      · obtain ⟨held', hranked', hheld'⟩ := h j
        refine ⟨held', by simpa [hj] using hranked', fun l' hl' => hheld' l' ?_⟩
        by_cases hl : l' = l
        · subst hl
          exact absurd hl' (by simpa using Ne.symm hj)
        · simpa [hl] using hl'
    · exact h
  · rename_i l rest hrest
    rw [hrest] at hranked
    have hother : ∀ {l' j}, Function.update s.holder l none l' = some j →
        l' ≠ l ∧ s.holder l' = some j := by
      intro l' j hl'
      by_cases hl : l' = l
      · subst hl
        simp at hl'
      · exact ⟨hl, by simpa [hl] using hl'⟩
    intro j
    by_cases hj : j = i
    · subst hj
      refine ⟨held.filter (· ≠ l), ?_, fun l' hl' => ?_⟩
      · simpa only [Function.update_self, Ranked] using hranked
      · obtain ⟨hl, hold⟩ := hother hl'
        exact List.mem_filter.mpr ⟨hheld l' hold, by simpa using hl⟩
    · obtain ⟨held', hranked', hheld'⟩ := h j
      exact ⟨held', by simpa [hj] using hranked', fun l' hl' => hheld' l' (hother hl').2⟩

theorem Threads.InOrder.not_deadlocked (h : s.InOrder rank) : ¬ s.Deadlocked := by
  rintro ⟨D, hne, hwait⟩
  obtain ⟨i, hi⟩ := hne
  have : Nonempty L := ⟨(hwait i hi).choose⟩
  choose! lock rest hrest hheld using hwait
  -- the holder of the highest lock that is waited for waits for a higher one
  obtain ⟨i, hi, hmax⟩ := D.exists_max_image (fun i => rank (lock i)) ⟨i, hi⟩
  obtain ⟨j, hj, hholder⟩ := hheld i hi
  obtain ⟨held, hranked, hmem⟩ := h j
  rw [hrest j hj] at hranked
  exact absurd (hmax j hj) (not_le.mpr (hranked.1 _ (hmem _ hholder)))

/-- **No schedule of ranked programs comes to a deadlock.** -/
theorem not_deadlocked_run {programs : Nat → List (Action L)}
    (h : ∀ i, Ranked rank [] (programs i)) (schedule : List Nat) :
    ¬ (schedule.foldl Threads.step { rest := programs }).Deadlocked := by
  have hstart : Threads.InOrder rank { rest := programs } :=
    fun i => ⟨[], h i, fun l hl => nomatch hl⟩
  exact (List.foldlRecOn schedule Threads.step hstart fun s hs i _ => hs.step i).not_deadlocked

/-- A program that takes a lock twice gets stuck, alone. -/
theorem deadlocked_of_reacquire {programs : Nat → List (Action L)} {i : Nat} {l : L}
    (h : ∃ rest, programs i = .acquire l :: .acquire l :: rest) :
    ([i].foldl Threads.step { rest := programs }).Deadlocked := by
  obtain ⟨rest, h⟩ := h
  refine ⟨{i}, Finset.singleton_nonempty i, fun j hj => ?_⟩
  obtain rfl := Finset.mem_singleton.mp hj
  refine ⟨l, rest, ?_, j, hj, ?_⟩
  all_goals simp [Threads.step, h]

end Hlquery.Locks
