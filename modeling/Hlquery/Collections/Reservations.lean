import Hlquery.Lib.Bytes
import Hlquery.Lib.Runs

/-!
# Reservations of collections

`IndexCollectionInBackground` enters the collection in `CollectionsBeingIndexed` and its guard takes it
out again. `RebuildCollectionIndex` looks whether the collection stands there and enters nothing;
`DeleteCollection` takes the name out, whoever entered it. Each of these accesses is one step, under
`IndexingMutex`. Whether a collection exists is left open.
-/

set_option autoImplicit false

namespace Hlquery.Collections

open Runs

inductive Work where
  | idle
  | indexing (collection : Bytes)
  | rebuilding (collection : Bytes)
  deriving DecidableEq

/-- `CollectionsBeingIndexed`, where each name is noted with the thread whose guard entered it. -/
structure Reservations where
  beingIndexed : Bytes → Option Nat := fun _ => none
  work : Nat → Work := fun _ => .idle

inductive Event where
  | index (thread : Nat) (collection : Bytes)
  | rebuild (thread : Nat) (collection : Bytes)
  | finish (thread : Nat)
  | delete (collection : Bytes)

namespace Reservations

variable (s : Reservations)

/-- `try_acquire` of the guard. -/
def tryAcquire (thread : Nat) (collection : Bytes) : Reservations :=
  if (s.beingIndexed collection).isSome then s
  else
    { beingIndexed := Function.update s.beingIndexed collection (some thread)
      work := Function.update s.work thread (.indexing collection) }

/-- `RebuildCollectionIndex` up to its check. -/
def beginRebuild (thread : Nat) (collection : Bytes) : Reservations :=
  if (s.beingIndexed collection).isSome then s
  else { s with work := Function.update s.work thread (.rebuilding collection) }

/-- A thread that is done: the guard erases the name, a rebuild has nothing to erase. -/
def finish (thread : Nat) : Reservations :=
  { beingIndexed := fun c => if s.work thread = .indexing c then none else s.beingIndexed c
    work := Function.update s.work thread .idle }

def step : Event → Reservations
  | .index thread collection => if s.work thread = .idle then s.tryAcquire thread collection else s
  | .rebuild thread collection =>
    if s.work thread = .idle then s.beginRebuild thread collection else s
  | .finish thread => s.finish thread
  | .delete collection => { s with beingIndexed := Function.update s.beingIndexed collection none }

def Works (thread : Nat) (collection : Bytes) : Prop :=
  s.work thread = .indexing collection ∨ s.work thread = .rebuilding collection

/-- No collection is worked on twice, and what a guard is going to erase is its own entry. -/
structure Exclusive (s : Reservations) : Prop where
  alone : ∀ {c t t'}, s.Works t c → s.Works t' c → t = t'
  own : ∀ {c t t'}, s.work t = .indexing c → s.beingIndexed c = some t' → t' = t

/-- Nothing begins while the collection is rebuilt, and no collection is deleted that is being
indexed. -/
def Meets : Event → Prop
  | .index _ c | .rebuild _ c => ∀ t, s.work t ≠ .rebuilding c
  | .finish _ => True
  | .delete c => ∀ t, s.work t ≠ .indexing c

/-- A collection stands in the set with the thread that indexes it. -/
structure Inv (s : Reservations) : Prop where
  noted : ∀ {c t}, s.beingIndexed c = some t ↔ s.work t = .indexing c
  alone : ∀ {c t t'}, s.Works t c → s.Works t' c → t = t'

theorem Inv.exclusive {s : Reservations} (h : s.Inv) : s.Exclusive where
  alone := h.alone
  own := by
    intro c t t' hwork hnoted
    exact h.alone (.inl (h.noted.mp hnoted)) (.inl hwork)

/-- Nobody works on a collection that does not stand in the set and is not rebuilt. -/
theorem Inv.not_works {s : Reservations} (h : s.Inv) {c : Bytes}
    (hfree : ¬ (s.beingIndexed c).isSome) (hrebuild : ∀ t, s.work t ≠ .rebuilding c) (t : Nat) :
    ¬ s.Works t c := by
  rintro (hwork | hwork)
  · exact hfree (by simp [h.noted.mpr hwork])
  · exact hrebuild t hwork

/-- One thread takes up work on a collection that nobody else works on. -/
theorem Inv.begin {s : Reservations} (h : s.Inv) {thread : Nat} {c : Bytes} {w : Work}
    (hw : w = .indexing c ∨ w = .rebuilding c) (hnone : ∀ t, ¬ s.Works t c) {c' : Bytes}
    {t t' : Nat} (ht : ({ s with work := Function.update s.work thread w } : Reservations).Works t c')
    (ht' : ({ s with work := Function.update s.work thread w } : Reservations).Works t' c') :
    t = t' := by
  have hnew : ∀ t, ({ s with work := Function.update s.work thread w } : Reservations).Works t c' →
      (t = thread ∧ c' = c) ∨ (t ≠ thread ∧ s.Works t c') := by
    intro t ht
    by_cases hthread : t = thread
    · rcases hw with rfl | rfl <;> simp_all [Works]
    · exact .inr ⟨hthread, by simpa [Works, hthread] using ht⟩
  rcases hnew t ht with ⟨rfl, rfl⟩ | ⟨hne, hold⟩ <;> rcases hnew t' ht' with ⟨rfl, hc⟩ | ⟨hne', hold'⟩
  · rfl
  · exact absurd hold' (hnone t')
  · exact absurd (hc ▸ hold) (hnone t)
  · exact h.alone hold hold'

theorem Inv.step {s : Reservations} (h : s.Inv) {e : Event} (he : s.Meets e) : (s.step e).Inv := by
  cases e with
  | index thread c =>
    simp only [Reservations.step, tryAcquire]
    split
    · split
      · exact h
      · rename_i hfree
        refine ⟨?_, h.begin (.inl rfl) (h.not_works hfree he)⟩
        intro c' t
        have hold := @Inv.noted s h c' t
        grind [Function.update_apply]
    · exact h
  | rebuild thread c =>
    simp only [Reservations.step, beginRebuild]
    split
    · split
      · exact h
      · rename_i hfree
        refine ⟨?_, h.begin (.inr rfl) (h.not_works hfree he)⟩
        intro c' t
        by_cases ht : t = thread <;> simp_all [h.noted]
    · exact h
  | finish thread =>
    have hother : ∀ {t c}, (s.finish thread).Works t c → t ≠ thread ∧ s.Works t c := by
      intro t c ht
      by_cases hthread : t = thread <;> simp_all [finish, Works]
    refine ⟨?_, fun ht ht' => h.alone (hother ht).2 (hother ht').2⟩
    intro c t
    have hold := @Inv.noted s h c t
    have hmine := @Inv.noted s h c thread
    simp only [Reservations.step, finish]
    by_cases ht : t = thread
    · grind [Function.update_self]
    · grind
  | delete c =>
    have hnone : s.beingIndexed c = none := by
      by_contra hne
      obtain ⟨t, ht⟩ := Option.ne_none_iff_exists'.mp hne
      exact he t (h.noted.mp ht)
    have hsame : s.step (.delete c) = s := by
      simp [Reservations.step, ← hnone]
    rw [hsame]
    exact h

/-- **In a run whose events meet the condition each collection is worked on by one thread at a time,
and a guard erases no entry but its own.** -/
theorem exclusive_run (events : List Event) (hmeet : Along step Meets {} events) :
    Exclusive (events.foldl step {}) := by
  refine (hmeet.invariant (I := Inv) (fun hs he => hs.step he) ⟨?_, ?_⟩).exclusive
  · simp
  · simp [Works]

/-- One thread indexes `c`, is done, and the collection is deleted and indexed by another. -/
theorem exclusive_run_recreated :
    Exclusive ([.index 0 (lit "c"), .finish 0, .delete (lit "c"), .index 1 (lit "c")].foldl step {}) :=
    by
  refine exclusive_run _ ⟨?_, trivial, ?_, ?_, trivial⟩
  all_goals intro t; simp [step, tryAcquire, finish]

/-- A collection that is deleted and made again under the thread that indexes it: two threads index
it, and the first to be done erases the entry of the other. -/
theorem deleted_while_indexed :
    let s := [Event.index 0 (lit "c"), .delete (lit "c"), .index 1 (lit "c")].foldl step {}
    s.work 0 = .indexing (lit "c") ∧ s.work 1 = .indexing (lit "c") ∧
      s.beingIndexed (lit "c") = some 1 ∧ (s.step (.finish 0)).beingIndexed (lit "c") = none := by
  decide

end Reservations

end Hlquery.Collections
