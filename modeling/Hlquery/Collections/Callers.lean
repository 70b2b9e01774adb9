import Hlquery.Collections.Catalogue

/-!
# Callers of the catalogue that overlap

`CreateCollection` looks for the metadata record and takes the lock afterwards. Other calls go on in
between. A schedule says which call takes the next step, and whether the database takes what the step
writes. Call `i` of a schedule has its own arguments.
-/

set_option autoImplicit false

namespace Hlquery.Collections

open Runs Catalogue

/-! ## Creations of one collection -/

/-- How far a call is; one that waits has not begun. -/
inductive Creating where
  | waiting
  | checked
  | returned (success : Bool)
  deriving DecidableEq

structure Creations where
  catalogue : Catalogue
  progress : Nat → Creating := fun _ => .waiting

section

variable (name : Bytes) (config : Nat → CollectionConfig)

def Creations.step (s : Creations) : Nat × Bool → Creations
  | (i, ok) =>
    match s.progress i with
    | .waiting =>
      let next := if (s.catalogue.metas name).isSome then .returned false else .checked
      { s with progress := Function.update s.progress i next }
    | .checked =>
      let r := s.catalogue.createLocked name ok (config i)
      ⟨r.2, Function.update s.progress i (.returned r.1)⟩
    | .returned _ => s

/-- A call looks for the record while no other call is between its look and its writes, and the writes
succeed. -/
def Creations.Meets (s : Creations) : Nat × Bool → Prop
  | (i, ok) =>
    match s.progress i with
    | .waiting => ∀ j, s.progress j ≠ .checked
    | .checked => ok = true
    | .returned _ => True

/-- There is no record yet, nobody has returned, and one call at most is past its look; or there is the
record of the one call that has returned success, and nobody is past its look. -/
def Creations.Inv (s : Creations) : Prop :=
  (s.catalogue.metas name = none ∧ (∀ i b, s.progress i ≠ .returned b) ∧
      ∀ i j, s.progress i = .checked → s.progress j = .checked → i = j) ∨
    ((s.catalogue.metas name).isSome ∧ (∀ i, s.progress i ≠ .checked) ∧
      ∃ i, (∀ j, s.progress j = .returned true ↔ j = i) ∧
        s.catalogue.configs name = some (config i))

variable {name config}

theorem Creations.Inv.step {s : Creations} (h : s.Inv name config) {e : Nat × Bool}
    (he : s.Meets e) : (s.step name config e).Inv name config := by
  obtain ⟨i, ok⟩ := e
  cases hi : s.progress i with
  | waiting =>
    simp only [Creations.step, hi]
    have hnone : ∀ j, s.progress j ≠ .checked := by simpa [Creations.Meets, hi] using he
    rcases h with ⟨hmeta, hback, -⟩ | ⟨hmeta, hchecked, k, hk, hconfig⟩
    · refine .inl ⟨hmeta, ?_, ?_⟩ <;> grind [Function.update_apply]
    · refine .inr ⟨hmeta, ?_, k, ?_, hconfig⟩ <;> grind [Function.update_apply]
  | checked =>
    obtain rfl : ok = true := by simpa [Creations.Meets, hi] using he
    simp only [Creations.step, hi]
    rcases h with ⟨hmeta, hback, hone⟩ | ⟨-, hchecked, -⟩
    · refine .inr ⟨?_, ?_, i, ?_, ?_⟩ <;> simp [createLocked] <;> grind [Function.update_apply]
    · exact absurd hi (hchecked i)
  | returned b => simpa only [Creations.step, hi] using h

/-- **One creation succeeds, and its configuration is stored**, in every run in which no call looks for
the record while another one is about to write it and the database takes the records. All calls that
began have returned. -/
theorem created_once (catalogue : Catalogue) (hrecord : catalogue.metas name = none)
    (events : List (Nat × Bool))
    (h : Along (Creations.step name config) Creations.Meets { catalogue } events) :
    let s := events.foldl (Creations.step name config) { catalogue }
    (∀ i, s.progress i ≠ .checked) → (∃ i, s.progress i ≠ .waiting) →
      ∃ i, (∀ j, s.progress j = .returned true ↔ j = i) ∧
        s.catalogue.configs name = some (config i) := by
  intro s hover hbegan
  have hinv : s.Inv name config := by
    refine h.invariant (I := Creations.Inv name config) (fun hs he => hs.step he) ?_
    exact .inl ⟨hrecord, nofun, nofun⟩
  rcases hinv with ⟨-, hback, -⟩ | ⟨-, -, i, hi⟩
  · obtain ⟨i, hi⟩ := hbegan
    cases hp : s.progress i with
    | waiting => exact absurd hp hi
    | checked => exact absurd hp (hover i)
    | returned b => exact absurd hp (hback i b)
  · exact ⟨i, hi⟩

end

/-- The first call looks and writes, and then the second one looks. -/
def creationsInTurn : List (Nat × Bool) := [(0, true), (0, true), (1, true)]

/-- Both calls look, and then both write. -/
def creationsAcross : List (Nat × Bool) := [(0, true), (1, true), (0, true), (1, true)]

def sampleConfig (i : Nat) : CollectionConfig :=
  { name := lit "c", fields := fun _ => some [i.toUInt8] }

theorem created_once_in_turn :
    let s' := creationsInTurn.foldl (Creations.step (lit "c") sampleConfig) { catalogue := {} }
    ∃ i, (∀ j, s'.progress j = .returned true ↔ j = i) ∧
      s'.catalogue.configs (lit "c") = some (sampleConfig i) := by
  refine created_once {} rfl creationsInTurn ⟨nofun, rfl, ?_, trivial⟩ ?_ ⟨0, nofun⟩
  · rintro (_ | _ | j) <;> nofun
  · rintro (_ | _ | j) <;> nofun

/-- **Two creations that overlap both succeed.** -/
theorem created_twice :
    let s' := creationsAcross.foldl (Creations.step (lit "c") sampleConfig) { catalogue := {} }
    s'.progress 0 = .returned true ∧ s'.progress 1 = .returned true := by
  decide +kernel

end Hlquery.Collections
