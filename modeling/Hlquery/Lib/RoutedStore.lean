import Mathlib.Data.List.Basic
import Mathlib.Logic.Function.Basic
import Mathlib.Logic.Relation

/-!
# Append-only segments behind a location index

Several stores of the log-structured kind share one design. Values are written to an *active*
segment and never rewritten in place; a segment that is full is sealed and a new one takes its
place; an index records, for each key, the segment that holds its current value; a deletion
leaves a *tombstone* instead of visiting the sealed segments. Old values therefore stay behind
in old segments, and whether a reader can ever see one of them is decided by the index and the
tombstones alone.

`RoutedStore` is that design without an implementation: the index, the tombstones, the contents
of the segments and the list of the live ones, newest first. `Represents r A` is the invariant
that makes it a plain map `A`, and each operation has the one lemma that says what it does to
`A`. The reader is the defensive one (follow the index, fall back to a newest-first scan), and
`read_eq` says that under the invariant the fallback never changes the answer.
-/

set_option autoImplicit false

namespace Hlquery

/-- Segments of values behind a location index. -/
structure RoutedStore (K S V : Type) where
  /-- The segment that holds the current value of a key. -/
  location : K → Option S
  tombstone : K → Bool
  segment : S → K → Option V
  /-- The segments that a reader looks into, newest first. -/
  live : List S

namespace RoutedStore

variable {K S V : Type}

def scan (r : RoutedStore K S V) (k : K) : Option V := r.live.findSome? fun s => r.segment s k

def located [DecidableEq S] (r : RoutedStore K S V) (k : K) : Option V :=
  (r.location k).bind fun s => if s ∈ r.live then r.segment s k else none

def read [DecidableEq S] (r : RoutedStore K S V) (k : K) : Option V :=
  if r.tombstone k then none else (r.located k).or (r.scan k)

/-- The store is the plain map `A`. -/
structure Represents (r : RoutedStore K S V) (A : K → Option V) : Prop where
  routed : ∀ {k s}, r.location k = some s →
    s ∈ r.live ∧ r.tombstone k = false ∧ r.segment s k = A k ∧ (A k).isSome = true
  absent : ∀ {k}, r.location k = none → A k = none
  /-- A value that no index entry points to is hidden by a tombstone. -/
  stray : ∀ {k}, r.location k = none → r.tombstone k = false → ∀ s, r.segment s k = none
  unused : ∀ {s}, s ∉ r.live → ∀ k, r.segment s k = none

variable {r : RoutedStore K S V} {A : K → Option V}

theorem scan_eq_none {k : K} (h : ∀ s, r.segment s k = none) : r.scan k = none :=
  List.findSome?_eq_none_iff.mpr fun s _ => h s

/-- **A reader sees the map.** -/
theorem read_eq [DecidableEq S] (h : r.Represents A) (k : K) : r.read k = A k := by
  unfold read located
  cases hl : r.location k with
  | some s =>
    obtain ⟨hlive, htomb, hseg, hsome⟩ := h.routed hl
    obtain ⟨v, hv⟩ := Option.isSome_iff_exists.mp hsome
    simp [htomb, hlive, hseg, hv]
  | none =>
    cases ht : r.tombstone k with
    | true => simp [h.absent hl]
    | false => simp [scan_eq_none (h.stray hl ht), h.absent hl]

theorem Represents.location_isSome (h : r.Represents A) (k : K) :
    (r.location k).isSome = (A k).isSome := by
  cases hl : r.location k with
  | some s => rw [(h.routed hl).2.2.2]; rfl
  | none => rw [h.absent hl]; rfl

/-! ## The operations -/

/-- Hide the keys that satisfy `p` behind tombstones. -/
def bury (r : RoutedStore K S V) (p : K → Bool) : RoutedStore K S V where
  location := fun k => if p k then none else r.location k
  tombstone := fun k => p k || r.tombstone k
  segment := r.segment
  live := r.live

theorem Represents.bury (h : r.Represents A) (p : K → Bool) :
    (r.bury p).Represents fun k => if p k then none else A k where
  routed := by
    intro k s hl
    cases hp : p k with
    | true => simp [RoutedStore.bury, hp] at hl
    | false => simpa [RoutedStore.bury, hp] using h.routed (by simpa [RoutedStore.bury, hp] using hl)
  absent := by
    intro k hl
    cases hp : p k with
    | true => simp
    | false => simpa using h.absent (by simpa [RoutedStore.bury, hp] using hl)
  stray := by
    intro k hl ht
    simp only [RoutedStore.bury, Bool.or_eq_false_iff] at hl ht
    rw [ht.1] at hl
    exact h.stray (by simpa using hl) ht.2
  unused := h.unused

def grow (r : RoutedStore K S V) (live : List S) : RoutedStore K S V := { r with live := live }

theorem Represents.grow (h : r.Represents A) {live : List S} (hlive : ∀ s ∈ r.live, s ∈ live) :
    (r.grow live).Represents A where
  routed := fun hl => ⟨hlive _ (h.routed hl).1, (h.routed hl).2⟩
  absent := h.absent
  stray := h.stray
  unused := fun hs k => h.unused (fun hs' => hs (hlive _ hs')) k

theorem represents_empty (hl : ∀ k, r.location k = none) (hs : ∀ s k, r.segment s k = none) :
    r.Represents fun _ => none where
  routed := fun {k} _ h => absurd (hl k) (by rw [h]; simp)
  absent := fun _ => rfl
  stray := fun _ _ s => hs s _
  unused := fun _ k => hs _ k

section Operations

variable [DecidableEq K] [DecidableEq S]

/-- Write a value to segment `s`, point the index at it and lift the tombstone. -/
def put (r : RoutedStore K S V) (s : S) (k : K) (v : V) : RoutedStore K S V where
  location := Function.update r.location k (some s)
  tombstone := Function.update r.tombstone k false
  segment := Function.update r.segment s (Function.update (r.segment s) k (some v))
  live := r.live

def dropFrom (r : RoutedStore K S V) (s : S) (k : K) : RoutedStore K S V :=
  { r with segment := Function.update r.segment s (Function.update (r.segment s) k none) }

variable {k : K} {r : RoutedStore K S V} {k' : K}

theorem segment_put_of_ne (r : RoutedStore K S V) (s : S) (v : V) (h : k' ≠ k) (s' : S) :
    (r.put s k v).segment s' k' = r.segment s' k' := by
  by_cases hs : s' = s <;> simp [RoutedStore.put, hs, h]

theorem segment_dropFrom_of_ne (r : RoutedStore K S V) (s : S) (h : k' ≠ k) (s' : S) :
    (r.dropFrom s k).segment s' k' = r.segment s' k' := by
  by_cases hs : s' = s <;> simp [RoutedStore.dropFrom, hs, h]

theorem segment_dropFrom_none {s s' : S} (h : r.segment s' k' = none) :
    (r.dropFrom s k).segment s' k' = none := by
  by_cases hk : k' = k
  · subst hk
    by_cases hs : s' = s <;> simp [RoutedStore.dropFrom, hs, h]
  · rw [segment_dropFrom_of_ne r s hk, h]

/-- A value that no index entry points to may go or stay. -/
theorem Represents.dropFrom {A : K → Option V} (h : r.Represents A) (s : S)
    (hk : r.location k = none) : (r.dropFrom s k).Represents A := by
  constructor
  · intro k' s' hl
    have hne : k' ≠ k := by rintro rfl; rw [show r.location k' = some s' from hl] at hk; cases hk
    rw [segment_dropFrom_of_ne r s hne]
    exact h.routed hl
  · exact h.absent
  · intro k' hl ht s'; exact segment_dropFrom_none (h.stray hl ht s')
  · intro s' hs' k'; exact segment_dropFrom_none (h.unused hs' k')

end Operations

/-! ## The newest holder

Which segment holds the current value of a key can be told without the index: it is the newest one
that holds the key at all. That is so because values are written to the newest segment only, and it
is what makes the index redundant, so that it can be rebuilt. -/

def holder (r : RoutedStore K S V) (k : K) : Option S :=
  r.live.find? fun s => (r.segment s k).isSome

/-- The index names the newest holder. An index entry of an excepted key may also be left over
where no segment holds the key. -/
structure Newest (r : RoutedStore K S V) (excepted : K → Prop) : Prop where
  routed : ∀ {k s}, r.location k = some s → r.tombstone k = false ∧
    (r.holder k = some s ∨ excepted k ∧ ∀ s, r.segment s k = none)
  stray : ∀ {k}, r.location k = none → r.tombstone k = false → ∀ s, r.segment s k = none
  unused : ∀ {s}, s ∉ r.live → ∀ k, r.segment s k = none

theorem holder_eq_none {r : RoutedStore K S V} {k : K} (h : ∀ s, r.segment s k = none) :
    r.holder k = none :=
  List.find?_eq_none.mpr fun s _ => by simp [h s]

theorem holder_congr {r r' : RoutedStore K S V} {k : K} (hlive : r'.live = r.live)
    (h : ∀ s, r'.segment s k = r.segment s k) : r'.holder k = r.holder k := by
  unfold holder
  rw [hlive]
  simp [h]

/-- A key that is not hidden and not found through the index is nowhere. -/
theorem Newest.scan_eq_none [DecidableEq S] {excepted : K → Prop} {r : RoutedStore K S V}
    (h : r.Newest excepted) {k : K} (ht : r.tombstone k = false) (hl : r.located k = none) :
    r.scan k = none := by
  cases hk : r.location k with
  | none => exact RoutedStore.scan_eq_none (h.stray hk ht)
  | some s =>
    rcases (h.routed hk).2 with hh | ⟨-, hnone⟩
    · -- the index names a segment that is live and holds the key
      have hlive : s ∈ r.live := List.mem_of_find?_eq_some hh
      have hsome : (r.segment s k).isSome = true := List.find?_some (p := fun s =>
        (r.segment s k).isSome) hh
      rw [located, hk, Option.bind_some, if_pos hlive] at hl
      rw [hl] at hsome
      cases hsome
    · exact RoutedStore.scan_eq_none hnone

section Moves

variable [DecidableEq K] [DecidableEq S]

/-- What an operation can do to the store: write to the newest segment, hide keys, drop a hidden key
from a segment, put a new segment in front, or remove all values, in which case the index entries of
the excepted keys may stay. -/
inductive Move (excepted : K → Prop) : RoutedStore K S V → RoutedStore K S V → Prop where
  | put {r : RoutedStore K S V} {s : S} (k : K) (v : V) :
      r.live.head? = some s → Move excepted r (r.put s k v)
  | bury (r : RoutedStore K S V) (p : K → Bool) : Move excepted r (r.bury p)
  | dropFrom {r : RoutedStore K S V} (s : S) {k : K} :
      r.location k = none → r.tombstone k = true → Move excepted r (r.dropFrom s k)
  | extend {r : RoutedStore K S V} {s : S} : s ∉ r.live → Move excepted r (r.grow (s :: r.live))
  | clear {r r' : RoutedStore K S V} : r'.live = r.live →
      (∀ k, r'.location k = none ∨ excepted k ∧ r'.location k = r.location k) →
      (∀ k, r.tombstone k = false → r'.tombstone k = false) →
      (∀ s k, s ∈ r.live ∨ r.segment s k = none → r'.segment s k = none) → Move excepted r r'

variable {excepted : K → Prop} {r r' : RoutedStore K S V}

/-- **Every operation keeps the index at the newest holder.** -/
theorem Newest.move (h : r.Newest excepted) (hm : Move excepted r r') : r'.Newest excepted := by
  cases hm with
  | put k v hs =>
    rename_i s
    obtain ⟨live, hlive⟩ := List.head?_eq_some_iff.mp hs
    have hloc : ∀ {k'}, k' ≠ k → (r.put s k v).location k' = r.location k' :=
      fun hk => Function.update_of_ne hk ..
    have htomb : ∀ {k'}, k' ≠ k → (r.put s k v).tombstone k' = r.tombstone k' :=
      fun hk => Function.update_of_ne hk ..
    refine ⟨fun {k' s'} hl => ?_, fun {k'} hl ht s' => ?_, fun {s'} hs' k' => ?_⟩
    · by_cases hk : k' = k
      · subst hk
        obtain rfl : s = s' := by simpa [RoutedStore.put] using hl
        refine ⟨by simp [RoutedStore.put], .inl ?_⟩
        simp [holder, RoutedStore.put, hlive]
      · obtain ⟨ht, hcases⟩ := h.routed ((hloc hk).symm.trans hl)
        refine ⟨(htomb hk).trans ht, ?_⟩
        rw [holder_congr (show (r.put s k v).live = r.live from rfl) (segment_put_of_ne r s v hk)]
        exact hcases.imp_right fun he => ⟨he.1, fun t => by rw [segment_put_of_ne r s v hk, he.2]⟩
    · have hk : k' ≠ k := by
        rintro rfl
        simp [RoutedStore.put] at hl
      rw [segment_put_of_ne r s v hk]
      exact h.stray ((hloc hk).symm.trans hl) ((htomb hk).symm.trans ht) s'
    · have hne : s' ≠ s := fun e => hs' (by rw [e]; simp [RoutedStore.put, hlive])
      simpa [RoutedStore.put, Function.update_of_ne hne] using h.unused hs' k'
  | bury p =>
    refine ⟨fun {k s} hl => ?_, fun {k} hl ht s => ?_, h.unused⟩
    · cases hp : p k with
      | true => simp [RoutedStore.bury, hp] at hl
      | false =>
        obtain ⟨ht, hcases⟩ := h.routed (by simpa [RoutedStore.bury, hp] using hl)
        exact ⟨by simpa [RoutedStore.bury, hp] using ht, hcases⟩
    · simp only [RoutedStore.bury, Bool.or_eq_false_iff] at hl ht
      rw [ht.1] at hl
      exact h.stray (by simpa using hl) ht.2 s
  | dropFrom s hl₀ ht₀ =>
    rename_i k
    refine ⟨fun {k' s'} hl => ?_, fun {k'} hl ht s' => ?_, fun {s'} hs' k' => ?_⟩
    · have hk : k' ≠ k := by
        rintro rfl
        exact absurd (hl₀.symm.trans hl) (by simp)
      obtain ⟨ht, hcases⟩ := h.routed hl
      refine ⟨ht, ?_⟩
      rw [holder_congr (show (r.dropFrom s k).live = r.live from rfl)
        (segment_dropFrom_of_ne r s hk)]
      exact hcases.imp_right fun he => ⟨he.1, fun t => segment_dropFrom_none (he.2 t)⟩
    · exact segment_dropFrom_none (h.stray hl ht s')
    · exact segment_dropFrom_none (h.unused hs' k')
  | extend hs =>
    have hnone := h.unused hs
    refine ⟨fun {k s'} hl => ?_, h.stray, fun {s'} hs' k => ?_⟩
    · obtain ⟨ht, hcases⟩ := h.routed hl
      refine ⟨ht, hcases.imp_left fun hh => ?_⟩
      unfold holder RoutedStore.grow
      rw [List.find?_cons_of_neg (by simp [hnone k])]
      exact hh
    · exact h.unused (fun hmem => hs' (List.mem_cons_of_mem _ hmem)) k
  | clear hlive hloc htomb hseg =>
    have hnone : ∀ s k, r'.segment s k = none := by
      intro s k
      by_cases hs : s ∈ r.live
      · exact hseg s k (.inl hs)
      · exact hseg s k (.inr (h.unused hs k))
    refine ⟨fun {k s} hl => ?_, fun _ _ s => hnone s _, fun _ k => hnone _ k⟩
    rcases hloc k with hn | ⟨he, hsame⟩
    · exact absurd (hn.symm.trans hl) (by simp)
    · rw [hsame] at hl
      exact ⟨htomb k (h.routed hl).1, .inr ⟨he, fun s => hnone s k⟩⟩

theorem Move.nodup (hm : Move excepted r r') (h : r.live.Nodup) : r'.live.Nodup := by
  cases hm with
  | put k v _ => exact h
  | bury p => exact h
  | dropFrom s _ _ => exact h
  | extend hs => exact List.nodup_cons.mpr ⟨hs, h⟩
  | clear hlive _ _ _ => rw [hlive]; exact h

theorem Newest.moves (h : r.Newest excepted) (hm : Relation.ReflTransGen (Move excepted) r r') :
    r'.Newest excepted := by
  induction hm with
  | refl => exact h
  | tail _ hmove ih => exact ih.move hmove

theorem nodup_moves (hm : Relation.ReflTransGen (Move excepted) r r') (h : r.live.Nodup) :
    r'.live.Nodup := by
  induction hm with
  | refl => exact h
  | tail _ hmove ih => exact hmove.nodup ih

end Moves

/-! ## Rebuilding the index

One pass over the segments, newest first, that gives an index entry to each key it meets and that
is neither hidden nor indexed yet. -/

section Rebuilding

variable [DecidableEq K]

/-- Point the index at segment `s`, for a key that is neither hidden nor indexed. -/
def route (r : RoutedStore K S V) (s : S) (k : K) : RoutedStore K S V :=
  if r.tombstone k || (r.location k).isSome then r
  else { r with location := Function.update r.location k (some s) }

def routeAll (r : RoutedStore K S V) (s : S) (keys : List K) : RoutedStore K S V :=
  keys.foldl (fun r k => r.route s k) r

/-- The pass, over `segments` with the keys that each of them holds. -/
def routeSegments (r : RoutedStore K S V) (keys : S → List K) (segments : List S) :
    RoutedStore K S V :=
  segments.foldl (fun r s => r.routeAll s (keys s)) r

structure SameValues (r r' : RoutedStore K S V) : Prop where
  tombstone : r'.tombstone = r.tombstone
  segment : r'.segment = r.segment
  live : r'.live = r.live

theorem SameValues.refl (r : RoutedStore K S V) : SameValues r r := ⟨rfl, rfl, rfl⟩

theorem SameValues.trans {r₁ r₂ r₃ : RoutedStore K S V} (h : SameValues r₁ r₂)
    (h' : SameValues r₂ r₃) : SameValues r₁ r₃ :=
  ⟨h'.tombstone.trans h.tombstone, h'.segment.trans h.segment, h'.live.trans h.live⟩

theorem SameValues.route (r : RoutedStore K S V) (s : S) (k : K) : SameValues r (r.route s k) := by
  unfold RoutedStore.route
  split <;> exact ⟨rfl, rfl, rfl⟩

theorem SameValues.routeAll (s : S) :
    ∀ (keys : List K) (r : RoutedStore K S V), SameValues r (r.routeAll s keys)
  | [], r => .refl r
  | k :: keys, r => (SameValues.route r s k).trans (SameValues.routeAll s keys (r.route s k))

theorem SameValues.routeSegments (keys : S → List K) :
    ∀ (segments : List S) (r : RoutedStore K S V), SameValues r (r.routeSegments keys segments)
  | [], r => .refl r
  | s :: segments, r => (SameValues.routeAll s (keys s) r).trans
      (SameValues.routeSegments keys segments (r.routeAll s (keys s)))

theorem location_route (r : RoutedStore K S V) (s : S) (k k' : K) : (r.route s k).location k' =
      (r.location k').or (if r.tombstone k' = false ∧ k' = k then some s else none) := by
  unfold RoutedStore.route
  by_cases hk : k' = k
  · subst hk
    cases hl : r.location k' <;> cases r.tombstone k' <;> simp [hl]
  · split <;> simp [hk]

theorem location_routeAll (s : S) (k' : K) : ∀ (keys : List K) (r : RoutedStore K S V),
    (r.routeAll s keys).location k' =
      (r.location k').or (if r.tombstone k' = false ∧ k' ∈ keys then some s else none)
  | [], r => by simp [RoutedStore.routeAll]
  | k :: keys, r => by
    have ih := location_routeAll s k' keys (r.route s k)
    rw [location_route, (SameValues.route r s k).tombstone] at ih
    show ((r.route s k).routeAll s keys).location k' = _
    rw [ih]
    cases r.location k' with
    | some t => rfl
    | none => cases r.tombstone k' <;> by_cases hk : k' = k <;> simp [hk]

/-- **What the pass does to the index**: it fills the entry of a key that is not hidden with the
first segment that holds it. -/
theorem location_routeSegments (keys : S → List K) (k : K) :
    ∀ (segments : List S) (r : RoutedStore K S V), (r.routeSegments keys segments).location k =
        (r.location k).or (if r.tombstone k = false then
          segments.find? (fun s => decide (k ∈ keys s)) else none)
  | [], r => by simp [RoutedStore.routeSegments]
  | s :: segments, r => by
    have ih := location_routeSegments keys k segments (r.routeAll s (keys s))
    rw [location_routeAll, (SameValues.routeAll s (keys s) r).tombstone] at ih
    show ((r.routeAll s (keys s)).routeSegments keys segments).location k = _
    rw [ih]
    cases r.location k with
    | some t => rfl
    | none => cases r.tombstone k <;> by_cases hk : k ∈ keys s <;> simp [hk]

/-- **The index is rebuilt as it was**: a pass over all live segments restores every entry that
was taken away, if the entries of the excepted keys were left. -/
theorem Newest.routeSegments {excepted : K → Prop} {r r₀ : RoutedStore K S V}
    (h : r.Newest excepted) (hsame : SameValues r r₀)
    (hloc : ∀ k, r₀.location k = r.location k ∨ ¬ excepted k ∧ r₀.location k = none)
    {keys : S → List K} (hkeys : ∀ s k, k ∈ keys s ↔ (r.segment s k).isSome = true) :
    r₀.routeSegments keys r.live = r := by
  have hholder : ∀ k, r.live.find? (fun s => decide (k ∈ keys s)) = r.holder k := by
    intro k
    congr 1
    funext s
    rw [Bool.eq_iff_iff, decide_eq_true_iff, hkeys]
  have hsame' := hsame.trans (SameValues.routeSegments keys r.live r₀)
  have hlocation : (r₀.routeSegments keys r.live).location = r.location := by
    funext k
    rw [location_routeSegments, hsame.tombstone, hholder]
    cases hl : r.location k with
    | none =>
      have h₀ : r₀.location k = none := (hloc k).elim (·.trans hl) (·.2)
      cases ht : r.tombstone k with
      | true => simp [h₀]
      | false => simp [h₀, holder_eq_none (h.stray hl ht)]
    | some s =>
      obtain ⟨ht, hcases⟩ := h.routed hl
      rcases hloc k with h₀ | ⟨hne, h₀⟩
      · simp [h₀, hl]
      rcases hcases with hh | ⟨he, -⟩
      · simp [h₀, ht, hh]
      · exact absurd he hne
  cases hr : r₀.routeSegments keys r.live
  rw [hr] at hsame' hlocation
  cases r
  obtain ⟨h₁, h₂, h₃⟩ := hsame'
  simp only [RoutedStore.mk.injEq]
  exact ⟨hlocation, h₁, h₂, h₃⟩

end Rebuilding

/-! ## Writes on their way

A write goes to the segment first and to the index second. Between the two the key is *pending*: the
segment has the value already, the index and the tombstones are as before. `settle` is the store in
which every pending write has reached the index. -/

section Settling

/-- The index entries of the pending keys written, at segment `s`. -/
def settle (r : RoutedStore K S V) (pending : K → Bool) (s : S) : RoutedStore K S V where
  location := fun k => if pending k then some s else r.location k
  tombstone := fun k => !pending k && r.tombstone k
  segment := r.segment
  live := r.live

theorem settle_of_none {r : RoutedStore K S V} {pending : K → Bool} (s : S)
    (h : ∀ k, pending k = false) : r.settle pending s = r := by
  unfold settle
  simp [h]

/-- The write to the index changes nothing that was not settled before. -/
theorem settle_index {r r' : RoutedStore K S V} {pending pending' : K → Bool} {s : S}
    (written : K → Prop) (hseg : r'.segment = r.segment) (hlive : r'.live = r.live)
    (hpending : ∀ k, pending k = true ↔ pending' k = true ∨ written k)
    (hnew : ∀ k, written k → r'.location k = some s ∧ r'.tombstone k = false)
    (hold : ∀ k, ¬ written k → r'.location k = r.location k ∧ r'.tombstone k = r.tombstone k) :
    r'.settle pending' s = r.settle pending s := by
  unfold settle
  congr 1
  all_goals
    funext k
    cases hp' : pending' k with
    | true => simp [(hpending k).mpr (.inl hp')]
    | false =>
      by_cases hw : written k
      · simp [(hpending k).mpr (.inr hw), hnew k hw]
      have hp : pending k = false := by
        rw [← Bool.not_eq_true, hpending, hp']
        simp [hw]
      simp [hp, hold k hw]

/-- **The write to the segment** is where the map changes. -/
theorem Represents.store {r r' : RoutedStore K S V} {pending pending' : K → Bool} {s : S}
    {A A' : K → Option V} (written : K → Prop) (h : (r.settle pending s).Represents A)
    (hs : s ∈ r.live) (hloc : r'.location = r.location) (htomb : r'.tombstone = r.tombstone)
    (hlive : r'.live = r.live)
    (hpending : ∀ k, pending' k = true ↔ pending k = true ∨ written k)
    (hnew : ∀ k, written k → r'.segment s k = A' k ∧ (A' k).isSome = true)
    (hother : ∀ t k, t ≠ s → r'.segment t k = r.segment t k)
    (hold : ∀ k, ¬ written k → r'.segment s k = r.segment s k ∧ A' k = A k) :
    (r'.settle pending' s).Represents A' := by
  -- away from the written keys nothing is different
  have hsame : ∀ k, ¬ written k → (∀ t, r'.segment t k = r.segment t k) ∧
      pending' k = pending k := by
    intro k hw
    refine ⟨fun t => ?_, ?_⟩
    · by_cases ht : t = s
      · rw [ht]; exact (hold k hw).1
      · exact hother t k ht
    · rw [Bool.eq_iff_iff, hpending]
      exact or_iff_left hw
  have hlocOld : ∀ k, ¬ written k →
      (r'.settle pending' s).location k = (r.settle pending s).location k := by
    intro k hw
    simp [settle, (hsame k hw).2, hloc]
  have htombOld : ∀ k, ¬ written k →
      (r'.settle pending' s).tombstone k = (r.settle pending s).tombstone k := by
    intro k hw
    simp [settle, (hsame k hw).2, htomb]
  have hlocNew : ∀ k, written k → (r'.settle pending' s).location k = some s := by
    intro k hw
    simp [settle, (hpending k).mpr (.inr hw)]
  refine ⟨fun {k t} hl => ?_, fun {k} hl => ?_, fun {k} hl ht t => ?_, fun {t} ht k => ?_⟩
  · by_cases hw : written k
    · obtain rfl : s = t := by simpa [hlocNew k hw] using hl
      refine ⟨by rw [show (r'.settle pending' s).live = r'.live from rfl, hlive]; exact hs, ?_,
        hnew k hw⟩
      simp [settle, (hpending k).mpr (.inr hw)]
    · rw [hlocOld k hw] at hl
      obtain ⟨h₁, h₂, h₃, h₄⟩ := h.routed hl
      refine ⟨?_, (htombOld k hw).trans h₂, ?_, ?_⟩
      · exact (show (r'.settle pending' s).live = r.live from hlive) ▸ h₁
      · exact ((hsame k hw).1 t).trans (h₃.trans (hold k hw).2.symm)
      · rw [(hold k hw).2]; exact h₄
  · by_cases hw : written k
    · exact absurd hl (by rw [hlocNew k hw]; simp)
    · rw [(hold k hw).2]
      exact h.absent ((hlocOld k hw).symm.trans hl)
  · by_cases hw : written k
    · exact absurd hl (by rw [hlocNew k hw]; simp)
    · exact ((hsame k hw).1 t).trans
        (h.stray ((hlocOld k hw).symm.trans hl) ((htombOld k hw).symm.trans ht) t)
  · have ht' : t ∉ r.live := (show (r'.settle pending' s).live = r.live from hlive) ▸ ht
    have hne : t ≠ s := fun e => ht' (e ▸ hs)
    exact (hother t k hne).trans (h.unused ht' k)

/-- Hiding keys that are not pending. -/
theorem settle_bury {r : RoutedStore K S V} {pending p : K → Bool} (s : S)
    (h : ∀ k, p k = true → pending k = false) :
    (r.bury p).settle pending s = (r.settle pending s).bury p := by
  unfold settle bury
  congr 1
  all_goals
    funext k
    cases hp : p k with
    | true => simp [h k hp, hp]
    | false => simp [hp]

end Settling

end RoutedStore

end Hlquery
