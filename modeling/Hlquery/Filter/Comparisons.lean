import Hlquery.Filter.Evaluate

/-!
# The laws of an order

`<`, `=` and `>` on a field should be the three cases of one comparison, and `<=` and `>=` should
add the equality to one of them. The order tests read both sides as numbers, else as timestamps,
else as texts. The equality skips the numbers. **The laws hold exactly where that makes no
difference** (`ordered_iff_numbersAgree`): `1.0` and `1` are equal numbers and unequal texts.
-/

set_option autoImplicit false

namespace Hlquery.Filter

open Bytes

/-- How the comparisons of `double` hang together, NaN included. -/
structure FilterRuntime.ComparesDoubles (rt : FilterRuntime) : Prop where
  lt_eq : ∀ x y, rt.numberLt x y = (rt.numberLe x y && !rt.numberLe y x)

def keeps (rt : FilterRuntime) (document : Document) (field value : Bytes) (op : FilterOp) : Bool :=
  evaluateFilterCondition rt document ⟨field, op, value⟩

/-- The filters on the field with this value are those of one order. -/
structure Ordered (rt : FilterRuntime) (document : Document) (field value : Bytes) : Prop where
  one : [FilterOp.lt, .eq, .gt].countP (keeps rt document field value) = 1
  le : keeps rt document field value .le =
    (keeps rt document field value .lt || keeps rt document field value .eq)
  ge : keeps rt document field value .ge =
    (keeps rt document field value .gt || keeps rt document field value .eq)

/-- The two texts are one timestamp or, if they are not both timestamps, one text. -/
def SameWriting (rt : FilterRuntime) (text value : Bytes) : Prop :=
  match rt.tryParseISO8601TimestampToMs text, rt.tryParseISO8601TimestampToMs value with
  | some a, some b => a = b
  | _, _ => text = value

/-- If both texts are numbers, then these compare, and are equal exactly if the texts are written
alike. -/
def NumbersAgree (rt : FilterRuntime) (text value : Bytes) : Prop :=
  ∀ x y, rt.tryParseDouble text = some x → rt.tryParseDouble value = some y →
    (rt.numberLe x y = true ∨ rt.numberLe y x = true) ∧
      ((rt.numberLe x y = true ∧ rt.numberLe y x = true) ↔ SameWriting rt text value)

section Laws

variable {rt : FilterRuntime} {document : Document} {field value : Bytes}

theorem evaluateEquality_iff {text : Bytes} :
    evaluateEquality rt text value = true ↔ SameWriting rt text value := by
  unfold evaluateEquality SameWriting
  cases rt.tryParseISO8601TimestampToMs text <;>
    cases rt.tryParseISO8601TimestampToMs value <;> simp

theorem keeps_of_text (h : fieldText rt document field ≠ []) :
    keeps rt document field value .eq = evaluateEquality rt (fieldText rt document field) value ∧
      ∀ op ∈ [FilterOp.lt, .gt, .le, .ge], keeps rt document field value op =
        evaluateOrder rt op (fieldText rt document field) value := by
  have hpresent : fieldPresent rt document field = true := by
    unfold fieldText at h
    unfold fieldPresent
    cases hd : document[field]? with
    | none => simpa [hd] using h
    | some text => rfl
  refine ⟨by simp [keeps, evaluateFilterCondition, hpresent], fun op hop => ?_⟩
  simp only [List.mem_cons, List.not_mem_nil, or_false] at hop
  rcases hop with rfl | rfl | rfl | rfl <;> simp [keeps, evaluateFilterCondition, hpresent]

/-- The laws for values of any kind, compared by `le`. -/
theorem ordered_iff_of_kind {α : Type} {lt le : α → α → Bool} {x y : α} {text : Bytes}
    (hlt : ∀ x y, lt x y = (le x y && !le y x)) (htext : fieldText rt document field = text)
    (h : text ≠ []) (horder : ∀ op, evaluateOrder rt op text value = orderTest lt le op x y) :
    Ordered rt document field value ↔ (le x y = true ∨ le y x = true) ∧
      ((le x y = true ∧ le y x = true) ↔ SameWriting rt text value) := by
  subst htext
  obtain ⟨heq, hop⟩ := @keeps_of_text rt document field value h
  simp only [List.forall_mem_cons, List.not_mem_nil, false_implies, implies_true, and_true, horder,
    orderTest, hlt] at hop
  obtain ⟨h₁, h₂, h₃, h₄⟩ := hop
  rw [← evaluateEquality_iff]
  constructor
  · rintro ⟨hone, hle, hge⟩
    simp only [List.countP_cons, List.countP_nil, heq, h₁, h₂, h₃, h₄] at hone hle hge
    revert hone hle hge
    cases le x y <;> cases le y x <;> cases evaluateEquality rt _ value <;> simp
  · intro hlaws
    constructor <;> simp only [List.countP_cons, List.countP_nil, heq, h₁, h₂, h₃, h₄] <;>
      revert hlaws <;>
      cases le x y <;> cases le y x <;> cases evaluateEquality rt _ value <;> simp

theorem stringLt_eq (x y : Bytes) : stringLt x y = (stringLe x y && !stringLe y x) := by
  unfold stringLt stringLe
  have hswap : compare y x = (compare x y).swap := Std.OrientedCmp.eq_swap
  rw [hswap]
  cases compare x y <;> rfl

theorem stringLe_total (x y : Bytes) : stringLe x y = true ∨ stringLe y x = true := by
  unfold stringLe
  rw [(Std.OrientedCmp.eq_swap : compare y x = (compare x y).swap)]
  cases compare x y <;> simp

theorem stringLe_antisymm_iff {x y : Bytes} :
    (stringLe x y = true ∧ stringLe y x = true) ↔ x = y := by
  unfold stringLe
  rw [(Std.OrientedCmp.eq_swap : compare y x = (compare x y).swap)]
  have heq : compare x y = .eq ↔ x = y := Std.LawfulEqCmp.compare_eq_iff_eq
  rw [← heq]
  cases compare x y <;> simp

/-- **The filters on a field obey the laws of an order exactly if numbers are equal where they are
written alike.** -/
theorem ordered_iff_numbersAgree (hdoubles : rt.ComparesDoubles)
    (h : fieldText rt document field ≠ []) :
    Ordered rt document field value ↔ NumbersAgree rt (fieldText rt document field) value := by
  generalize htext : fieldText rt document field = text at h ⊢
  by_cases hnumbers : ∃ x y, rt.tryParseDouble text = some x ∧ rt.tryParseDouble value = some y
  · obtain ⟨x, y, hx, hy⟩ := hnumbers
    rw [ordered_iff_of_kind hdoubles.lt_eq htext h (x := x) (y := y)
      (fun op => by simp [evaluateOrder, hx, hy])]
    simp [NumbersAgree, hx, hy]
  · refine iff_of_true ?_ fun x y hx hy => absurd ⟨x, y, hx, hy⟩ hnumbers
    -- no numbers: the order tests and the equality choose their reading alike
    have hother : ∀ op, evaluateOrder rt op text value =
        match rt.tryParseISO8601TimestampToMs text, rt.tryParseISO8601TimestampToMs value with
        | some a, some b => orderTest (fun a b => decide (a < b)) (fun a b => decide (a ≤ b)) op a b
        | _, _ => orderTest stringLt stringLe op text value := by
      intro op
      unfold evaluateOrder
      split
      · exact absurd ⟨_, _, ‹_›, ‹_›⟩ hnumbers
      · rfl
    have htexts : (∀ op, evaluateOrder rt op text value = orderTest stringLt stringLe op text value) →
        (SameWriting rt text value ↔ text = value) → Ordered rt document field value := by
      intro horder hsame
      refine (ordered_iff_of_kind stringLt_eq htext h horder).mpr ⟨stringLe_total text value, ?_⟩
      rw [hsame, stringLe_antisymm_iff]
    cases ha : rt.tryParseISO8601TimestampToMs text with
    | none => exact htexts (fun op => by rw [hother, ha]) (by simp [SameWriting, ha])
    | some a =>
      cases hb : rt.tryParseISO8601TimestampToMs value with
      | none => exact htexts (fun op => by rw [hother, ha, hb]) (by simp [SameWriting, ha, hb])
      | some b =>
        refine (ordered_iff_of_kind (fun x y => ?_) htext h fun op => by rw [hother, ha, hb]).mpr ?_
        · rw [Bool.eq_iff_iff]
          simp only [Bool.and_eq_true, decide_eq_true_eq, Bool.not_eq_true', decide_eq_false_iff_not,
            UInt64.not_le]
          exact ⟨fun hlt => ⟨UInt64.le_of_lt hlt, hlt⟩, And.right⟩
        · simp only [decide_eq_true_eq, SameWriting, ha, hb, UInt64.le_antisymm_iff, iff_self, and_true]
          exact UInt64.le_total a b

end Laws

/-- Numbers of which `1` and `1.0` are one, and no timestamps. -/
def wholeNumbers : FilterRuntime where
  Number := Nat
  numberLt x y := x ≤ y && !(y ≤ x)
  numberLe x y := x ≤ y
  tryParseDouble s := if s = lit "1" ∨ s = lit "1.0" then some 1 else none
  tryParseISO8601TimestampToMs _ := none
  formatTimestampMsAsISO8601 _ := []
  legacyField _ _ := []
  wildcardMatch _ _ := false
  withinGeoRadius _ _ := false
  withinGeoBox _ _ := false

theorem comparesDoubles_wholeNumbers : wholeNumbers.ComparesDoubles :=
  ⟨fun _ _ => rfl⟩

theorem ordered_price_red :
    Ordered wholeNumbers (ByteMap.insertAll ∅ [(lit "price", lit "1.0")]) (lit "price")
      (lit "red") :=
  (ordered_iff_numbersAgree comparesDoubles_wholeNumbers (by decide)).mpr fun _ _ _ hy => nomatch hy

/-- `1.0` is neither below nor equal to nor above `1`. -/
theorem equal_number_not_kept : wholeNumbers.ComparesDoubles ∧
      ¬ Ordered wholeNumbers (ByteMap.insertAll ∅ [(lit "price", lit "1.0")]) (lit "price")
        (lit "1") :=
  ⟨comparesDoubles_wholeNumbers, fun h => absurd h.one (by decide)⟩

end Hlquery.Filter
