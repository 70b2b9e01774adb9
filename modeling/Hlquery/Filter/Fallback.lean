import Hlquery.Filter.Evaluate

/-!
# What the fallback leaves out

When the parser rejects a text, `ApplyFilters` evaluates what `ParseFilters` has collected. The loop
leaves at the first thing it does not understand and passes over a condition without a value, and in
neither case does it say so: its result looks the same as that of a text which ends there. A text
it understands nothing of keeps no hit; a text it understands the beginning of keeps the hits that
meet the beginning.

`ReadsWhole` are the texts the loop reads to their end with a value for every condition. They are
evaluated as a whole, and so are the texts the parser accepts. Of the others, none keeps a hit only
if no document at all meets what was collected.
-/

set_option autoImplicit false

namespace Hlquery.Filter

open Bytes

/-- The loop reads the text to its end, behind the connector `k`, and collects every condition. -/
inductive ReadsWhole :
    Option LogicalConnector → Bytes → List (Option LogicalConnector × FilterCondition) → Prop where
  | done {k : Option LogicalConnector} {s : Bytes} : skipWhitespace s = [] → ReadsWhole k s []
  | condition {k next : Option LogicalConnector} {s t r : Bytes} {c : FilterCondition}
      {cs : List (Option LogicalConnector × FilterCondition)} :
      filtersCondition (skipWhitespace s) = some (some c, t) → scanConnector t = (next, r) →
      ReadsWhole next r cs → ReadsWhole k s ((k, c) :: cs)

variable {cs : List (Option LogicalConnector × FilterCondition)} {filterBy : Bytes}

/-- **A text that is read whole is collected whole.** -/
theorem ReadsWhole.filtersLoop_eq {k : Option LogicalConnector} {s : Bytes}
    (h : ReadsWhole k s cs) : ∀ {fuel : Nat}, s.length < fuel → filtersLoop fuel k s = cs := by
  induction h with
  | done hs =>
    intro fuel hf
    obtain ⟨fuel, rfl⟩ : ∃ n, fuel = n + 1 := ⟨fuel - 1, by omega⟩
    have hnone : filtersCondition [] = none := by decide
    simp [filtersLoop, hs, hnone]
  | condition hc hscan _ ih =>
    intro fuel hf
    obtain ⟨fuel, rfl⟩ : ∃ n, fuel = n + 1 := ⟨fuel - 1, by omega⟩
    rename_i s t r c cs _
    have h₁ := filtersCondition_lt hc
    have h₂ := length_skipWhitespace_le s
    have h₃ : r.length ≤ t.length := by
      have := length_scanConnector_le t
      rwa [hscan] at this
    simp only [filtersLoop, hc, hscan]
    rw [ih (by omega)]

theorem ReadsWhole.parseFilters_eq {s : Bytes} (h : ReadsWhole none s cs) :
    parseFilters s = cs := h.filtersLoop_eq (Nat.lt_succ_self _)

def conditionsHold (rt : FilterRuntime) (document : Document) :
    List (Option LogicalConnector × FilterCondition) → Bool
  | [] => true
  | (_, c) :: cs => foldConditions rt document (evaluateFilterCondition rt document c) cs

/-- The answer is that of the whole text: of the expression the parser reads, or, if it reads none,
of the conditions the text consists of. -/
def EvaluatesWhole (rt : FilterRuntime) (hits : List SearchHit) (filterBy : Bytes) : Prop :=
  (∃ node, parse filterBy = some node ∧
    applyFilters rt hits filterBy = hits.filter fun hit => evaluateExpression rt hit.document node) ∨
  (parse filterBy = none ∧ ∃ cs, ReadsWhole none filterBy cs ∧
    applyFilters rt hits filterBy = hits.filter fun hit => conditionsHold rt hit.document cs)

section

variable (hparse : parse filterBy = none)
include hparse

theorem matchesFilter_fallback {rt : FilterRuntime}
    (hne : parseFilters filterBy ≠ []) (document : Document) :
    matchesFilter rt filterBy document = conditionsHold rt document (parseFilters filterBy) := by
  unfold matchesFilter
  rw [hparse]
  cases hcs : parseFilters filterBy with
  | nil => exact absurd hcs hne
  | cons c cs => rfl

theorem matchesFilter_fallback_nil {rt : FilterRuntime}
    (hnil : parseFilters filterBy = []) (document : Document) :
    matchesFilter rt filterBy document = (filterBy == []) := by
  unfold matchesFilter
  rw [hparse, hnil]

/-- **A text that the parser rejects and the loop reads whole** is evaluated as a whole, or blank. -/
theorem evaluatesWhole_of_readsWhole
    (hwhole : ReadsWhole none filterBy cs) (rt : FilterRuntime) (hits : List SearchHit) :
    EvaluatesWhole rt hits filterBy ∨ applyFilters rt hits filterBy = [] := by
  have hcs := hwhole.parseFilters_eq
  by_cases hnil : cs = []
  · subst hnil
    by_cases hempty : filterBy = []
    · refine .inl (.inr ⟨hparse, [], hwhole, ?_⟩)
      refine List.filter_congr fun hit _ => ?_
      rw [matchesFilter_fallback_nil hparse hcs]
      simpa [conditionsHold] using hempty
    · refine .inr (List.filter_eq_nil_iff.mpr fun hit _ => ?_)
      rw [matchesFilter_fallback_nil hparse hcs]
      simpa using hempty
  · refine .inl (.inr ⟨hparse, cs, hwhole, ?_⟩)
    refine List.filter_congr fun hit _ => ?_
    rw [matchesFilter_fallback hparse (hcs ▸ hnil), hcs]

end

theorem evaluateEquality_self (rt : FilterRuntime) (text : Bytes) :
    evaluateEquality rt text text = true := by
  unfold evaluateEquality
  cases rt.tryParseISO8601TimestampToMs text <;> simp

end Hlquery.Filter
