import Hlquery.Lib.ByteMap
import Hlquery.Filter.Locality

/-!
# Filter evaluation

`EvaluateFilterCondition` decides one condition against a document and `ApplyFilters` keeps the
hits whose document meets the whole text. The reading of numbers, timestamps, JSON payloads,
wildcards and coordinates is the library's business: `FilterRuntime` names the functions the
evaluation calls, and nothing below depends on what they compute. The control flow around them
(which reading is tried first, what an absent field means, how the fallback folds its connectors)
is the source's.
-/

set_option autoImplicit false

namespace Hlquery.Filter

open Bytes

abbrev Document := ByteMap Bytes

/-- The library functions that the evaluation of a condition calls. -/
structure FilterRuntime where
  /-- The numbers of `std::stod`, compared by `<` and `<=`. -/
  Number : Type
  numberLt : Number → Number → Bool
  numberLe : Number → Number → Bool
  /-- `TryParseDouble`: the whole text is a number. -/
  tryParseDouble : Bytes → Option Number
  tryParseISO8601TimestampToMs : Bytes → Option UInt64
  formatTimestampMsAsISO8601 : UInt64 → Bytes
  /-- The text of a field of the JSON object in the legacy `fields` payload; empty if the payload
  is malformed or has no such field. -/
  legacyField : Bytes → Bytes → Bytes
  /-- `Wildcard::Match`. -/
  wildcardMatch : Bytes → Bytes → Bool
  /-- The two geo conditions, from their argument text. -/
  withinGeoRadius : Document → Bytes → Bool
  withinGeoBox : Document → Bytes → Bool

/-! ## One condition -/

/-- `DerivedFieldValue`: what stands for a field that the document does not have. -/
def derivedFieldValue (rt : FilterRuntime) (document : Document) (field : Bytes) : Bytes :=
  let legacy :=
    match document[lit "fields"]? with
    | none => []
    | some payload => if payload = [] then [] else rt.legacyField payload field
  if legacy = [] ∧ field = lit "created_at" then
    match document[lit "timestamp"]? with
    | none => []
    | some text =>
      match stoull text with
      | none => []
      | some ms => rt.formatTimestampMsAsISO8601 ms
  else legacy

/-- The field's text, and the empty text for a field that is neither stored nor derived. -/
def fieldText (rt : FilterRuntime) (document : Document) (field : Bytes) : Bytes :=
  (document[field]?).getD (derivedFieldValue rt document field)

def fieldPresent (rt : FilterRuntime) (document : Document) (field : Bytes) : Bool :=
  (document[field]?).isSome || derivedFieldValue rt document field != []

/-- An end of a range in some reading: `*` is open, and a text that cannot be read fails. -/
def rangeBound {α : Type} (read : Bytes → Option α) (s : Bytes) : Option (Option α) :=
  if s = lit "*" then some none else (read s).map some

/-- `x` against the ends of a range, each of which may be open. -/
def withinRange {α : Type} (below : α → α → Bool) (low high : Option α) (x : α) : Bool :=
  (low.all fun l => below l x) && (high.all fun h => below x h)

def stringLt (s t : Bytes) : Bool := (compare s t).isLT

def stringLe (s t : Bytes) : Bool := (compare s t).isLE

/-- The order tests of `>`, `>=`, `<` and `<=`. -/
def orderTest {α : Type} (lt le : α → α → Bool) (op : FilterOp) (x y : α) : Bool :=
  match op with
  | .gt => lt y x
  | .ge => le y x
  | .lt => lt x y
  | _ => le x y

/-- A range condition: as numbers if field and ends are numbers, else as timestamps, else as
texts. -/
def evaluateRange (rt : FilterRuntime) (inclusive : Bool) (text value : Bytes) : Bool :=
  match splitFirst (chr ',') value with
  | none => false
  | some (low, high) =>
    match rt.tryParseDouble text, rangeBound rt.tryParseDouble low,
        rangeBound rt.tryParseDouble high with
    | some x, some l, some h =>
      withinRange (if inclusive then rt.numberLe else rt.numberLt) l h x
    | _, _, _ =>
      match rt.tryParseISO8601TimestampToMs text,
          rangeBound rt.tryParseISO8601TimestampToMs low,
          rangeBound rt.tryParseISO8601TimestampToMs high with
      | some x, some l, some h =>
        withinRange (fun a b => if inclusive then decide (a ≤ b) else decide (a < b)) l h x
      | _, _, _ =>
        withinRange (if inclusive then stringLe else stringLt)
          (if low = lit "*" then none else some low)
          (if high = lit "*" then none else some high) text

/-- `=` and `:=`: as timestamps if both sides are, else byte for byte. -/
def evaluateEquality (rt : FilterRuntime) (text value : Bytes) : Bool :=
  match rt.tryParseISO8601TimestampToMs text, rt.tryParseISO8601TimestampToMs value with
  | some x, some y => x == y
  | _, _ => text == value

/-- `>`, `>=`, `<` and `<=`: as numbers, else as timestamps, else as texts. -/
def evaluateOrder (rt : FilterRuntime) (op : FilterOp) (text value : Bytes) : Bool :=
  match rt.tryParseDouble text, rt.tryParseDouble value with
  | some x, some y => orderTest rt.numberLt rt.numberLe op x y
  | _, _ =>
    match rt.tryParseISO8601TimestampToMs text, rt.tryParseISO8601TimestampToMs value with
    | some x, some y => orderTest (fun a b => decide (a < b)) (fun a b => decide (a ≤ b)) op x y
    | _, _ => orderTest stringLt stringLe op text value

/-- `EvaluateFilterCondition`. -/
def evaluateFilterCondition (rt : FilterRuntime) (document : Document) (c : FilterCondition) :
    Bool :=
  let text := fieldText rt document c.field
  match c.op with
  | .geoRadius => rt.withinGeoRadius document c.value
  | .geoBox => rt.withinGeoBox document c.value
  | .isNull => text == []
  | .isNotNull => text != []
  | op =>
    if fieldPresent rt document c.field then
      match op with
      | .like => rt.wildcardMatch text c.value
      | .notLike => !rt.wildcardMatch text c.value
      | .iLike => rt.wildcardMatch (toLower text) (toLower c.value)
      | .notILike => !rt.wildcardMatch (toLower text) (toLower c.value)
      | .rangeInclusive => evaluateRange rt true text c.value
      | .rangeExclusive => evaluateRange rt false text c.value
      | .eq | .colonEq => evaluateEquality rt text c.value
      | .ne => !evaluateEquality rt text c.value
      | op => evaluateOrder rt op text c.value
    else false

/-! ## Whole texts -/

/-- `EvaluateExpression`. -/
def evaluateExpression (rt : FilterRuntime) (document : Document) :
    FilterExpressionNode → Bool
  | .condition c => evaluateFilterCondition rt document c
  | .not child => !evaluateExpression rt document child
  | .or left right =>
      evaluateExpression rt document left || evaluateExpression rt document right
  | .and left right =>
      evaluateExpression rt document left && evaluateExpression rt document right

def foldConditions (rt : FilterRuntime) (document : Document) :
    Bool → List (Option LogicalConnector × FilterCondition) → Bool
  | acc, [] => acc
  | acc, (some .or, c) :: cs =>
      foldConditions rt document (acc || evaluateFilterCondition rt document c) cs
  | acc, (_, c) :: cs =>
      foldConditions rt document (acc && evaluateFilterCondition rt document c) cs

/-- Whether `ApplyFilters` keeps a hit with this document. -/
def matchesFilter (rt : FilterRuntime) (filterBy : Bytes) (document : Document) : Bool :=
  match parse filterBy with
  | some node => evaluateExpression rt document node
  | none =>
    match parseFilters filterBy with
    | [] => filterBy == []
    | (_, c) :: cs => foldConditions rt document (evaluateFilterCondition rt document c) cs

structure SearchHit where
  documentId : Bytes
  document : Document

/-- `ApplyFilters`. -/
def applyFilters (rt : FilterRuntime) (hits : List SearchHit) (filterBy : Bytes) :
    List SearchHit :=
  hits.filter fun hit => matchesFilter rt filterBy hit.document

variable {rt : FilterRuntime}

theorem mem_applyFilters {hits : List SearchHit} {filterBy : Bytes}
    {hit : SearchHit} :
    hit ∈ applyFilters rt hits filterBy ↔
      hit ∈ hits ∧ matchesFilter rt filterBy hit.document = true :=
  List.mem_filter

/-! ## Joined texts -/

/-- How the handlers join a second filter text to a first: a key's embedded text to the caller's,
and a geo parameter to `filter_by`. -/
def joinFilters (user embedded : Bytes) : Bytes :=
  if embedded = [] then user
  else if user = [] then embedded
  else lit "(" ++ user ++ lit ") && (" ++ embedded ++ lit ")"

/-- The caller's text stays inside its parentheses: there is none, or it is a complete expression
of its own, or the joined text is no expression at all (and then nothing passes). -/
def Contained (user embedded : Bytes) : Prop :=
  user = [] ∨ (parse user).isSome ∨ parse (joinFilters user embedded) = none

instance (user embedded : Bytes) : Decidable (Contained user embedded) :=
  inferInstanceAs (Decidable (_ ∨ _ ∨ _))

theorem matchesFilter_of_parse {text : Bytes} {node : FilterExpressionNode}
    (h : parse text = some node) (document : Document) :
    matchesFilter rt text document = evaluateExpression rt document node := by
  simp [matchesFilter, h]

/-- A joined text that the parser rejects lets nothing pass: the fallback has no grouping. -/
theorem matchesFilter_group_rejected {s : Bytes}
    (h : parse (chr '(' :: s) = none) (document : Document) :
    matchesFilter rt (chr '(' :: s) document = false := by
  simp [matchesFilter, h, parseFilters_group]

/-- **A contained caller text only narrows**: what meets the joined text meets the embedded
text. -/
theorem matchesFilter_embedded {user embedded : Bytes} {document : Document}
    (he : (parse embedded).isSome) (hc : Contained user embedded)
    (h : matchesFilter rt (joinFilters user embedded) document = true) :
    matchesFilter rt embedded document = true := by
  obtain ⟨ne, hne⟩ := Option.isSome_iff_exists.mp he
  have hempty : embedded ≠ [] := by
    intro e
    rw [e, show parse [] = none by decide] at hne
    cases hne
  by_cases hu : user = []
  · simpa [joinFilters, hempty, hu] using h
  have htext : joinFilters user embedded =
      lit "(" ++ user ++ lit ") && (" ++ embedded ++ lit ")" := by
    simp [joinFilters, hempty, hu]
  rcases hc with hc | hc | hc
  · exact absurd hc hu
  · obtain ⟨nu, hnu⟩ := Option.isSome_iff_exists.mp hc
    have hjoin := parse_group_and_group hnu hne
    rw [htext, matchesFilter_of_parse hjoin] at h
    rw [matchesFilter_of_parse hne]
    exact ((Bool.and_eq_true _ _).mp h).2
  · have hgroup : joinFilters user embedded =
        chr '(' :: (user ++ lit ") && (" ++ embedded ++ lit ")") := by
      rw [htext]
      simp [lit, chr]
    rw [hgroup] at hc h
    rw [matchesFilter_group_rejected hc] at h
    cases h

end Hlquery.Filter
