import Hlquery.Sql.ReadBack

/-!
# A leading `NOT`

`ParseComparison` notes a `NOT` in front of a field and reads the predicate behind it. The flag
reaches the comparisons with an operator only: `=` and `!=` are exchanged, the order tests are
refused. The predicates with a word of their own and `IS` do not look at it, so that `NOT P` and `P`
have one and the same text.

For the equalities the two texts are complementary on every document that has the field, unless the
literal is blank: then the filter parser finds nothing to compare with, its fallback drops the
condition, and neither text keeps anything. This covers the literals that are not read back as they
are written, because both texts are misread in the same way.
-/

set_option autoImplicit false

namespace Hlquery.Sql

open Bytes
open Filter

/-! ## The text of `NOT P` -/

def IsEquality (tokens : List Bytes) (op : ComparisonOp) (value : Bytes) : Prop :=
  ∃ o v, tokens = [o, v] ∧ ComparisonOp.ofToken o = some op ∧ (op = .eq ∨ op = .ne) ∧
    valueOf v = some value

variable {field : Bytes} {op : ComparisonOp} {text value : Bytes} {op' : ComparisonOp}
  {text' : Bytes} {tokens : List Bytes} {rest : Cursor} {scope : Scope} {cursor : Cursor}
  {s : Bytes}

theorem negated_eq_some (h : op.negated = some op') :
    (op = .eq ∧ op' = .ne) ∨ (op = .ne ∧ op' = .eq) := by
  cases op with
  | eq => exact .inl ⟨rfl, (Option.some.inj h).symm⟩
  | ne => exact .inr ⟨rfl, (Option.some.inj h).symm⟩
  | gt | ge | lt | le => simp [ComparisonOp.negated] at h

theorem parseOperatorComparison_negated {rest rest' : List Bytes}
    (h : parseOperatorComparison field false tokens = .ok (text, rest))
    (h' : parseOperatorComparison field true tokens = .ok (text', rest')) :
    rest' = rest ∧ ∃ o v op op' value, tokens = o :: v :: rest ∧
      ComparisonOp.ofToken o = some op ∧ op.negated = some op' ∧ valueOf v = some value ∧
      buildRenderedComparison field op value = .ok text ∧
      buildRenderedComparison field op' value = .ok text' := by
  cases tokens with
  | nil => simp [parseOperatorComparison] at h
  | cons o tokens =>
    cases ho : ComparisonOp.ofToken o with
    | none => simp [parseOperatorComparison, ho] at h
    | some op =>
      cases hn : op.negated with
      | none => simp [parseOperatorComparison, ho, hn] at h'
      | some op' =>
        cases hv : parseValue tokens with
        | none => simp [parseOperatorComparison, ho, hv] at h
        | some vr =>
          obtain ⟨value, rest₁⟩ := vr
          obtain ⟨v, hvalue, rfl⟩ := parseValue_eq_some hv
          simp only [parseOperatorComparison, ho, hv, hn, if_true, Bool.false_eq_true,
            if_false] at h h'
          cases hb : buildRenderedComparison field op value with
          | error e => rw [hb] at h; simp [Except.map] at h
          | ok t =>
            cases hb' : buildRenderedComparison field op' value with
            | error e => rw [hb'] at h'; simp [Except.map] at h'
            | ok t' =>
              rw [hb] at h
              rw [hb'] at h'
              cases h
              cases h'
              exact ⟨rfl, o, v, op, op', value, rfl, ho, hn, hvalue, hb, hb'⟩

/-- An operator is none of the words of `ParseComparison`. -/
theorem parsePredicate_operator {o : Bytes} (ho : ComparisonOp.ofToken o = some op)
    (field : Bytes) (negate : Bool) (tokens : List Bytes) :
    parsePredicate field negate (o :: tokens) =
      parseOperatorComparison field negate (o :: tokens) := by
  have hword : toUpper o ∉ [lit "NOT", lit "IN", lit "BETWEEN", lit "LIKE", lit "ILIKE",
      lit "CONTAINS", lit "IS"] := by
    unfold ComparisonOp.ofToken at ho
    split_ifs at ho with h₁ h₂ h₃ h₄ h₅ h₆
    · subst h₁; decide
    · rcases h₂ with rfl | rfl <;> decide
    · subst h₃; decide
    · subst h₄; decide
    · subst h₅; decide
    · subst h₆; decide
  simp only [List.mem_cons, List.not_mem_nil, or_false, not_or] at hword
  obtain ⟨h₁, h₂, h₃, h₄, h₅, h₆, h₇⟩ := hword
  simp [parsePredicate, matchKeyword, predicateKeyword, h₁, h₂, h₃, h₄, h₅, h₆, h₇]

/-- **Behind anything but an operator the leading `NOT` is lost.** -/
theorem parsePredicate_word (hop : ∀ o ts, tokens = o :: ts → ComparisonOp.ofToken o = none)
    {tr : Bytes × List Bytes} (h : parsePredicate field true tokens = .ok tr) :
    parsePredicate field false tokens = .ok tr := by
  unfold parsePredicate at h ⊢
  cases hn : matchKeyword (lit "NOT") tokens with
  | some rest => simpa only [hn] using h
  | none =>
    cases hk : predicateKeyword tokens with
    | some kr => simpa only [hn, hk] using h
    | none =>
      cases hi : matchKeyword (lit "IS") tokens with
      | some rest => simpa only [hn, hk, hi] using h
      | none =>
        simp only [hn, hk, hi] at h
        cases tokens with
        | nil => simp [parseOperatorComparison] at h
        | cons o ts => simp [parseOperatorComparison, hop o ts rfl] at h

/-- **`P` and `NOT P`**: the same text, or the two equalities with one literal. -/
theorem parsePredicate_negated {rest rest' : List Bytes}
    (h : parsePredicate field false tokens = .ok (text, rest))
    (h' : parsePredicate field true tokens = .ok (text', rest')) :
    rest' = rest ∧ ((text' = text ∧ ∀ op value, ¬IsEquality tokens op value) ∨
      ∃ o v op op' value, tokens = o :: v :: rest ∧
        ComparisonOp.ofToken o = some op ∧ op.negated = some op' ∧ valueOf v = some value ∧
        buildRenderedComparison field op value = .ok text ∧
        buildRenderedComparison field op' value = .ok text') := by
  by_cases hop : ∃ o ts op, tokens = o :: ts ∧ ComparisonOp.ofToken o = some op
  · obtain ⟨o, ts, op, rfl, ho⟩ := hop
    rw [parsePredicate_operator ho] at h h'
    obtain ⟨hrest, heq⟩ := parseOperatorComparison_negated h h'
    exact ⟨hrest, .inr heq⟩
  · have hnone : ∀ o ts, tokens = o :: ts → ComparisonOp.ofToken o = none := by
      intro o ts ht
      cases ho : ComparisonOp.ofToken o with
      | none => rfl
      | some op => exact absurd ⟨o, ts, op, ht, ho⟩ hop
    obtain ⟨rfl, rfl⟩ := Prod.mk.inj (Except.ok.inj (h.symm.trans (parsePredicate_word hnone h')))
    refine ⟨rfl, .inl ⟨rfl, ?_⟩⟩
    rintro op value ⟨o, v, rfl, ho, -⟩
    exact hop ⟨o, [v], op, rfl, ho⟩

/-! ## A predicate as a WHERE clause -/

/-- What stands behind an accepted predicate ends the clause, if nothing does. -/
theorem parseExpression_of_comparison (hgroup : startsGroup cursor.tokens = false)
    (hnot : startsNegatedGroup cursor.tokens = false)
    (h : parseComparison scope cursor = .ok (text, rest)) (hrest : rest.tokens = []) :
    parseExpression scope cursor = .ok (text, rest) := by
  have hloop : ∀ keyword connector operand fuel,
      operandLoop keyword connector operand fuel text rest = .ok (text, rest) := by
    intro keyword connector operand fuel
    cases fuel with
    | zero => rfl
    | succ fuel => simp only [operandLoop, hrest, matchKeyword]
  have hprimary : parsePrimary scope maxExpressionDepth cursor = .ok (text, rest) := by
    simp [maxExpressionDepth, parsePrimary, parsePrimaryWith, hnot, hgroup, h]
  simp [parseExpression, parseExpressionWith, Sql.parseAndWith, operands, hprimary, hloop]

theorem parseComparison_of_expression (hgroup : startsGroup cursor.tokens = false)
    (hnot : startsNegatedGroup cursor.tokens = false)
    (h : parseExpression scope cursor = .ok (text, rest)) :
    ∃ tr, parseComparison scope cursor = .ok tr := by
  cases hc : parseComparison scope cursor with
  | ok tr => exact ⟨tr, rfl⟩
  | error e =>
    have hprimary : parsePrimary scope maxExpressionDepth cursor = .error e := by
      simp [maxExpressionDepth, parsePrimary, parsePrimaryWith, hnot, hgroup, hc]
    simp only [parseExpression, parseExpressionWith, Sql.parseAndWith, operands, hprimary] at h
    cases h

theorem parsePredicate_of_comparison {negate : Bool} {f : Bytes} {ts : List Bytes}
    (hn : optionalKeyword (lit "NOT") cursor.tokens = (negate, f :: ts))
    (hf : referenceOf scope f = some field) (h : parseComparison scope cursor = .ok (text, rest)) :
    parsePredicate field negate ts = .ok (text, rest.tokens) := by
  unfold parseComparison at h
  simp only [hn, hf] at h
  split at h
  · cases h
  cases hp : parsePredicate field negate ts with
  | error e => rw [hp] at h; simp [Except.map] at h
  | ok tr =>
    rw [hp] at h
    cases h
    rfl

/-! ## Equalities on a document -/

theorem fieldPresent_of_text {rt : FilterRuntime} {document : Document}
    (h : fieldText rt document field ≠ []) : fieldPresent rt document field = true := by
  unfold fieldText at h
  unfold fieldPresent
  cases hd : document[field]? with
  | some text => rfl
  | none => simpa [hd] using h

/-- A test on a plain field is read on its own where no connector is left behind it. -/
theorem parse_test (hfield : PlainField field) : Filter.parse (field ++ chr ':' :: s) =
      match parseTest field (skipWhitespace s) with
      | none => none
      | some (c, r) =>
        if matchToken (lit "&&") r = none ∧ matchToken (lit "||") r = none then
          if skipWhitespace r = [] then some (.condition c) else none
        else Filter.parse (field ++ chr ':' :: s) := by
  obtain ⟨hne, hbytes, hgeo⟩ := hfield
  have hcondition : parseCondition (field ++ chr ':' :: s) = parseTest field (skipWhitespace s) := by
    obtain ⟨b, f, rfl⟩ := List.exists_cons_of_ne_nil hne
    have hspace := (isFieldByte_start (hbytes b (by simp))).1
    unfold parseCondition
    rw [List.cons_append, skipWhitespace_cons hspace, ← List.cons_append]
    simp only [startsGeo_field, hgeo, Bool.false_eq_true, if_false, Parser.andThen,
      fieldName_field hne hbytes]
  have hprimary : ∀ depth, Filter.parsePrimary (depth + 1) (field ++ chr ':' :: s) =
      (parseTest field (skipWhitespace s)).map fun cr => (.condition cr.1, cr.2) := by
    intro depth
    rw [← hcondition]
    obtain ⟨b, f, rfl⟩ := List.exists_cons_of_ne_nil hne
    obtain ⟨hspace, hnot, hopen⟩ := isFieldByte_start (hbytes b (by simp))
    rw [List.cons_append, parsePrimary_succ (skipWhitespace_cons hspace _), if_neg hnot,
      if_neg hopen]
  split
  · rename_i hnone
    simp only [Filter.parse, parseOrWith, Filter.parseAndWith, Parser.chain, hprimary, hnone,
      Option.map_none]
  · rename_i c r hsome
    split_ifs with hconn hblank
    · simp only [Filter.parse, parseOrWith, Filter.parseAndWith, Parser.chain, hprimary, hsome,
        Option.map_some, Parser.chainLoop, hconn.1, hconn.2, hblank, if_true]
    · simp only [Filter.parse, parseOrWith, Filter.parseAndWith, Parser.chain, hprimary, hsome,
        Option.map_some, Parser.chainLoop, hconn.1, hconn.2, hblank, if_false]
    · rfl

theorem matchToken_eq_none {b : UInt8} {token r : Bytes} (hb : b ∈ token) (hr : b ∉ r) :
    matchToken token r = none := by
  cases h : matchToken token r with
  | none => rfl
  | some t =>
    have ht := stripPrefix_eq_some.mp h
    refine absurd ((skipWhitespace_suffix r).subset ?_) hr
    rw [ht]
    exact List.mem_append_left _ hb

theorem trim_skipWhitespace_eq_nil : trim (skipWhitespace s) = [] ↔ skipWhitespace s = [] := by
  constructor
  · intro h
    cases hs : skipWhitespace s with
    | nil => rfl
    | cons b t =>
      have htrimmed := isTrimmed_of_trim_eq_nil (hs ▸ h) b (by simp)
      have hb : isSpace b = false := by
        have := List.head?_dropWhile_not isSpace s
        rw [show s.dropWhile isSpace = b :: t from hs] at this
        simpa using this
      exact absurd (isSpace_of_isTrimmed htrimmed) (by simp [hb])
  · intro h
    rw [h]
    rfl

theorem filtersOperator_renderedOp (hop : op = .eq ∨ op = .ne) (value : Bytes) :
    filtersOperator (renderedOp op value ++ value) = (op.filterOp value, value) := by
  unfold renderedOp ComparisonOp.filterOp
  rcases hop with rfl | rfl
  · cases isNumericLiteral value <;>
      simp [ComparisonOp.text, lit, filtersOperator, matchFirst, nullOps, likeOps, twoCharOps,
        oneCharOps, startsWith, List.isPrefixOf]
  · simp [ComparisonOp.text, lit, filtersOperator, matchFirst, nullOps, likeOps, twoCharOps,
      startsWith, List.isPrefixOf]

theorem takeUntil_startsConnector (hvalue : chr '&' ∉ value ∧ chr '|' ∉ value) :
    takeUntil startsConnector value = (value, []) := by
  refine takeUntil_eq_self fun v _ hv => ?_
  have hnot : ∀ b : UInt8, b ∉ value → startsWith v [b, b] = false := by
    intro b hb
    cases hs : startsWith v [b, b] with
    | false => rfl
    | true =>
      obtain ⟨t, rfl⟩ := startsWith_iff.mp hs
      exact absurd (hv.subset (by simp)) hb
  have hand := hnot _ hvalue.1
  have hor := hnot _ hvalue.2
  simpa [startsConnector, lit, chr] using And.intro hand hor

/-- The fallback reads an equality on a plain field, and drops it if its literal is blank. -/
theorem parseFilters_equality (hfield : PlainField field) (hop : op = .eq ∨ op = .ne)
    (hvalue : chr '&' ∉ value ∧ chr '|' ∉ value) :
    parseFilters (field ++ chr ':' :: (renderedOp op value ++ value)) =
      if skipWhitespace value = [] then []
      else [(none, ⟨field, op.filterOp value, trim (skipWhitespace value)⟩)] := by
  obtain ⟨hne, hbytes, hgeo⟩ := hfield
  have htest : IsTest (renderedOp op value ++ value) (op.filterOp value) value :=
    isTest_renderedOp (by rcases hop with rfl | rfl <;> simp)
  have hblank : chr '&' ∉ skipWhitespace value ∧ chr '|' ∉ skipWhitespace value :=
    ⟨fun h => hvalue.1 ((skipWhitespace_suffix _).subset h),
      fun h => hvalue.2 ((skipWhitespace_suffix _).subset h)⟩
  have hnull : ¬(op.filterOp value = .isNull ∨ op.filterOp value = .isNotNull) := by
    rintro (h | h)
    · exact filterOp_ne_null op .eq value (by simpa using h)
    · exact filterOp_ne_null op .ne value (by simpa using h)
  have hcondition : filtersCondition (field ++ chr ':' :: (renderedOp op value ++ value)) =
      some (if skipWhitespace value = [] then none
        else some ⟨field, op.filterOp value, trim (skipWhitespace value)⟩, []) := by
    simp only [filtersCondition, startsGeo_field, hgeo, Bool.false_eq_true, if_false,
      fieldName_field hne hbytes, htest.noSpace, htest.noRange,
      filtersOperator_renderedOp hop value, if_neg hnull, takeUntil_startsConnector hblank,
      trim_skipWhitespace_eq_nil]
  have hskip : skipWhitespace (field ++ chr ':' :: (renderedOp op value ++ value)) =
      field ++ chr ':' :: (renderedOp op value ++ value) := by
    obtain ⟨b, f, rfl⟩ := List.exists_cons_of_ne_nil hne
    exact skipWhitespace_cons (isFieldByte_start (hbytes b (by simp))).1 _
  have hend : ∀ fuel connector, filtersLoop fuel connector [] = [] := by
    intro fuel connector
    cases fuel <;> rfl
  have hscan : scanConnector [] = (none, []) := by decide
  unfold parseFilters filtersLoop
  simp only [hskip, hcondition, hscan]
  split_ifs with h <;> simp only [hend]

/-- **What the text of an equality keeps**: the documents that pass the operator against the trimmed
literal, and none if the literal is blank. A closing parenthesis in the literal sends the text to
the fallback, which reads past it. -/
theorem matchesFilter_equality (hfield : PlainField field) (hop : op = .eq ∨ op = .ne)
    (hvalue : chr '&' ∉ value ∧ chr '|' ∉ value) (rt : FilterRuntime) (document : Document) :
    matchesFilter rt (field ++ chr ':' :: (renderedOp op value ++ value)) document =
      if skipWhitespace value = [] then false
      else evaluateFilterCondition rt document
        ⟨field, op.filterOp value, trim (skipWhitespace value)⟩ := by
  have htest : IsTest (renderedOp op value ++ value) (op.filterOp value) value :=
    isTest_renderedOp (by rcases hop with rfl | rfl <;> simp)
  have hfallback : Filter.parse (field ++ chr ':' :: (renderedOp op value ++ value)) = none →
      matchesFilter rt (field ++ chr ':' :: (renderedOp op value ++ value)) document =
        if skipWhitespace value = [] then false
        else evaluateFilterCondition rt document
          ⟨field, op.filterOp value, trim (skipWhitespace value)⟩ := by
    intro hnone
    simp only [matchesFilter, hnone, parseFilters_equality hfield hop hvalue]
    split_ifs with h
    · simp
    · rfl
  have hparse := parse_test (s := renderedOp op value ++ value) hfield
  rw [htest.parseTest_eq] at hparse
  unfold Filter.parseComparison at hparse
  simp only [htest.operator] at hparse
  generalize hu : takeUntil endsValue (skipWhitespace value) = ur at hparse
  obtain ⟨u, r⟩ := ur
  have hr : r <:+ value := by
    have := takeUntil_suffix endsValue (skipWhitespace value)
    rw [hu] at this
    exact this.trans (skipWhitespace_suffix _)
  by_cases htrim : trim u = []
  · rw [if_pos htrim] at hparse
    exact hfallback hparse
  rw [if_neg htrim] at hparse
  dsimp only at hparse
  rw [if_pos ⟨matchToken_eq_none (b := chr '&') (by decide) fun h => hvalue.1 (hr.subset h),
    matchToken_eq_none (b := chr '|') (by decide) fun h => hvalue.2 (hr.subset h)⟩] at hparse
  by_cases hblank : skipWhitespace r = []
  · -- the scan has reached the end, so that the literal was read whole
    have hr' : r = [] := by
      rcases takeUntil_stopped endsValue (skipWhitespace value) with h | h
      · rw [hu] at h; exact h
      · rw [hu] at h
        cases r with
        | nil => rfl
        | cons b t =>
          have hspace := (by decide +kernel : ∀ b ∈ delimiters, isSpace b = false) b
            (endsValue_cons h)
          rw [skipWhitespace_cons hspace] at hblank
          cases hblank
    subst hr'
    have hu' : u = skipWhitespace value := by
      have := takeUntil_fst_append_snd endsValue (skipWhitespace value)
      rw [hu] at this
      simpa using this
    have hne : skipWhitespace value ≠ [] := by
      rintro h
      rw [h] at hu'
      exact htrim (by rw [hu']; rfl)
    rw [matchesFilter_of_parse hparse, if_neg hne, ← hu']
    rfl
  · rw [if_neg hblank] at hparse
    exact hfallback hparse

/-- What the two texts of an equality with the null value keep. -/
theorem matchesFilter_nullText (hfield : PlainField field) (hnull : isNullText value = true)
    (rt : FilterRuntime) (document : Document) :
    matchesFilter rt (comparisonText field op value) document =
      evaluateFilterCondition rt document (Operand.null.condition field op) := by
  have hfield' : (Operand.null.condition field op).field = field := rfl
  have hparse := (read_nullText_iff hfield' hnull).mpr ⟨hfield, rfl⟩
  rw [matchesFilter_of_parse hparse]
  rfl

/-- The condition of an equality is decided the other way for the other equality. -/
theorem evaluate_negated (h : op.negated = some op') (value value' : Bytes) {rt : FilterRuntime}
    {document : Document} (hfield : fieldText rt document field ≠ []) :
    evaluateFilterCondition rt document ⟨field, op'.filterOp value, value'⟩ =
      !evaluateFilterCondition rt document ⟨field, op.filterOp value, value'⟩ := by
  rcases negated_eq_some h with ⟨rfl, rfl⟩ | ⟨rfl, rfl⟩ <;>
    cases hv : isNumericLiteral value <;>
    simp [ComparisonOp.filterOp, hv, evaluateFilterCondition, fieldPresent_of_text hfield]

theorem evaluate_negated_null (h : op.negated = some op') (rt : FilterRuntime)
    (document : Document) (field : Bytes) :
    evaluateFilterCondition rt document (Operand.null.condition field op') =
      !evaluateFilterCondition rt document (Operand.null.condition field op) := by
  rcases negated_eq_some h with ⟨rfl, rfl⟩ | ⟨rfl, rfl⟩ <;>
    simp [Operand.condition, evaluateFilterCondition, bne]

/-! ## `NOT P` against `P` -/

/-- The text `text'` keeps a document that has the field exactly if `text` does not. -/
def Complements (rt : FilterRuntime) (field text text' : Bytes) : Prop :=
  ∀ document : Document, fieldText rt document field ≠ [] →
    matchesFilter rt text' document = !matchesFilter rt text document

def ComparesEqual (tokens : List Bytes) : Prop :=
  ∃ op value, IsEquality tokens op value ∧ (isNullText value = true ∨ ∃ b ∈ value, isSpace b = false)

theorem skipWhitespace_eq_nil : skipWhitespace s = [] ↔ ¬∃ b ∈ s, isSpace b = false := by
  simp [skipWhitespace, List.dropWhile_eq_nil_iff]

theorem exists_fieldText (rt : FilterRuntime) (field : Bytes) :
    ∃ document : Document, fieldText rt document field ≠ [] := by
  refine ⟨(∅ : Document).insert field (lit "x"), ?_⟩
  have h : ((∅ : Document).insert field (lit "x"))[field]? = some (lit "x") := by
    rw [ByteMap.get_insert, if_pos rfl]
  unfold fieldText
  simp [lit]

theorem not_complements_self (rt : FilterRuntime) (field text : Bytes) :
    ¬Complements rt field text text := by
  intro h
  obtain ⟨document, hd⟩ := exists_fieldText rt field
  have := h document hd
  cases hm : matchesFilter rt text document <;> simp [hm] at this

/-- **On a plain field the two equalities are complementary exactly if the literal is null or not
blank.** -/
theorem complements_equality_iff (hfield : PlainField field) (hneg : op.negated = some op')
    (h : buildRenderedComparison field op value = .ok text)
    (h' : buildRenderedComparison field op' value = .ok text') (rt : FilterRuntime) :
    Complements rt field text text' ↔ isNullText value = true ∨ ∃ b ∈ value, isSpace b = false := by
  have hequality := negated_eq_some hneg
  have hop : op = .eq ∨ op = .ne := by rcases hequality with ⟨h, -⟩ | ⟨h, -⟩ <;> simp [h]
  have hop' : op' = .eq ∨ op' = .ne := by rcases hequality with ⟨-, h⟩ | ⟨-, h⟩ <;> simp [h]
  obtain ⟨rfl, hacc⟩ := @buildRenderedComparison_eq_ok field text op (.literal value) h
  obtain ⟨rfl, -⟩ := @buildRenderedComparison_eq_ok field text' op' (.literal value) h'
  simp only [Operand.value]
  cases hnull : isNullText value with
  | true =>
    simp only [true_or, iff_true]
    intro document _
    rw [matchesFilter_nullText hfield hnull, matchesFilter_nullText hfield hnull,
      evaluate_negated_null hneg]
  | false =>
    have hvalue : chr '&' ∉ value ∧ chr '|' ∉ value :=
      notMem_of_acceptsFilterLiteral (by simpa [Predicate.Accepted, Operand.value, hnull] using hacc)
    simp only [Bool.false_eq_true, false_or]
    rw [literalText_eq field op hnull, literalText_eq field op' hnull]
    constructor
    · intro hc
      by_contra hblank
      obtain ⟨document, hd⟩ := exists_fieldText rt field
      have := hc document hd
      rw [matchesFilter_equality hfield hop hvalue, matchesFilter_equality hfield hop' hvalue,
        if_pos (skipWhitespace_eq_nil.mpr hblank), if_pos (skipWhitespace_eq_nil.mpr hblank)] at this
      cases this
    · intro hnonblank document hd
      have hne : skipWhitespace value ≠ [] := fun e => skipWhitespace_eq_nil.mp e hnonblank
      rw [matchesFilter_equality hfield hop hvalue, matchesFilter_equality hfield hop' hvalue,
        if_neg hne, if_neg hne, evaluate_negated hneg value _ hd]

/-- **`NOT P` is the complement of `P` for the equalities only.** For `P` a predicate that starts
with its field and is read to its end, and both `P` and `NOT P` accepted as a WHERE clause: if the
two texts are complementary then `P` is an equality with a literal that is null or not blank, and on
a plain field these are complementary. -/
theorem not_complements_iff {scope : Scope} {f k field : Bytes} {ts : List Bytes} {n : Nat}
    (hf : referenceOf scope f = some field) (hstart : ¬Keyword (lit "NOT") f)
    (hk : Keyword (lit "NOT") k)
    (hwhole : ∃ t m, parseComparison scope ⟨f :: ts, n⟩ = .ok (t, ⟨[], m⟩))
    {text text' : Bytes} {rest rest' : Cursor}
    (h : parseExpression scope ⟨f :: ts, n⟩ = .ok (text, rest))
    (h' : parseExpression scope ⟨k :: f :: ts, n⟩ = .ok (text', rest')) (rt : FilterRuntime) :
    (Complements rt field text text' → ∃ op value, IsEquality ts op value) ∧
      (PlainField field → (Complements rt field text text' ↔ ComparesEqual ts)) := by
  -- both clauses are the predicate, read with and without the flag
  have hnot : optionalKeyword (lit "NOT") (f :: ts) = (false, f :: ts) := by
    have : toUpper f ≠ lit "NOT" := hstart
    simp [optionalKeyword, matchKeyword, this]
  have hnot' : optionalKeyword (lit "NOT") (k :: f :: ts) = (true, f :: ts) := by
    have : toUpper k = lit "NOT" := hk
    simp [optionalKeyword, matchKeyword, this]
  have hopen : f ≠ lit "(" := by
    rintro rfl
    cases hf
  have hgroup : startsGroup (f :: ts) = false := by simp [startsGroup, hopen]
  have hgroup' : startsGroup (k :: f :: ts) = false := by
    have : k ≠ lit "(" := by rintro rfl; exact absurd hk (by unfold Keyword; decide)
    simp [startsGroup, this]
  have hneg : startsNegatedGroup (f :: ts) = false := by
    cases ts with
    | nil => rfl
    | cons t ts =>
      have : toUpper f ≠ lit "NOT" := hstart
      simp [startsNegatedGroup, this]
  have hneg' : startsNegatedGroup (k :: f :: ts) = false := by simp [startsNegatedGroup, hopen]
  obtain ⟨t, m, ht⟩ := hwhole
  obtain ⟨⟨t', r'⟩, ht'⟩ := parseComparison_of_expression hgroup' hneg' h'
  have htext := parseExpression_of_comparison hgroup hneg ht rfl
  obtain ⟨rfl, rfl⟩ := Prod.mk.inj (Except.ok.inj (h.symm.trans htext))
  have hp := parsePredicate_of_comparison hnot hf ht
  have hp' := parsePredicate_of_comparison hnot' hf ht'
  obtain ⟨hr', hcases⟩ := parsePredicate_negated hp hp'
  have htext' := parseExpression_of_comparison hgroup' hneg' ht' hr'
  obtain ⟨rfl, rfl⟩ := Prod.mk.inj (Except.ok.inj (h'.symm.trans htext'))
  rcases hcases with ⟨rfl, hno⟩ | ⟨o, v, op, op', value, rfl, ho, hnegated, hv, hb, hb'⟩
  · refine ⟨fun hc => absurd hc (not_complements_self rt field _), fun _ => ?_⟩
    constructor
    · intro hc
      exact absurd hc (not_complements_self rt field _)
    · rintro ⟨op, value, heq, -⟩
      exact absurd heq (hno op value)
  · have hop : op = .eq ∨ op = .ne := by
      rcases negated_eq_some hnegated with ⟨h, -⟩ | ⟨h, -⟩ <;> simp [h]
    have heq : IsEquality [o, v] op value := ⟨o, v, rfl, ho, hop, hv⟩
    refine ⟨fun _ => ⟨op, value, heq⟩, fun hfield => ?_⟩
    rw [complements_equality_iff hfield hnegated hb hb' rt]
    constructor
    · intro hvalue
      exact ⟨op, value, heq, hvalue⟩
    · rintro ⟨op₁, value₁, ⟨o₁, v₁, he, -, -, hv₁⟩, hvalue⟩
      obtain ⟨rfl, rfl⟩ : o = o₁ ∧ v = v₁ := by simpa using he
      obtain rfl := Option.some.inj (hv.symm.trans hv₁)
      exact hvalue

theorem not_complements_tag : PlainField (lit "tag") ∧ ∀ rt : FilterRuntime,
      (Complements rt (lit "tag") (lit "tag::=x") (lit "tag:!=x") →
        ∃ op value, IsEquality [lit "=", lit "'x'"] op value) ∧
      (PlainField (lit "tag") → (Complements rt (lit "tag") (lit "tag::=x") (lit "tag:!=x") ↔
        ComparesEqual [lit "=", lit "'x'"])) := by
  have hwhole : ∃ t m, parseComparison ⟨lit "docs", [], ∅⟩ ⟨[lit "tag", lit "=", lit "'x'"], 0⟩ =
      .ok (t, ⟨[], m⟩) := ⟨lit "tag::=x", 1, by decide +kernel⟩
  have h : parseExpression ⟨lit "docs", [], ∅⟩ ⟨[lit "tag", lit "=", lit "'x'"], 0⟩ =
      .ok (lit "tag::=x", ⟨[], 1⟩) := by decide +kernel
  have h' : parseExpression ⟨lit "docs", [], ∅⟩ ⟨[lit "NOT", lit "tag", lit "=", lit "'x'"], 0⟩ =
      .ok (lit "tag:!=x", ⟨[], 1⟩) := by decide +kernel
  have hf : referenceOf ⟨lit "docs", [], ∅⟩ (lit "tag") = some (lit "tag") := by decide +kernel
  refine ⟨⟨by decide, by decide +kernel, by decide⟩, ?_⟩
  exact not_complements_iff hf (by unfold Keyword; decide) (by unfold Keyword; decide) hwhole h h'

/-- `NOT tag LIKE 'x'` is translated like `tag LIKE 'x'`, so the two keep the same documents. -/
theorem negated_like_same_text :
    tokenize (lit "NOT tag LIKE 'x'") = .ok [lit "NOT", lit "tag", lit "LIKE", lit "'x'"] ∧
    parseExpression ⟨lit "docs", [], ∅⟩ ⟨[lit "tag", lit "LIKE", lit "'x'"], 0⟩ =
      .ok (lit "tag:LIKE:x", ⟨[], 1⟩) ∧
    parseExpression ⟨lit "docs", [], ∅⟩ ⟨[lit "NOT", lit "tag", lit "LIKE", lit "'x'"], 0⟩ =
      .ok (lit "tag:LIKE:x", ⟨[], 1⟩) ∧
    ∀ rt : FilterRuntime, ¬Complements rt (lit "tag") (lit "tag:LIKE:x") (lit "tag:LIKE:x") :=
  ⟨by decide +kernel, by decide +kernel, by decide +kernel, fun rt => not_complements_self rt _ _⟩

end Hlquery.Sql
