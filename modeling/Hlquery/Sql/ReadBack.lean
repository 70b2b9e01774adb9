import Hlquery.Sql.Meaning

/-!
# What the filter parser reads back

The SQL parser writes a field, a colon, an operator and a literal one behind the other, and the
filter parser has to find them again in the text. It does so for plain fields and literals: a field
of letters, digits and underscores, and a literal that does not start or end with white space, that
has no closing parenthesis and does not continue the operator in front of it. For these, every
single comparison is read back as exactly the condition it was written for, and for no others.

The literals are checked by the SQL parser for characters that mean something in a filter, which
leaves the few cases above. The fields are not checked at all: in backquotes they may hold a whole
filter.
-/

set_option autoImplicit false

namespace Hlquery.Sql

open Bytes Filter

/-! ## The conditions that are meant -/

/-- The filter operator for a comparison. Equality has two, for numbers and for texts. -/
def ComparisonOp.filterOp (op : ComparisonOp) (value : Bytes) : FilterOp :=
  match op with
  | eq => if isNumericLiteral value then .eq else .colonEq
  | ne => .ne
  | gt => .gt
  | ge => .ge
  | lt => .lt
  | le => .le

def likeOp (caseInsensitive negate : Bool) : FilterOp :=
  match caseInsensitive, negate with
  | false, false => .like
  | false, true => .notLike
  | true, false => .iLike
  | true, true => .notILike

/-- The condition a comparison stands for: a null test for the keyword `NULL`, and otherwise the
operator with the literal. -/
def Operand.condition (field : Bytes) (op : ComparisonOp) : Operand → FilterCondition
  | null => ⟨field, if op = .eq then .isNull else .isNotNull, []⟩
  | literal value => ⟨field, op.filterOp value, value⟩

def Predicate.conditions (field : Bytes) : Predicate → List FilterCondition
  | compare op operand => [operand.condition field op]
  | between false low high => [⟨field, .rangeInclusive, low ++ chr ',' :: high⟩]
  | between true low high => [⟨field, .lt, low⟩, ⟨field, .gt, high⟩]
  | like caseInsensitive negate value =>
      [⟨field, likeOp caseInsensitive negate, convertLikePattern false value⟩]
  | contains negate value => [⟨field, likeOp false negate, lit "*" ++ value ++ lit "*"⟩]
  | isIn negate operands => operands.map (Operand.condition field (inListOp negate))

/-! ## Plain fields and literals -/

/-- A field the filter parser can find: letters, digits and underscores, and not the start of a geo
condition. -/
def PlainField (field : Bytes) : Prop :=
  field ≠ [] ∧ (∀ b ∈ field, isFieldByte b = true) ∧ startsGeo field = false

def blankStart (s : Bytes) : Bool := s.head?.any isSpace

/-- Whether the text ends with a byte that `Trim` removes. -/
def blankEnd (s : Bytes) : Bool := s.getLast?.any isTrimmed

/-- A literal that is read as it is written. Only a `nan` with a payload has a parenthesis. -/
def PlainValue (value : Bytes) : Prop :=
  value ≠ [] ∧ blankStart value = false ∧ blankEnd value = false ∧ chr ')' ∉ value

/-- A bound behind `<` or `>` must not turn it into `<=` or `>=`. -/
def PlainBound (value : Bytes) : Prop := PlainValue value ∧ value.head? ≠ some (chr '=')

/-- The bounds of a range: neither is blank at an end, and the first ` TO ` is the one between
them. -/
def PlainRange (low high : Bytes) : Prop :=
  (low ≠ [] ∧ trim low = low) ∧ (high ≠ [] ∧ trim high = high) ∧
    contains (low ++ lit " TO") (lit " TO ") = false

/-- A pattern is plain if what it is converted to is: its first character may be escaped. -/
def PlainPattern (value : Bytes) : Prop :=
  blankStart value = false ∧ (value.head? = some (chr '\\') → blankStart value.tail = false) ∧
    blankEnd value = false ∧ chr ')' ∉ value

def Operand.Plain (op : ComparisonOp) : Operand → Prop
  | null => True
  | literal value =>
      isNullText value = false ∧ PlainValue value ∧
        (op = .gt ∨ op = .lt → value.head? ≠ some (chr '='))

def Predicate.PlainLiterals : Predicate → Prop
  | compare op operand => operand.Plain op
  | between false low high => PlainRange low high
  | between true low high => PlainBound low ∧ PlainBound high
  | like _ _ value => PlainPattern value
  | contains _ value => chr ')' ∉ value
  | isIn negate operands => ∀ operand ∈ operands, operand.Plain (inListOp negate)

/-! ## Trimming -/

theorem trim_length_le (s : Bytes) : (trim s).length ≤ s.length := by
  unfold trim
  rw [List.length_reverse]
  calc ((s.dropWhile isTrimmed).reverse.dropWhile isTrimmed).length
      ≤ (s.dropWhile isTrimmed).reverse.length := length_dropWhile_le _ _
    _ = (s.dropWhile isTrimmed).length := List.length_reverse
    _ ≤ s.length := length_dropWhile_le _ _

theorem dropWhile_eq_self_iff {q : UInt8 → Bool} {s : Bytes} :
    s.dropWhile q = s ↔ s.head?.any q = false := by
  cases s with
  | nil => simp
  | cons b s =>
    cases hb : q b with
    | true =>
      simp only [List.dropWhile, hb, List.head?_cons, Option.any_some]
      constructor
      · intro h
        have := length_dropWhile_le q s
        rw [h, List.length_cons] at this
        omega
      · nofun
    | false => simp [List.dropWhile, hb]

theorem trim_eq_self_iff {s : Bytes} :
    trim s = s ↔ s.head?.any isTrimmed = false ∧ blankEnd s = false := by
  unfold blankEnd
  constructor
  · intro h
    -- nothing is cut off at the front, so nothing is at the end
    have hfront : s.dropWhile isTrimmed = s := by
      refine (List.dropWhile_suffix isTrimmed).eq_of_length ?_
      have h₁ := length_dropWhile_le isTrimmed s
      have h₂ := length_dropWhile_le isTrimmed (s.dropWhile isTrimmed).reverse
      have h₃ := congrArg List.length h
      unfold trim at h₃
      rw [List.length_reverse] at h₃ h₂
      omega
    refine ⟨dropWhile_eq_self_iff.mp hfront, ?_⟩
    unfold trim at h
    rw [hfront] at h
    have hback : s.reverse.dropWhile isTrimmed = s.reverse := by
      rw [← List.reverse_reverse (s.reverse.dropWhile isTrimmed), h]
    simpa using dropWhile_eq_self_iff.mp hback
  · rintro ⟨hhead, hlast⟩
    unfold trim
    rw [dropWhile_eq_self_iff.mpr hhead, dropWhile_eq_self_iff.mpr (by simpa using hlast),
      List.reverse_reverse]

theorem trim_middle (s : Bytes) : trim s <:+: s := by
  have h : ((s.dropWhile isTrimmed).reverse.dropWhile isTrimmed).reverse <+:
      (s.dropWhile isTrimmed).reverse.reverse :=
    List.reverse_prefix.mpr (List.dropWhile_suffix _)
  rw [List.reverse_reverse] at h
  exact h.isInfix.trans (List.dropWhile_suffix _).isInfix

theorem isSpace_of_isTrimmed {b : UInt8} (h : isTrimmed b = true) : isSpace b = true := by
  revert b
  decide +kernel

/-- A value is read back as it was written exactly if it is plain. The literals of SQL have no
connectors, so only a parenthesis can end the value early. -/
theorem plainValue_iff {value : Bytes} (hvalue : chr '&' ∉ value ∧ chr '|' ∉ value) :
    trim (takeUntil endsValue (skipWhitespace value)).1 ≠ [] ∧
        trim (takeUntil endsValue (skipWhitespace value)).1 = value ∧
        skipWhitespace (takeUntil endsValue (skipWhitespace value)).2 = [] ↔
      PlainValue value := by
  have hskip : skipWhitespace value = value ↔ blankStart value = false := dropWhile_eq_self_iff
  have htake : chr ')' ∉ value →
      takeUntil endsValue (skipWhitespace value) = (skipWhitespace value, []) := by
    intro hclose
    refine takeUntil_eq_self fun v hne hv => ?_
    cases v with
    | nil => exact absurd rfl hne
    | cons b v =>
      by_contra hend
      have hb : b ∈ value := (skipWhitespace_suffix value).subset (hv.subset (by simp))
      have hdelim := endsValue_cons (by simpa using hend)
      obtain ⟨hamp, hbar⟩ := hvalue
      simp only [delimiters, lit] at hdelim
      have : b = chr ')' ∨ b = chr '&' ∨ b = chr '|' := by simpa [chr] using hdelim
      rcases this with rfl | rfl | rfl
      · exact hclose hb
      · exact hamp hb
      · exact hbar hb
  constructor
  · rintro ⟨hne, heq, -⟩
    have hclose : chr ')' ∉ value := by
      intro hmem
      rw [← heq] at hmem
      exact notMem_takeUntil (fun s => by simp [endsValue]) _ ((trim_middle _).subset hmem)
    rw [htake hclose] at heq hne
    -- nothing was cut off: neither white space in front nor at the end
    have hskip' : skipWhitespace value = value := by
      refine (skipWhitespace_suffix value).eq_of_length ?_
      have h₁ := trim_length_le (skipWhitespace value)
      have h₂ := length_skipWhitespace_le value
      have h₃ := congrArg List.length heq
      dsimp only at h₃
      omega
    rw [hskip'] at heq hne
    exact ⟨heq ▸ hne, hskip.mp hskip', (trim_eq_self_iff.mp heq).2, hclose⟩
  · rintro ⟨hne, hstart, hend, hclose⟩
    have htrim : trim value = value := by
      refine trim_eq_self_iff.mpr ⟨?_, hend⟩
      unfold blankStart at hstart
      cases value with
      | nil => rfl
      | cons b v =>
        simp only [List.head?_cons, Option.any_some] at hstart ⊢
        by_contra hb
        rw [isSpace_of_isTrimmed (by simpa using hb)] at hstart
        cases hstart
    rw [htake hclose, hskip.mpr hstart]
    exact ⟨by simpa [htrim] using hne, htrim, rfl⟩

/-! ## Fields -/

theorem isFieldByte_start {b : UInt8} (h : isFieldByte b = true) :
    isSpace b = false ∧ b ≠ chr '!' ∧ b ≠ chr '(' := by
  revert b
  decide +kernel

/-- A text that starts with a geo name and goes on like a field is no condition. -/
theorem geoCondition_field {field s : Bytes} (hbytes : ∀ b ∈ field, isFieldByte b = true)
    (hgeo : startsGeo field = true) : geoCondition (field ++ chr ':' :: s) = none := by
  have hcons : ∀ name t : Bytes, field = name ++ t →
      ∃ b r, (field ++ chr ':' :: s).drop name.length = b :: r ∧ isSpace b = false ∧ b ≠ chr '(' := by
    rintro name t rfl
    cases t with
    | nil => exact ⟨chr ':', s, by simp, by decide, by decide⟩
    | cons b t =>
      obtain ⟨hspace, -, hopen⟩ := isFieldByte_start (hbytes b (by simp))
      exact ⟨b, t ++ chr ':' :: s, by simp, hspace, hopen⟩
  unfold geoCondition
  rw [startsWith_geoRadiusName_append hgeo]
  cases hr : startsWith field geoRadiusName with
  | true =>
    obtain ⟨t, ht⟩ := startsWith_iff.mp hr
    obtain ⟨b, r, hdrop, hspace, hopen⟩ := hcons _ t ht
    simp [hdrop, skipWhitespace_cons hspace, if_neg hopen]
  | false =>
    have hbox : startsWith field geoBoxName = true := by simpa [startsGeo, hr] using hgeo
    obtain ⟨t, ht⟩ := startsWith_iff.mp hbox
    obtain ⟨b, r, hdrop, hspace, hopen⟩ := hcons _ t ht
    simp [hdrop, skipWhitespace_cons hspace, if_neg hopen]

theorem startsGeo_field (field s : Bytes) :
    startsGeo (field ++ chr ':' :: s) = startsGeo field := by
  unfold startsGeo
  rw [startsWith_append_of_notMem (b := chr ':') (by decide) (.inr rfl),
    startsWith_append_of_notMem (b := chr ':') (by decide) (.inr rfl)]

variable {field : Bytes}

theorem fieldName_field (hne : field ≠ [])
    (hbytes : ∀ b ∈ field, isFieldByte b = true) (s : Bytes) :
    fieldName (field ++ chr ':' :: s) = some (field, skipWhitespace s) := by
  refine fieldName_eq_some.mpr ⟨?_, hne, s, ?_, rfl⟩
  · rw [takeWhile_append_of_not (by decide), List.takeWhile_eq_self_iff.mpr hbytes]
  · rw [dropWhile_append_of_not (by decide), List.dropWhile_eq_nil_iff.mpr hbytes]
    rfl

/-- **The field of a rendered text is read back exactly if it is plain**, and then the rest of the
text is read as the test on it. -/
theorem parse_field_iff {field s : Bytes} {c : FilterCondition} (hc : c.field = field) :
    Filter.parse (field ++ chr ':' :: s) = some (.condition c) ↔ PlainField field ∧
        ∃ r, parseTest field (skipWhitespace s) = some (c, r) ∧ skipWhitespace r = [] := by
  by_cases hbytes : field ≠ [] ∧ ∀ b ∈ field, isFieldByte b = true
  · obtain ⟨b, f, rfl⟩ := List.exists_cons_of_ne_nil hbytes.1
    obtain ⟨hspace, hnot, hopen⟩ := isFieldByte_start (hbytes.2 b (by simp))
    rw [List.cons_append, parse_eq_condition_of_cons hspace hnot hopen]
    rw [← List.cons_append]
    have hskip : skipWhitespace (b :: f ++ chr ':' :: s) = b :: f ++ chr ':' :: s :=
      skipWhitespace_cons hspace _
    generalize b :: f = field at hbytes hc hskip ⊢
    unfold parseCondition
    rw [hskip]
    dsimp only
    rw [startsGeo_field]
    cases hg : startsGeo field with
    | true =>
      simp only [if_true, geoCondition_field hbytes.2 hg]
      constructor
      · rintro ⟨r, h, -⟩; cases h
      · rintro ⟨⟨-, -, h⟩, -⟩; exact absurd (hg.symm.trans h) (by simp)
    | false =>
      refine (exists_congr fun r => ?_).trans
        (and_iff_right (a := PlainField field) ⟨hbytes.1, hbytes.2, hg⟩).symm
      refine and_congr_left fun _ => ?_
      simp [Parser.andThen, fieldName_field hbytes.1 hbytes.2]
  · constructor
    · intro h
      exact absurd (hc ▸ field_of_parse h) hbytes
    · rintro ⟨⟨hne, hall, -⟩, -⟩
      exact absurd ⟨hne, hall⟩ hbytes

/-! ## Operators -/

/-- The test behind the colon is a comparison with this operator and this value. -/
structure IsTest (text : Bytes) (op : FilterOp) (value : Bytes) : Prop where
  noSpace : skipWhitespace text = text
  noRange : text.head?.bind rangeOpening = none
  noNull : matchFirst nullOps text = none
  operator : parseOperator text = (op, value)

theorem IsTest.parseTest_eq {text value : Bytes} {op : FilterOp} (h : IsTest text op value)
    (field : Bytes) : parseTest field (skipWhitespace text) = Filter.parseComparison field text := by
  unfold parseTest
  simp [h.noSpace, h.noRange, h.noNull]

/-- **A test is read back exactly if its literal is plain.** -/
theorem IsTest.read_iff {text value : Bytes} {op : FilterOp} (h : IsTest text op value)
    (hvalue : chr '&' ∉ value ∧ chr '|' ∉ value) (field : Bytes) :
    (∃ r, parseTest field (skipWhitespace text) = some (⟨field, op, value⟩, r) ∧
      skipWhitespace r = []) ↔ PlainValue value := by
  have hstart : valueStart text = skipWhitespace value := by
    unfold valueStart
    rw [h.operator]
  rw [← plainValue_iff hvalue, h.parseTest_eq]
  simp only [parseComparison_eq_some, hstart, h.operator, FilterCondition.mk.injEq, true_and]
  constructor
  · rintro ⟨r, ⟨hne, heq, rfl⟩, hblank⟩
    exact ⟨hne, heq.symm, hblank⟩
  · rintro ⟨hne, heq, hblank⟩
    exact ⟨_, ⟨hne, heq.symm, rfl⟩, hblank⟩

theorem isTest_op {op : ComparisonOp} {value : Bytes}
    (h : op = .gt ∨ op = .lt → value.head? ≠ some (chr '=')) (hne : op ≠ .eq) :
    IsTest (op.text ++ value) (op.filterOp value) value := by
  cases op with
  | eq => exact absurd rfl hne
  | ne | ge | le => constructor <;> rfl
  | gt | lt =>
    have hhead : value.head? ≠ some (chr '=') := h (by simp)
    cases value with
    | nil => constructor <;> rfl
    | cons b v =>
      have hb : (61 : UInt8) ≠ b := fun e => hhead (by simp [← e, chr])
      refine ⟨rfl, rfl, rfl, ?_⟩
      simp [ComparisonOp.text, ComparisonOp.filterOp, lit, matchFirst, startsWith, parseOperator,
        likeOps, twoCharOps, oneCharOps, List.isPrefixOf, hb]

theorem isTest_renderedOp {op : ComparisonOp} {value : Bytes}
    (h : op = .gt ∨ op = .lt → value.head? ≠ some (chr '=')) :
    IsTest (renderedOp op value ++ value) (op.filterOp value) value := by
  by_cases hop : op = .eq
  · subst hop
    unfold renderedOp ComparisonOp.filterOp
    cases isNumericLiteral value <;> constructor <;> rfl
  · have hrendered : renderedOp op value = op.text := by simp [renderedOp, hop]
    rw [hrendered]
    exact isTest_op h hop

/-- Where the literal continues the operator, another operator is read. -/
theorem read_continued {op : ComparisonOp} {value r : Bytes} (hop : op = .gt ∨ op = .lt)
    (hvalue : value.head? = some (chr '=')) :
    parseTest field (skipWhitespace (op.text ++ value)) ≠
      some (⟨field, op.filterOp value, value⟩, r) := by
  cases value with
  | nil => cases hvalue
  | cons b v =>
    cases hvalue
    intro htest
    have htext : IsTest (op.text ++ chr '=' :: v) (if op = .gt then .ge else .le) v := by
      rcases hop with rfl | rfl <;> exact ⟨rfl, rfl, rfl, rfl⟩
    rw [htext.parseTest_eq, parseComparison_eq_some, htext.operator] at htest
    have hread := (FilterCondition.mk.inj htest.2.1).2.1
    rcases hop with rfl | rfl <;> cases hread

/-! ## Comparisons -/

theorem nullText_eq (field : Bytes) (op : ComparisonOp) {value : Bytes}
    (h : isNullText value = true) :
    comparisonText field op value =
      field ++ chr ':' :: (if op = .eq then lit "ISNULL" else lit "ISNOTNULL") := by
  unfold comparisonText
  split_ifs <;> rfl

theorem literalText_eq (field : Bytes) (op : ComparisonOp) {value : Bytes}
    (h : isNullText value = false) :
    comparisonText field op value = field ++ chr ':' :: (renderedOp op value ++ value) := by
  unfold comparisonText
  rw [if_neg (by simp [h])]
  simp [lit, chr]

/-- The null tests, and nothing else, are read off their words. -/
theorem read_nullText_iff {op : ComparisonOp} {c : FilterCondition}
    (hc : c.field = field) {value : Bytes} (h : isNullText value = true) :
    Filter.parse (comparisonText field op value) = some (.condition c) ↔
      PlainField field ∧ c = Operand.null.condition field op := by
  rw [nullText_eq field op h, parse_field_iff hc]
  refine and_congr_right fun _ => ?_
  have htest : parseTest field (skipWhitespace (if op = .eq then lit "ISNULL" else lit "ISNOTNULL")) =
      some (Operand.null.condition field op, []) := by
    cases op <;> rfl
  rw [htest]
  constructor
  · rintro ⟨r, he, -⟩; exact (Prod.mk.inj (Option.some.inj he)).1.symm
  · rintro rfl; exact ⟨[], rfl, rfl⟩

theorem filterOp_ne_null (op op' : ComparisonOp) (value : Bytes) :
    op.filterOp value ≠ if op' = .eq then .isNull else .isNotNull := by
  cases op <;> simp only [ComparisonOp.filterOp] <;> split_ifs <;> simp

/-- **A comparison is read back exactly if its field and its operand are plain.** -/
theorem read_comparisonText_iff {op : ComparisonOp} {operand : Operand}
    (hacc : isNullText operand.value ∨ acceptsFilterLiteral operand.value) :
    Filter.parse (comparisonText field op operand.value) =
        some (.condition (operand.condition field op)) ↔
      PlainField field ∧ operand.Plain op := by
  cases operand with
  | null =>
    refine (@read_nullText_iff field op _ rfl _ (by decide)).trans ?_
    exact and_congr_right fun _ => by simp [Operand.Plain]
  | literal value =>
    cases hnull : isNullText value with
    | true =>
      -- a quoted `null` is taken for the null value
      refine (read_nullText_iff (c := (Operand.literal value).condition field op) rfl hnull).trans ?_
      refine and_congr_right fun _ => ?_
      simp only [Operand.condition, Operand.Plain, FilterCondition.mk.injEq, hnull,
        Bool.true_eq_false, false_and, iff_false, true_and, not_and]
      exact fun h => absurd h (filterOp_ne_null op op value)
    | false =>
      have hvalue : chr '&' ∉ value ∧ chr '|' ∉ value :=
        notMem_of_acceptsFilterLiteral (by simpa [Operand.value, hnull] using hacc)
      show Filter.parse (comparisonText field op value) = _ ↔ _
      rw [literalText_eq field op hnull]
      refine (parse_field_iff (c := (Operand.literal value).condition field op) rfl).trans ?_
      refine and_congr_right fun _ => ?_
      simp only [Operand.Plain, hnull, true_and, Operand.condition]
      by_cases hcont : op = .gt ∨ op = .lt → value.head? ≠ some (chr '=')
      · rw [(isTest_renderedOp hcont).read_iff hvalue, and_iff_left hcont]
      simp only [hcont, and_false, iff_false]
      rintro ⟨r, htest, -⟩
      obtain ⟨hop, hhead⟩ := Classical.not_imp.mp hcont
      have hrendered : renderedOp op value = op.text := by
        rcases hop with rfl | rfl <;> simp [renderedOp]
      rw [hrendered] at htest
      exact read_continued hop (not_not.mp hhead) htest

/-- A bound of `NOT BETWEEN`, which is not looked at for the null value. -/
theorem read_boundText_iff (field : Bytes) {value : Bytes} {op : ComparisonOp} (hop : op = .gt ∨ op = .lt)
    (hvalue : chr '&' ∉ value ∧ chr '|' ∉ value) :
    Filter.parse (boundText field op value) = some (.condition ⟨field, op.filterOp value, value⟩) ↔
      PlainField field ∧ PlainBound value := by
  have htext : boundText field op value = field ++ chr ':' :: (op.text ++ value) := by
    simp [boundText, lit, chr]
  rw [htext]
  refine (parse_field_iff (c := ⟨field, op.filterOp value, value⟩) rfl).trans ?_
  refine and_congr_right fun _ => ?_
  by_cases hhead : value.head? = some (chr '=')
  · simp only [PlainBound, hhead, ne_eq, not_true_eq_false, and_false, iff_false]
    rintro ⟨r, htest, -⟩
    exact read_continued hop hhead htest
  · rw [(isTest_op (fun _ => hhead) (by rcases hop with rfl | rfl <;> simp)).read_iff hvalue]
    exact ⟨fun h => ⟨h, hhead⟩, fun h => h.1⟩

/-! ## Patterns -/

theorem isTest_like (caseInsensitive negate : Bool) (pattern : Bytes) :
    IsTest ((if negate then lit "NOT_" else []) ++
        (if caseInsensitive then lit "ILIKE:" else lit "LIKE:") ++ pattern)
      (likeOp caseInsensitive negate) pattern := by
  cases caseInsensitive <;> cases negate <;> constructor <;> rfl

theorem likeText_eq (field : Bytes) (caseInsensitive negate : Bool) (pattern : Bytes) :
    likeText field caseInsensitive negate pattern =
      field ++ chr ':' :: ((if negate then lit "NOT_" else []) ++
        (if caseInsensitive then lit "ILIKE:" else lit "LIKE:") ++ pattern) := by
  simp [likeText, lit, chr]

theorem read_likeText_iff (field : Bytes) (caseInsensitive negate : Bool) {pattern : Bytes}
    (hpattern : chr '&' ∉ pattern ∧ chr '|' ∉ pattern) :
    Filter.parse (likeText field caseInsensitive negate pattern) =
        some (.condition ⟨field, likeOp caseInsensitive negate, pattern⟩) ↔
      PlainField field ∧ PlainValue pattern := by
  rw [likeText_eq]
  refine (parse_field_iff (c := ⟨field, likeOp caseInsensitive negate, pattern⟩) rfl).trans ?_
  exact and_congr_right fun _ => (isTest_like caseInsensitive negate pattern).read_iff hpattern field

theorem convertLikePattern_ne_nil {escape : Bool} {value : Bytes} (h : value ≠ [] ∨ escape = true) :
    convertLikePattern escape value ≠ [] := by
  induction value generalizing escape with
  | nil =>
    obtain rfl : escape = true := h.resolve_left (by simp)
    simp [convertLikePattern]
  | cons b s ih =>
    cases escape with
    | true => simp [convertLikePattern]
    | false =>
      simp only [convertLikePattern]
      split_ifs
      · exact ih (.inr rfl)
      all_goals simp

/-- The conversion keeps the last character, or replaces it by a wildcard. -/
theorem blankEnd_convertLikePattern {value : Bytes} (hne : value ≠ []) (escape : Bool) :
    blankEnd (convertLikePattern escape value) = blankEnd value := by
  induction value generalizing escape with
  | nil => exact absurd rfl hne
  | cons b s ih =>
    cases s with
    | nil =>
      cases escape with
      | true => rfl
      | false =>
        simp only [convertLikePattern]
        split_ifs with h₁ h₂ h₃
        · rw [h₁]
        · rw [h₂]; decide
        · rw [h₃]; decide
        · rfl
    | cons b' s =>
      have hlast : ∀ (x : UInt8) (t : Bytes), t ≠ [] → blankEnd (x :: t) = blankEnd t := by
        intro x t ht
        obtain ⟨y, t, rfl⟩ := List.exists_cons_of_ne_nil ht
        simp [blankEnd]
      have hnil : ∀ e, convertLikePattern e (b' :: s) ≠ [] :=
        fun e => convertLikePattern_ne_nil (.inl (by simp))
      have ih' := fun e => ih (by simp) e
      cases escape with
      | true =>
        rw [convertLikePattern, hlast _ _ (hnil _)]
        exact ih' _
      | false =>
        rw [convertLikePattern]
        split_ifs
        · exact ih' _
        · rw [hlast _ _ (hnil _)]; exact ih' _
        · rw [hlast _ _ (hnil _)]; exact ih' _
        · rw [hlast _ _ (hnil _)]; exact ih' _

theorem mem_convertLikePattern {value : Bytes} (escape : Bool) :
    chr ')' ∈ convertLikePattern escape value ↔ chr ')' ∈ value := by
  induction value generalizing escape with
  | nil => cases escape <;> simp [convertLikePattern, chr]
  | cons b s ih =>
    cases escape with
    | true => simp [convertLikePattern, ih]
    | false =>
      simp only [convertLikePattern]
      split_ifs with h₁ h₂ h₃
      · rw [ih, h₁]; simp [chr]
      · rw [List.mem_cons, ih, h₂]; simp [chr]
      · rw [List.mem_cons, ih, h₃]; simp [chr]
      · rw [List.mem_cons, ih, List.mem_cons]

theorem blankStart_convertLikePattern (value : Bytes) :
    blankStart (convertLikePattern false value) = false ↔ blankStart value = false ∧
        (value.head? = some (chr '\\') → blankStart value.tail = false) := by
  cases value with
  | nil => simp [convertLikePattern, blankStart]
  | cons b s =>
    simp only [convertLikePattern]
    split_ifs with h₁ h₂ h₃
    · subst h₁
      cases s with
      | nil => simp [convertLikePattern, blankStart, isSpace, chr]
      | cons b' s => simp [convertLikePattern, blankStart, isSpace, chr]
    · subst h₂; simp [blankStart, isSpace, chr]
    · subst h₃; simp [blankStart, isSpace, chr]
    · simp [blankStart, h₁]

theorem plainPattern_iff {value : Bytes} (hne : convertLikePattern false value ≠ []) :
    PlainValue (convertLikePattern false value) ↔ PlainPattern value := by
  have hvalue : value ≠ [] := by
    rintro rfl
    exact hne rfl
  unfold PlainValue PlainPattern
  rw [blankStart_convertLikePattern, blankEnd_convertLikePattern hvalue, mem_convertLikePattern]
  simp [hne, and_assoc]

theorem plainValue_contains_iff (value : Bytes) :
    PlainValue (lit "*" ++ value ++ lit "*") ↔ chr ')' ∉ value := by
  have hlast : blankEnd (lit "*" ++ value ++ lit "*") = false := by
    unfold blankEnd
    rw [show lit "*" = [chr '*'] from rfl, List.getLast?_concat]
    decide
  unfold PlainValue
  rw [hlast]
  simp [lit, chr, blankStart, isSpace]

/-! ## Ranges -/

theorem rangeText_eq (field low high : Bytes) : rangeText field low high =
      field ++ chr ':' :: (chr '[' :: (low ++ lit " TO " ++ high ++ [chr ']'])) := by
  simp [rangeText, lit, chr]

theorem notMem_range {value : Bytes} (h : acceptsFilterLiteral value = true) :
    chr ']' ∉ value ∧ chr ',' ∉ value := by
  rcases (Bool.or_eq_true _ _).mp h with h | h
  · have hbytes := isNumericByte_of_isNumericLiteral h
    exact ⟨fun hb => absurd (hbytes _ hb) (by decide), fun hb => absurd (hbytes _ hb) (by decide)⟩
  · have hsafe := List.all_eq_true.mp h
    exact ⟨fun hb => absurd (hsafe _ hb) (by decide), fun hb => absurd (hsafe _ hb) (by decide)⟩

theorem blankEnd_trim (s : Bytes) : blankEnd (trim s) = false := by
  unfold blankEnd trim
  rw [List.getLast?_reverse]
  have h := List.head?_dropWhile_not isTrimmed (s.dropWhile isTrimmed).reverse
  cases hd : ((s.dropWhile isTrimmed).reverse.dropWhile isTrimmed).head? with
  | none => rfl
  | some b => simpa [hd] using h

theorem head_trim (s : Bytes) : (trim s).head?.any isTrimmed = false := by
  have hprefix : trim s <+: s.dropWhile isTrimmed := by
    have h := List.reverse_prefix.mpr
      (List.dropWhile_suffix (l := (s.dropWhile isTrimmed).reverse) isTrimmed)
    rwa [List.reverse_reverse] at h
  have h := List.head?_dropWhile_not isTrimmed s
  cases hd : trim s with
  | nil => rfl
  | cons b t =>
    obtain ⟨u, hu⟩ := hd ▸ hprefix
    rw [← hu] at h
    simpa using h

theorem trim_trim (s : Bytes) : trim (trim s) = trim s :=
  trim_eq_self_iff.mpr ⟨head_trim s, blankEnd_trim s⟩

/-- What is trimmed away entirely starts and ends with bytes that `Trim` removes. -/
theorem isTrimmed_of_trim_eq_nil {s : Bytes} (h : trim s = []) :
    ∀ b ∈ s, isTrimmed b = true := by
  have h' : ∀ b ∈ (s.dropWhile isTrimmed).reverse, isTrimmed b = true :=
    List.dropWhile_eq_nil_iff.mp (List.reverse_eq_nil_iff.mp h)
  intro b hb
  rw [← List.takeWhile_append_dropWhile (p := isTrimmed) (l := s), List.mem_append] at hb
  rcases hb with hb | hb
  · exact List.mem_takeWhile_imp hb
  · exact h' b (List.mem_reverse.mpr hb)

theorem trim_append {l s h : Bytes} (hlne : l ≠ []) (hhne : h ≠ []) (hl : trim l = l)
    (hh : trim h = h) : trim (l ++ s ++ h) = l ++ s ++ h := by
  refine trim_eq_self_iff.mpr ⟨?_, ?_⟩
  · obtain ⟨b, t, rfl⟩ := List.exists_cons_of_ne_nil hlne
    exact (trim_eq_self_iff.mp hl).1
  · unfold blankEnd
    rw [List.getLast?_append_of_ne_nil _ hhne]
    exact (trim_eq_self_iff.mp hh).2

/-- **The bounds of a range are found again exactly if they are plain.** -/
theorem plainRange_iff {low high : Bytes} (hlow : chr ',' ∉ low) (hhigh : chr ',' ∉ high) :
    (∃ l h, splitOnce (lit " TO ") (trim (low ++ lit " TO " ++ high)) = some (l, h) ∧
      trim l ++ chr ',' :: trim h = low ++ chr ',' :: high) ↔ PlainRange low high := by
  have hsplit : ∀ {l r : Bytes}, splitOnce (lit " TO ") (l ++ lit " TO " ++ r) = some (l, r) ↔
      contains (l ++ lit " TO") (lit " TO ") = false := splitOnce_append_iff (by decide)
  constructor
  · rintro ⟨l, h, hs, hvalue⟩
    have htext := splitOnce_eq_some hs
    -- there is one comma on each side, so the bounds are equal
    have hcomma : chr ',' ∉ trim l := by
      intro hmem
      have hl : trim l <:+: trim (low ++ lit " TO " ++ high) := by
        rw [htext, List.append_assoc]
        exact (trim_middle l).trans (List.prefix_append l _).isInfix
      have := (hl.trans (trim_middle _)).subset hmem
      simp only [List.mem_append] at this
      rcases this with (hmem | hmem) | hmem
      · exact hlow hmem
      · exact absurd hmem (by decide)
      · exact hhigh hmem
    have hsame := splitFirst_append hcomma (trim h)
    rw [hvalue, splitFirst_append hlow high] at hsame
    cases hsame
    have hbounds := trim_eq_self_iff.mp (htext ▸ trim_trim (trim l ++ lit " TO " ++ trim h))
    have hlne : trim l ≠ [] := by
      intro hnil
      have hhead := hbounds.1
      cases l with
      | nil => simp [lit, isTrimmed] at hhead
      | cons b l => simp [isTrimmed_of_trim_eq_nil hnil b (by simp)] at hhead
    have hhne : trim h ≠ [] := by
      intro hnil
      have hlast := hbounds.2
      unfold blankEnd at hlast
      cases h using List.reverseRecOn with
      | nil =>
        rw [List.append_nil, List.getLast?_append_of_ne_nil _ (by decide)] at hlast
        exact absurd hlast (by decide)
      | append_singleton h b =>
        simp [isTrimmed_of_trim_eq_nil hnil b (by simp)] at hlast
    refine ⟨⟨hlne, trim_trim l⟩, ⟨hhne, trim_trim h⟩, ?_⟩
    rw [trim_append hlne hhne (trim_trim l) (trim_trim h)] at hs htext
    have hle := splitOnce_first hs rfl
    have hge := trim_length_le l
    rw [List.append_assoc, List.append_assoc] at htext
    obtain ⟨hl, hr⟩ := List.append_inj htext (by omega)
    have hh := List.append_cancel_left hr
    refine (hsplit (l := trim l) (r := trim h)).mp ?_
    rw [hs, hl, hh]
  · rintro ⟨⟨hlne, htl⟩, ⟨hhne, hth⟩, hfirst⟩
    have hbody := trim_append (s := lit " TO ") hlne hhne htl hth
    exact ⟨low, high, by rw [hbody]; exact hsplit.mpr hfirst, by rw [htl, hth]⟩

theorem read_rangeText_iff {field low high : Bytes} (hlow : acceptsFilterLiteral low = true)
    (hhigh : acceptsFilterLiteral high = true) :
    Filter.parse (rangeText field low high) =
        some (.condition ⟨field, .rangeInclusive, low ++ chr ',' :: high⟩) ↔
      PlainField field ∧ PlainRange low high := by
  obtain ⟨hbracket, hcomma⟩ := notMem_range hlow
  obtain ⟨hbracket', hcomma'⟩ := notMem_range hhigh
  rw [rangeText_eq]
  refine (parse_field_iff (c := ⟨field, .rangeInclusive, low ++ chr ',' :: high⟩) rfl).trans ?_
  refine and_congr_right fun _ => ?_
  rw [← plainRange_iff hcomma hcomma']
  have hbody : chr ']' ∉ low ++ lit " TO " ++ high := by
    simp only [List.mem_append, not_or]
    exact ⟨⟨hbracket, by decide⟩, hbracket'⟩
  have htest : parseTest field (skipWhitespace (chr '[' :: (low ++ lit " TO " ++ high ++ [chr ']']))) =
      rangeCondition field .rangeInclusive (chr ']') (low ++ lit " TO " ++ high ++ [chr ']']) := by
    rfl
  rw [htest]
  unfold rangeCondition
  rw [splitFirst_append hbody []]
  dsimp only
  cases hs : splitOnce (lit " TO ") (trim (low ++ lit " TO " ++ high)) with
  | none => simp
  | some lh =>
    obtain ⟨l, h⟩ := lh
    simp only [Option.some.injEq, Prod.mk.injEq, FilterCondition.mk.injEq, true_and]
    constructor
    · rintro ⟨r, ⟨hv, -⟩, -⟩
      exact ⟨l, h, ⟨rfl, rfl⟩, hv⟩
    · rintro ⟨_, _, ⟨rfl, rfl⟩, hv⟩
      exact ⟨[], ⟨hv, rfl⟩, rfl⟩

/-! ## Predicates -/

def Predicate.ReadBack (field : Bytes) (p : Predicate) : Prop :=
  (p.comparisons field).map Filter.parse =
    (p.conditions field).map fun c => some (.condition c)

/-- **A predicate is read back exactly if its field and its literals are plain.** -/
theorem Predicate.readBack_iff {p : Predicate} (hacc : p.Accepted) (field : Bytes) :
    p.ReadBack field ↔ PlainField field ∧ p.PlainLiterals := by
  unfold ReadBack
  cases p with
  | compare op operand =>
    have hacc' : isNullText operand.value ∨ acceptsFilterLiteral operand.value := by
      simp only [Accepted] at hacc
      split_ifs at hacc with hnull
      · exact .inl hnull
      · exact .inr hacc
    simpa [comparisons, conditions, PlainLiterals] using read_comparisonText_iff hacc'
  | between negate low high =>
    cases negate with
    | false =>
      simpa [comparisons, conditions, PlainLiterals] using read_rangeText_iff hacc.1 hacc.2
    | true =>
      have hl := read_boundText_iff field (.inr rfl) (notMem_of_acceptsFilterLiteral hacc.1)
      have hh := read_boundText_iff field (.inl rfl) (notMem_of_acceptsFilterLiteral hacc.2)
      simp only [comparisons, conditions, PlainLiterals, List.map_cons, List.map_nil,
        List.cons.injEq, and_true]
      refine (and_congr hl hh).trans ?_
      tauto
  | like caseInsensitive negate value =>
    have h := read_likeText_iff field caseInsensitive negate
      (notMem_of_acceptsFilterLiteral hacc.2.1)
    rw [plainPattern_iff hacc.2.2] at h
    simpa [comparisons, conditions, PlainLiterals] using h
  | contains negate value =>
    obtain ⟨hamp, hbar⟩ := notMem_of_acceptsFilterLiteral hacc.1
    have hpattern : chr '&' ∉ lit "*" ++ value ++ lit "*" ∧
        chr '|' ∉ lit "*" ++ value ++ lit "*" := by
      simp only [List.mem_append, not_or]
      exact ⟨⟨⟨by decide, hamp⟩, by decide⟩, ⟨by decide, hbar⟩, by decide⟩
    have h := read_likeText_iff field false negate hpattern
    rw [plainValue_contains_iff] at h
    simpa [comparisons, conditions, PlainLiterals] using h
  | isIn negate operands =>
    have hone : ∀ operand ∈ operands,
        (Filter.parse (comparisonText field (inListOp negate) operand.value) =
            some (.condition (operand.condition field (inListOp negate))) ↔
          PlainField field ∧ operand.Plain (inListOp negate)) :=
      fun operand hmem => read_comparisonText_iff (hacc.2 operand hmem)
    simp only [comparisons, conditions, PlainLiterals, List.map_map, List.map_inj_left,
      Function.comp_apply]
    constructor
    · intro h
      obtain ⟨operand, hmem⟩ := List.exists_mem_of_ne_nil _ hacc.1
      exact ⟨((hone operand hmem).mp (h operand hmem)).1,
        fun operand hmem => ((hone operand hmem).mp (h operand hmem)).2⟩
    · rintro ⟨hfield, hplain⟩ operand hmem
      exact (hone operand hmem).mpr ⟨hfield, hplain operand hmem⟩

/-- **What is written for a predicate is read back, for plain fields and literals and for no
others.** Each single comparison is one condition on the field, with the operator and the literal of
the predicate. A comparison, `BETWEEN`, a pattern and `CONTAINS` are single comparisons, and their
text is that of the comparison. -/
theorem parseComparison_readBack_iff {scope : Scope} {cursor rest : Cursor} {text : Bytes}
    (h : parseComparison scope cursor = .ok (text, rest)) :
    ∃ ts field p, cursor.tokens = ts ++ rest.tokens ∧
      Spells scope .primary ts (.predicate field p) ∧
      text = p.text field ∧ (∀ t, p.comparisons field = [t] → text = t) ∧
      (p.ReadBack field ↔ PlainField field ∧ p.PlainLiterals) := by
  obtain ⟨ts, field, p, hts, hspells, rfl, hacc⟩ := parseComparison_eq_ok h
  refine ⟨ts, field, p, hts, hspells, rfl, fun t ht => ?_, p.readBack_iff hacc field⟩
  unfold Predicate.text
  rw [ht, joinTerms_singleton]

theorem parseComparison_readBack_price : ∃ ts field p, [lit "price", lit ">=", lit "5"] = ts ++ [] ∧
      Spells ⟨lit "docs", [], ∅⟩ .primary ts (.predicate field p) ∧
      lit "price:>=5" = p.text field ∧ (∀ t, p.comparisons field = [t] → lit "price:>=5" = t) ∧
      (p.ReadBack field ↔ PlainField field ∧ p.PlainLiterals) := by
  have hparse : parseComparison ⟨lit "docs", [], ∅⟩ ⟨[lit "price", lit ">=", lit "5"], 0⟩ =
      .ok (lit "price:>=5", ⟨[], 1⟩) := by decide +kernel
  exact parseComparison_readBack_iff hparse

/-- A name in backquotes can hold a whole filter, a literal can continue the operator in front of
it, and a quoted `null` is the null value. -/
theorem rendered_text_misread :
    (tokenize (lit "`a:=1||b` = 2") = .ok [lit "`a:=1||b`", lit "=", lit "2"] ∧
      parseComparison ⟨lit "docs", [], ∅⟩ ⟨[lit "`a:=1||b`", lit "=", lit "2"], 0⟩ =
        .ok (lit "a:=1||b:=2", ⟨[], 1⟩) ∧
      Filter.parse (lit "a:=1||b:=2") =
        some (.or (.condition ⟨lit "a", .eq, lit "1"⟩) (.condition ⟨lit "b", .eq, lit "2"⟩))) ∧
    (parseComparison ⟨lit "docs", [], ∅⟩ ⟨[lit "f", lit ">", lit "'=5'"], 0⟩ =
        .ok (lit "f:>=5", ⟨[], 1⟩) ∧
      Filter.parse (lit "f:>=5") = some (.condition ⟨lit "f", .ge, lit "5"⟩)) ∧
    (parseComparison ⟨lit "docs", [], ∅⟩ ⟨[lit "f", lit "=", lit "'null'"], 0⟩ =
        .ok (lit "f:ISNULL", ⟨[], 1⟩) ∧
      Filter.parse (lit "f:ISNULL") = some (.condition ⟨lit "f", .isNull, []⟩)) := by
  refine ⟨⟨?_, ?_, ?_⟩, ⟨?_, ?_⟩, ?_, ?_⟩ <;> decide +kernel

end Hlquery.Sql
