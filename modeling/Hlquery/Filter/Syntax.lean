import Hlquery.Lib.Decimal
import Hlquery.Lib.Scan

/-!
# The two readers of `filter_by`

A filter text is read twice. `FilterExpressionParser` is a recursive-descent parser for
conditions joined by `&&` and `||`, negated by `!` and grouped by parentheses; it accepts a text
only as a whole. When it rejects, `ApplyFilters` falls back on `ParseFilters`, a flat loop without
grouping that stops at the first thing it does not understand and keeps what it has collected.

Both work with a position in the text; here that is the text that is left. The two readers share
their scanning (white space, the operator words, ranges, the argument list of a geo condition), so
the scanners come first. They differ in three places, and each keeps its own body there: a value
ends at `)` for the parser only; the two-character operators override a word operator for the loop
only; and an operator without a value fails for the parser while the loop goes on.
-/

set_option autoImplicit false

namespace Hlquery.Filter

open Bytes

/-! ## Conditions and expressions -/

/-- `FilterCondition::Op`, as the readers set it and the evaluation compares it. -/
inductive FilterOp where
  | geoRadius | geoBox
  | rangeInclusive | rangeExclusive
  | isNull | isNotNull
  | notILike | notLike | iLike | like
  | ne | ge | le | colonEq
  | gt | lt | eq
  deriving DecidableEq, Repr

/-- `FilterCondition` without its connector. -/
structure FilterCondition where
  field : Bytes
  op : FilterOp
  value : Bytes
  deriving DecidableEq, Repr

/-- `FilterExpressionNode`. -/
inductive FilterExpressionNode where
  | condition (c : FilterCondition)
  | not (child : FilterExpressionNode)
  | and (left right : FilterExpressionNode)
  | or (left right : FilterExpressionNode)
  deriving DecidableEq, Repr

/-! ## Scanning -/

/-- `SkipWhitespace`. -/
def skipWhitespace (s : Bytes) : Bytes := s.dropWhile isSpace

/-- The bytes `Trim` removes: `" \t\r\n"`. -/
def isTrimmed (b : UInt8) : Bool := b == 32 || b == 9 || b == 13 || b == 10

/-- `Trim`. -/
def trim (s : Bytes) : Bytes :=
  ((s.dropWhile isTrimmed).reverse.dropWhile isTrimmed).reverse

/-- `std::isalnum` in the C locale, or an underscore. -/
def isFieldByte (b : UInt8) : Bool :=
  (48 ≤ b && b ≤ 57) || (65 ≤ b && b ≤ 90) || (97 ≤ b && b ≤ 122) || b == chr '_'

def geoRadiusName : Bytes := lit "_geo_radius"

def geoBoxName : Bytes := lit "_geo_box"

/-- The argument text up to the parenthesis that closes it, with `depth` more open than that. -/
def geoArguments : Nat → Parser Bytes
  | _, [] => none
  | depth, b :: s =>
      if b = chr '(' then
        (geoArguments (depth + 1) s).map fun vr => (b :: vr.1, vr.2)
      else if b = chr ')' then
        match depth with
        | 0 => some ([], s)
        | depth + 1 => (geoArguments depth s).map fun vr => (b :: vr.1, vr.2)
      else
        (geoArguments depth s).map fun vr => (b :: vr.1, vr.2)

def geoCondition : Parser FilterCondition := fun s =>
  let isRadius := startsWith s geoRadiusName
  let name := if isRadius then geoRadiusName else geoBoxName
  match skipWhitespace (s.drop name.length) with
  | [] => none
  | b :: r =>
      if b = chr '(' then
        (geoArguments 0 r).map fun vr =>
          (⟨name, if isRadius then .geoRadius else .geoBox, trim vr.1⟩, vr.2)
      else none

def startsGeo (s : Bytes) : Bool := startsWith s geoRadiusName || startsWith s geoBoxName

/-- `[` or `{`: the operator of the range and the byte that closes it. -/
def rangeOpening (b : UInt8) : Option (FilterOp × UInt8) :=
  if b = chr '[' then some (.rangeInclusive, chr ']')
  else if b = chr '{' then some (.rangeExclusive, chr '}')
  else none

/-- The body of a range, `low TO high`, up to the closing byte; the value is `low,high`. -/
def rangeCondition (field : Bytes) (op : FilterOp) (close : UInt8) : Parser FilterCondition :=
  fun s =>
    match splitFirst close s with
    | none => none
    | some (body, r) =>
      match splitOnce (lit " TO ") (trim body) with
      | none => none
      | some (low, high) => some (⟨field, op, trim low ++ chr ',' :: trim high⟩, r)

def nullOps : List (Bytes × FilterOp) := [(lit "ISNULL", .isNull), (lit "ISNOTNULL", .isNotNull)]

def likeOps : List (Bytes × FilterOp) :=
  [(lit "NOT_ILIKE:", .notILike), (lit "NOT_LIKE:", .notLike), (lit "ILIKE:", .iLike),
    (lit "LIKE:", .like)]

def twoCharOps : List (Bytes × FilterOp) :=
  [(lit "!=", .ne), (lit ">=", .ge), (lit "<=", .le), (lit ":=", .colonEq)]

def oneCharOps : List (Bytes × FilterOp) := [(lit ">", .gt), (lit "<", .lt), (lit "=", .eq)]

def startsConnector (s : Bytes) : Bool := startsWith s (lit "&&") || startsWith s (lit "||")

def fieldName : Parser Bytes := fun s =>
  let field := s.takeWhile isFieldByte
  if field = [] then none
  else
    match skipWhitespace (s.dropWhile isFieldByte) with
    | [] => none
    | b :: r => if b = chr ':' then some (field, skipWhitespace r) else none

/-! ## `FilterExpressionParser` -/

/-- The operator of a comparison; a text without one compares with `=`. -/
def parseOperator (s : Bytes) : FilterOp × Bytes :=
  match matchFirst likeOps s with
  | some opr => opr
  | none =>
    match matchFirst twoCharOps s with
    | some opr => opr
    | none =>
      match matchFirst oneCharOps s with
      | some opr => opr
      | none => (.eq, s)

/-- Where the parser's value scan stops: `)`, `&&` or `||`. -/
def endsValue (s : Bytes) : Bool := s.head? == some (chr ')') || startsConnector s

/-- An operator and its value, which must not be blank. -/
def parseComparison (field : Bytes) : Parser FilterCondition := fun s =>
  let (op, r) := parseOperator s
  let (value, r) := takeUntil endsValue (skipWhitespace r)
  if trim value = [] then none else some (⟨field, op, trim value⟩, r)

def parseTest (field : Bytes) : Parser FilterCondition := fun s =>
  match s.head?.bind rangeOpening with
  | some (op, close) => rangeCondition field op close s.tail
  | none =>
    match matchFirst nullOps s with
    | some (op, r) => some (⟨field, op, []⟩, r)
    | none => parseComparison field s

/-- `ParseCondition`. -/
def parseCondition : Parser FilterCondition := fun s =>
  let s := skipWhitespace s
  if startsGeo s then geoCondition s
  else Parser.andThen fieldName parseTest s

/-- `Match`, with the position put back by the caller when it fails. -/
def matchToken (token s : Bytes) : Option Bytes := stripPrefix token (skipWhitespace s)

/-- `ParseAnd` over a given `ParsePrimary`. -/
def parseAndWith (primary : Parser FilterExpressionNode) : Parser FilterExpressionNode :=
  Parser.chain (matchToken (lit "&&")) primary .and

/-- `ParseOr` over a given `ParsePrimary`. -/
def parseOrWith (primary : Parser FilterExpressionNode) : Parser FilterExpressionNode :=
  Parser.chain (matchToken (lit "||")) (parseAndWith primary) .or

def closeGroup (node : FilterExpressionNode) : Parser FilterExpressionNode := fun s =>
  match skipWhitespace s with
  | [] => none
  | b :: r => if b = chr ')' then some (node, r) else none

/-- `ParsePrimary`. The fuel bounds how deeply `!` and `(` nest. -/
def parsePrimary : Nat → Parser FilterExpressionNode
  | 0, _ => none
  | depth + 1, s =>
      match skipWhitespace s with
      | [] => none
      | b :: r =>
          if b = chr '!' then
            (parsePrimary depth r).map fun nr => (.not nr.1, nr.2)
          else if b = chr '(' then
            Parser.andThen (parseOrWith (parsePrimary depth)) closeGroup r
          else
            (parseCondition (b :: r)).map fun cr => (.condition cr.1, cr.2)

/-- `Parse`: an expression, and nothing but white space behind it. Every `!` and `(` takes a
byte, so the length of the text is fuel enough (`parsePrimary_fuel`). -/
def parse (s : Bytes) : Option FilterExpressionNode :=
  match parseOrWith (parsePrimary (s.length + 1)) s with
  | none => none
  | some (node, r) => if skipWhitespace r = [] then some node else none

/-! ## `ParseFilters` -/

/-- `LogicalConnector`; the source's third value, the empty string, is `none`. -/
inductive LogicalConnector where
  | and | or
  deriving DecidableEq, Repr

def scanConnector (s : Bytes) : Option LogicalConnector × Bytes :=
  let s := skipWhitespace s
  match matchFirst [(lit "&&", LogicalConnector.and), (lit "||", LogicalConnector.or)] s with
  | some (c, r) => (some c, r)
  | none => (none, s)

/-- The operator of a condition for the loop: a word, then a two-character operator that
overrides the word, then a one-character operator if there was neither. -/
def filtersOperator (s : Bytes) : FilterOp × Bytes :=
  let (word, s) :=
    match matchFirst (nullOps ++ likeOps) s with
    | some (op, r) => (some op, r)
    | none => (none, s)
  match matchFirst twoCharOps s, word with
  | some opr, _ => opr
  | none, some op => (op, s)
  | none, none =>
    match matchFirst oneCharOps s with
    | some opr => opr
    | none => (.eq, s)

/-- One condition of the loop. The outer `none` leaves the loop; the inner `none` is a condition
that is dropped because its value is blank. -/
def filtersCondition : Parser (Option FilterCondition) := fun s =>
  if startsGeo s then (geoCondition s).map fun cr => (some cr.1, cr.2)
  else
    match fieldName s with
    | none => none
    | some (field, s) =>
      match s.head?.bind rangeOpening with
      | some (op, close) => (rangeCondition field op close s.tail).map fun cr => (some cr.1, cr.2)
      | none =>
        let (op, r) := filtersOperator s
        if op = .isNull ∨ op = .isNotNull then some (some ⟨field, op, []⟩, r)
        else
          let (value, r) := takeUntil startsConnector (skipWhitespace r)
          some (if trim value = [] then none else some ⟨field, op, trim value⟩, r)

/-- The loop of `ParseFilters`, with the connector read behind the previous condition. Each
round takes at least the field name, so the length of the text is fuel enough. -/
def filtersLoop : Nat → Option LogicalConnector → Bytes →
    List (Option LogicalConnector × FilterCondition)
  | 0, _, _ => []
  | fuel + 1, connector, s =>
      match filtersCondition (skipWhitespace s) with
      | none => []
      | some (c, r) =>
        let (next, r) := scanConnector r
        match c with
        | some c => (connector, c) :: filtersLoop fuel next r
        | none => filtersLoop fuel next r

/-- `ParseFilters`. -/
def parseFilters (s : Bytes) : List (Option LogicalConnector × FilterCondition) :=
  filtersLoop (s.length + 1) none s

end Hlquery.Filter
