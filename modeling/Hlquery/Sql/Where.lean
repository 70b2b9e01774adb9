import Hlquery.Lib.ByteMap
import Hlquery.Sql.Tokens

/-!
# The WHERE clause

`ParseExpression` and the functions below it read the tokens of a WHERE clause by recursive descent
and write the `filter_by` text as they go: nothing but the text survives. `OR` becomes `||`, `AND`
becomes `&&`, a `NOT` in front of a parenthesis becomes `!`, and every predicate becomes one
condition of the filter language or a parenthesised list of conditions.

The parser's position is the list of tokens that are left. Beside it only the count of syntax nodes
is threaded through, and the nesting of parentheses, which is bounded and so serves as the fuel of
the recursion.

A `NOT` in front of a predicate is noted by `ParseComparison` and used in one branch only, that of
the comparison operators. The branches for `IN`, `BETWEEN`, `LIKE`, `ILIKE`, `CONTAINS` and `IS` are
written here as they are there, without it.

References to aggregates belong to HAVING; here `allow_aggregate_refs` is false.
-/

set_option autoImplicit false

namespace Hlquery.Sql

open Bytes

/-! ## Names and values -/

/-- What the statement has said before its WHERE clause: the collection, its alias, and the names
of the selected columns under their uppercase spelling. -/
structure Scope where
  collectionName : Bytes
  tableAlias : Bytes
  selectAliases : ByteMap Bytes

/-- `ParseIdentifier`, on the token it consumes. -/
def identifierOf (token : Bytes) : Option Bytes :=
  match token with
  | [] => none
  | first :: _ =>
      if first = chr '`' then
        let out := stripQuotes token
        if out = [] then none else some out
      else if isIdentifierStart first then some token
      else none

/-- `ParsePredicateReference`, on the token it consumes. Its error texts are overwritten by the
only caller. -/
def referenceOf (scope : Scope) (token : Bytes) : Option Bytes :=
  match identifierOf token with
  | none => none
  | some identifier =>
    match scope.selectAliases[toUpper identifier]? with
    | some output => some output
    | none =>
      match splitFirst (chr '.') identifier with
      | none => some identifier
      | some (qualifier, field) =>
          if field = [] then none
          else if scope.tableAlias = [] ∧ scope.collectionName = [] then some field
          else if (scope.tableAlias ≠ [] ∧ qualifier = scope.tableAlias) ∨
              (scope.collectionName ≠ [] ∧ qualifier = scope.collectionName) then some field
          else none

/-- `SQLIsReservedValueKeyword`. -/
def reservedValueKeywords : List Bytes :=
  [lit "AND", lit "AS", lit "BETWEEN", lit "BY", lit "CONTAINS", lit "DELETE", lit "DESC",
    lit "DROP", lit "FETCH", lit "FIRST", lit "FROM", lit "GROUP", lit "HAVING", lit "ILIKE",
    lit "IN", lit "INSERT", lit "INTO", lit "IS", lit "LIKE", lit "LIMIT", lit "NEXT", lit "NOT",
    lit "OFFSET", lit "ONLY", lit "OR", lit "ORDER", lit "ROW", lit "ROWS", lit "SELECT",
    lit "SHOW", lit "UPDATE", lit "VALUES", lit "WHERE"]

def invalidValueTokens : List Bytes :=
  [lit ",", lit "(", lit ")", lit "*", lit ";", lit "=", lit "!=", lit "<>", lit ">", lit ">=",
    lit "<", lit "<="]

def isQuoted (token : Bytes) : Bool := token.head?.any isQuote

/-- `SQLCanUseTokenAsValue`. -/
def canUseTokenAsValue (token : Bytes) : Bool :=
  if isQuoted token then true
  else if token ∈ invalidValueTokens then false
  else if toUpper token ∈ [lit "TRUE", lit "FALSE", lit "NULL"] then true
  else toUpper token ∉ reservedValueKeywords

/-- `ParseValue`, on the token it consumes. -/
def valueOf (token : Bytes) : Option Bytes :=
  if canUseTokenAsValue token then
    if isQuoted token then some (stripQuotes token)
    else if toUpper token = lit "TRUE" then some (lit "true")
    else if toUpper token = lit "FALSE" then some (lit "false")
    else if toUpper token = lit "NULL" then some (lit "NULL")
    else some token
  else none

/-- `ParseValue`. -/
def parseValue : List Bytes → Option (Bytes × List Bytes)
  | [] => none
  | token :: rest => (valueOf token).map fun value => (value, rest)

/-- `MatchKeyword`. -/
def matchKeyword (keyword : Bytes) : List Bytes → Option (List Bytes)
  | [] => none
  | token :: rest => if toUpper token = keyword then some rest else none

/-! ## Rendering -/

/-- The comparison operators, `<>` and `!=` being one. -/
inductive ComparisonOp where
  | eq | ne | gt | ge | lt | le
  deriving DecidableEq, Repr

namespace ComparisonOp

def text : ComparisonOp → Bytes
  | eq => lit "="
  | ne => lit "!="
  | gt => lit ">"
  | ge => lit ">="
  | lt => lit "<"
  | le => lit "<="

def ofToken (token : Bytes) : Option ComparisonOp :=
  if token = lit "=" then some eq
  else if token = lit "!=" ∨ token = lit "<>" then some ne
  else if token = lit ">" then some gt
  else if token = lit ">=" then some ge
  else if token = lit "<" then some lt
  else if token = lit "<=" then some le
  else none

/-- The operator under a leading `NOT`; only the equalities have one. -/
def negated : ComparisonOp → Option ComparisonOp
  | eq => some ne
  | ne => some eq
  | _ => none

end ComparisonOp

/-- `ValidateFilterLiteral`. -/
def acceptsFilterLiteral (value : Bytes) : Bool :=
  isNumericLiteral value || isSafeFilterLiteral value

def unsafeLiteralError : Bytes :=
  lit "String literals containing ',', parentheses, logical filter delimiters, or range " ++
    lit "delimiters are not supported by hlquery SQL yet."

/-- The null value in any spelling, which is how an unquoted `NULL` reaches the rendering. -/
def isNullText (value : Bytes) : Bool := toUpper value == lit "NULL"

/-- The operator as the filter text has it: `=` on a text is `:=`. -/
def renderedOp (op : ComparisonOp) (value : Bytes) : Bytes :=
  if op = .eq ∧ isNumericLiteral value = false then lit ":=" else op.text

def comparisonText (field : Bytes) (op : ComparisonOp) (value : Bytes) : Bytes :=
  if isNullText value then
    if op = .eq then field ++ lit ":ISNULL" else field ++ lit ":ISNOTNULL"
  else field ++ lit ":" ++ renderedOp op value ++ value

/-- `BuildRenderedComparison`. -/
def buildRenderedComparison (field : Bytes) (op : ComparisonOp) (value : Bytes) :
    Except Bytes Bytes :=
  if isNullText value then
    if op = .eq ∨ op = .ne then .ok (comparisonText field op value)
    else .error (lit "NULL only supports =, !=, IS NULL, and IS NOT NULL comparisons.")
  else if acceptsFilterLiteral value then .ok (comparisonText field op value)
  else .error unsafeLiteralError

/-- `ConvertSQLLikePattern`, with the flag `escape_next`. -/
def convertLikePattern : Bool → Bytes → Bytes
  | true, [] => [chr '\\']
  | false, [] => []
  | true, b :: s => b :: convertLikePattern false s
  | false, b :: s =>
      if b = chr '\\' then convertLikePattern true s
      else if b = chr '%' then chr '*' :: convertLikePattern false s
      else if b = chr '_' then chr '?' :: convertLikePattern false s
      else b :: convertLikePattern false s

def rangeText (field low high : Bytes) : Bytes :=
  field ++ lit ":[" ++ low ++ lit " TO " ++ high ++ lit "]"

def likeText (field : Bytes) (caseInsensitive negate : Bool) (pattern : Bytes) : Bytes :=
  field ++ lit ":" ++ (if negate then lit "NOT_" else []) ++
    (if caseInsensitive then lit "ILIKE:" else lit "LIKE:") ++ pattern

def boundText (field : Bytes) (op : ComparisonOp) (bound : Bytes) : Bytes :=
  field ++ lit ":" ++ op.text ++ bound

def joinTerms (connector : Bytes) (terms : List Bytes) : Bytes :=
  if 1 < terms.length then lit "(" ++ connector.intercalate terms ++ lit ")"
  else connector.intercalate terms

/-! ## Predicates -/

/-- `ParseBetween`. -/
def parseBetween (field : Bytes) (negate : Bool) (tokens : List Bytes) :
    Except Bytes (Bytes × List Bytes) :=
  match parseValue tokens with
  | none => .error (lit "BETWEEN expects a lower bound value.")
  | some (low, tokens) =>
    match matchKeyword (lit "AND") tokens with
    | none => .error (lit "BETWEEN expects AND between the lower and upper bound.")
    | some tokens =>
      match parseValue tokens with
      | none => .error (lit "BETWEEN expects an upper bound value.")
      | some (high, tokens) =>
          if acceptsFilterLiteral low && acceptsFilterLiteral high then
            if negate then
              .ok (joinTerms (lit "||") [boundText field .lt low, boundText field .gt high], tokens)
            else .ok (rangeText field low high, tokens)
          else .error unsafeLiteralError

/-- `ParseLike`. -/
def parseLike (field : Bytes) (caseInsensitive negate : Bool) (tokens : List Bytes) :
    Except Bytes (Bytes × List Bytes) :=
  match parseValue tokens with
  | none => .error (lit "LIKE expects a string or scalar pattern.")
  | some (value, tokens) =>
      let pattern := convertLikePattern false value
      if acceptsFilterLiteral value && acceptsFilterLiteral pattern then
        if pattern = [] then .error (lit "LIKE pattern cannot be empty.")
        else .ok (likeText field caseInsensitive negate pattern, tokens)
      else .error unsafeLiteralError

/-- `ParseContains`. -/
def parseContains (field : Bytes) (negate : Bool) (tokens : List Bytes) :
    Except Bytes (Bytes × List Bytes) :=
  match parseValue tokens with
  | none => .error (lit "CONTAINS expects a string or scalar value.")
  | some (value, tokens) =>
      if acceptsFilterLiteral value then
        if value = [] then .error (lit "CONTAINS value cannot be empty.")
        else .ok (likeText field false negate (lit "*" ++ value ++ lit "*"), tokens)
      else .error unsafeLiteralError

/-- The values `IS` tests for. -/
inductive IsTarget where
  | null | true | false
  deriving DecidableEq, Repr

/-- `TRUE` and `FALSE` are compared as texts, and `NULL` is the null value. -/
def IsTarget.value : IsTarget → Bytes
  | null => lit "NULL"
  | true => lit "true"
  | false => lit "false"

def isTargetOf (token : Bytes) : Option IsTarget :=
  if toUpper token = lit "NULL" then some .null
  else if toUpper token = lit "TRUE" then some .true
  else if toUpper token = lit "FALSE" then some .false
  else none

def optionalKeyword (keyword : Bytes) (tokens : List Bytes) : Bool × List Bytes :=
  match matchKeyword keyword tokens with
  | some rest => (true, rest)
  | none => (false, tokens)

/-- `ParseIsPredicate`. A comparison with the null value is the null test, so its three branches
are one rendering. -/
def parseIsPredicate (field : Bytes) (tokens : List Bytes) : Except Bytes (Bytes × List Bytes) :=
  let (negate, tokens) := optionalKeyword (lit "NOT") tokens
  match tokens with
  | [] => .error (lit "IS only supports NULL, TRUE, and FALSE in hlquery SQL.")
  | token :: rest =>
    match isTargetOf token with
    | none => .error (lit "IS only supports NULL, TRUE, and FALSE in hlquery SQL.")
    | some target =>
        (buildRenderedComparison field (if negate then .ne else .eq) target.value).map
          fun text => (text, rest)

def maxInListValues : Nat := 100

/-- The operator of the conditions of an `IN` list. -/
def inListOp (negate : Bool) : ComparisonOp := if negate then .ne else .eq

def inListConnector (negate : Bool) : Bytes := if negate then lit "&&" else lit "||"

/-- The loop of `ParseInList` behind the opening parenthesis, with the conditions rendered so
far. -/
def inListLoop (field : Bytes) (negate : Bool) :
    List Bytes → List Bytes → Except Bytes (List Bytes × List Bytes)
  | _, [] => .error (lit "IN expects a closing ')' after the value list.")
  | terms, [token] =>
      if maxInListValues ≤ terms.length then
        .error (lit "IN lists exceed the maximum supported value count.")
      else
        match valueOf token with
        | none => .error (lit "IN expects one or more values inside parentheses.")
        | some value =>
          match buildRenderedComparison field (inListOp negate) value with
          | .error e => .error e
          | .ok _ => .error (lit "IN value lists must be comma-separated.")
  | terms, token :: separator :: rest =>
      if maxInListValues ≤ terms.length then
        .error (lit "IN lists exceed the maximum supported value count.")
      else
        match valueOf token with
        | none => .error (lit "IN expects one or more values inside parentheses.")
        | some value =>
          match buildRenderedComparison field (inListOp negate) value with
          | .error e => .error e
          | .ok term =>
              if separator = lit ")" then .ok (terms ++ [term], rest)
              else if separator = lit "," then inListLoop field negate (terms ++ [term]) rest
              else .error (lit "IN value lists must be comma-separated.")

/-- `ParseInList`. -/
def parseInList (field : Bytes) (negate : Bool) (tokens : List Bytes) :
    Except Bytes (Bytes × List Bytes) :=
  match tokens with
  | [] => .error (lit "IN expects a parenthesized value list.")
  | token :: rest =>
      if token = lit "(" then
        (inListLoop field negate [] rest).map fun tr =>
          (joinTerms (inListConnector negate) tr.1, tr.2)
      else .error (lit "IN expects a parenthesized value list.")

/-- The keywords behind which a predicate of its own kind is read. -/
inductive PredicateKeyword where
  | isIn | between | like | iLike | contains
  deriving DecidableEq, Repr

def predicateKeyword : List Bytes → Option (PredicateKeyword × List Bytes)
  | [] => none
  | token :: rest =>
      if toUpper token = lit "IN" then some (.isIn, rest)
      else if toUpper token = lit "BETWEEN" then some (.between, rest)
      else if toUpper token = lit "LIKE" then some (.like, rest)
      else if toUpper token = lit "ILIKE" then some (.iLike, rest)
      else if toUpper token = lit "CONTAINS" then some (.contains, rest)
      else none

def parseKeywordPredicate (keyword : PredicateKeyword) (field : Bytes) (negate : Bool)
    (tokens : List Bytes) : Except Bytes (Bytes × List Bytes) :=
  match keyword with
  | .isIn => parseInList field negate tokens
  | .between => parseBetween field negate tokens
  | .like => parseLike field false negate tokens
  | .iLike => parseLike field true negate tokens
  | .contains => parseContains field negate tokens

/-- The end of `ParseComparison`: an operator and a value. `negate` is the leading `NOT`. -/
def parseOperatorComparison (field : Bytes) (negate : Bool) (tokens : List Bytes) :
    Except Bytes (Bytes × List Bytes) :=
  match tokens with
  | [] => .error (lit "Expected operator after field '" ++ field ++ lit "'.")
  | token :: tokens =>
    match ComparisonOp.ofToken token with
    | none => .error (lit "Unsupported operator '" ++ token ++ lit "' in WHERE clause.")
    | some op =>
      match if negate then op.negated else some op with
      | none => .error (lit "NOT only supports equality comparisons in hlquery SQL.")
      | some op =>
        match parseValue tokens with
        | none =>
            .error (lit "Expected comparison value after operator '" ++ op.text ++ lit "'.")
        | some (value, tokens) =>
            (buildRenderedComparison field op value).map fun text => (text, tokens)

/-- `ParseComparison` behind the field. -/
def parsePredicate (field : Bytes) (negate : Bool) (tokens : List Bytes) :
    Except Bytes (Bytes × List Bytes) :=
  match matchKeyword (lit "NOT") tokens with
  | some tokens =>
    match predicateKeyword tokens with
    | some (keyword, tokens) => parseKeywordPredicate keyword field true tokens
    | none => .error (lit "Unsupported SQL predicate after NOT for field '" ++ field ++ lit "'.")
  | none =>
    match predicateKeyword tokens with
    | some (keyword, tokens) => parseKeywordPredicate keyword field false tokens
    | none =>
      match matchKeyword (lit "IS") tokens with
      | some tokens => parseIsPredicate field tokens
      | none => parseOperatorComparison field negate tokens

/-! ## Expressions -/

def maxASTNodes : Nat := 256

def maxExpressionDepth : Nat := 32

structure Cursor where
  tokens : List Bytes
  nodes : Nat
  deriving DecidableEq, Repr

/-- `ParseComparison`. -/
def parseComparison (scope : Scope) (cursor : Cursor) : Except Bytes (Bytes × Cursor) :=
  if maxASTNodes < cursor.nodes + 1 then
    .error (lit "SQL query exceeds the maximum supported comparison count.")
  else
    let (negate, tokens) := optionalKeyword (lit "NOT") cursor.tokens
    match tokens with
    | [] => .error (lit "Expected field name in WHERE clause.")
    | token :: tokens =>
      match referenceOf scope token with
      | none => .error (lit "Expected field name in WHERE clause.")
      | some field =>
          (parsePredicate field negate tokens).map fun tr => (tr.1, ⟨tr.2, cursor.nodes + 1⟩)

/-- A loop `(keyword operand)*` that appends to the text. Every round takes the keyword, so the
number of tokens is fuel enough. -/
def operandLoop (keyword connector : Bytes) (operand : Cursor → Except Bytes (Bytes × Cursor)) :
    Nat → Bytes → Cursor → Except Bytes (Bytes × Cursor)
  | 0, out, cursor => .ok (out, cursor)
  | fuel + 1, out, cursor =>
    match matchKeyword keyword cursor.tokens with
    | none => .ok (out, cursor)
    | some rest =>
      match operand ⟨rest, cursor.nodes⟩ with
      | .error e => .error e
      | .ok (rhs, cursor) =>
          operandLoop keyword connector operand fuel (out ++ connector ++ rhs) cursor

/-- `operand (keyword operand)*`. -/
def operands (keyword connector : Bytes) (operand : Cursor → Except Bytes (Bytes × Cursor))
    (cursor : Cursor) : Except Bytes (Bytes × Cursor) :=
  match operand cursor with
  | .error e => .error e
  | .ok (out, rest) => operandLoop keyword connector operand cursor.tokens.length out rest

/-- `ParseAndExpression` over a given `ParsePrimaryExpression`. -/
def parseAndWith (primary : Cursor → Except Bytes (Bytes × Cursor)) :
    Cursor → Except Bytes (Bytes × Cursor) :=
  operands (lit "AND") (lit "&&") primary

/-- `ParseExpression` over a given `ParsePrimaryExpression`. -/
def parseExpressionWith (primary : Cursor → Except Bytes (Bytes × Cursor)) :
    Cursor → Except Bytes (Bytes × Cursor) :=
  operands (lit "OR") (lit "||") (parseAndWith primary)

def closeGroup (out : Bytes) (cursor : Cursor) : Except Bytes (Bytes × Cursor) :=
  match cursor.tokens with
  | [] => .error (lit "Expected ')' to close WHERE expression.")
  | token :: rest =>
      if token = lit ")" then .ok (lit "(" ++ out ++ lit ")", ⟨rest, cursor.nodes⟩)
      else .error (lit "Expected ')' to close WHERE expression.")

/-- A `NOT` that stands directly in front of a parenthesis. -/
def startsNegatedGroup : List Bytes → Bool
  | keyword :: next :: _ => toUpper keyword == lit "NOT" && next == lit "("
  | _ => false

def startsGroup (tokens : List Bytes) : Bool := tokens.head? == some (lit "(")

/-- A group over a given `ParsePrimaryExpression`, on tokens that start with a parenthesis. -/
def parseGroupWith (primary : Cursor → Except Bytes (Bytes × Cursor)) (cursor : Cursor) :
    Except Bytes (Bytes × Cursor) :=
  match parseExpressionWith primary ⟨cursor.tokens.tail, cursor.nodes⟩ with
  | .error e => .error e
  | .ok (out, cursor) => closeGroup out cursor

/-- `ParsePrimaryExpression` over a given way to read groups. The call that the source makes behind
`NOT` meets a parenthesis, so it is the branch for groups. -/
def parsePrimaryWith (group : Cursor → Except Bytes (Bytes × Cursor)) (scope : Scope)
    (cursor : Cursor) : Except Bytes (Bytes × Cursor) :=
  if startsNegatedGroup cursor.tokens then
    (group ⟨cursor.tokens.tail, cursor.nodes⟩).map fun tr => (lit "!" ++ tr.1, tr.2)
  else if startsGroup cursor.tokens then group cursor
  else parseComparison scope cursor

/-- `ParsePrimaryExpression` with `depth` more groups to open. -/
def parsePrimary (scope : Scope) : Nat → Cursor → Except Bytes (Bytes × Cursor)
  | 0 =>
      parsePrimaryWith
        (fun _ =>
          .error (lit "SQL query exceeds the maximum supported expression nesting depth."))
        scope
  | depth + 1 => parsePrimaryWith (parseGroupWith (parsePrimary scope depth)) scope

/-- `ParseExpression`, as `ParseWhere` calls it. -/
def parseExpression (scope : Scope) : Cursor → Except Bytes (Bytes × Cursor) :=
  parseExpressionWith (parsePrimary scope maxExpressionDepth)

end Hlquery.Sql
