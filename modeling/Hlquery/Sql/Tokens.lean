import Hlquery.Lib.Scan

/-!
# The tokens of an SQL statement

`SQLTokenize` cuts a statement into tokens before the parser sees it. A token is kept with the
spelling it has in the statement, its quotes included, and with an uppercase copy against which the
keywords are compared; the copy is a function of the spelling, so a token is its spelling here.

The tokenizer is bounded on every side: the length of the statement, of an identifier and of a
quoted literal, the number of tokens and the depth of parentheses. What it does not bound is the
alphabet of a name in backquotes, which may hold any byte but a backquote.

The file also has the three questions the parser asks about a literal once its quotes are gone:
what is inside the quotes, whether `strtod` reads all of it, and whether it is free of the
characters that mean something in a filter. A numeric literal need not pass the last test, but it
has few characters to begin with (`isNumericByte_of_isNumericLiteral`).
-/

set_option autoImplicit false

namespace Hlquery.Sql

open Bytes

/-! ## Characters -/

/-- `SQLIsIdentifierStart`. -/
def isIdentifierStart (b : UInt8) : Bool := isAlpha b || b == chr '_' || b == chr '$'

/-- `SQLIsIdentifierChar`. -/
def isIdentifierChar (b : UInt8) : Bool :=
  isAlnum b || b == chr '_' || b == chr '$' || b == chr '-' || b == chr '.'

def isQuote (b : UInt8) : Bool := b == chr '\'' || b == chr '"' || b == chr '`'

/-- The test of `SQLContainsDisallowedControlCharacters`. -/
def isDisallowedControl (b : UInt8) : Bool := (b < 0x20 && !isSpace b) || b == 0x7f

/-! ## Literals -/

/-- The loop of `SQLStripQuotes`: a doubled quote stands for one. -/
def undouble (quote : UInt8) : Bytes → Bytes
  | [] => []
  | [b] => [b]
  | b :: b' :: s =>
      if b = quote ∧ b' = quote then quote :: undouble quote s else b :: undouble quote (b' :: s)

/-- `SQLStripQuotes`. -/
def stripQuotes (value : Bytes) : Bytes :=
  match value with
  | first :: rest =>
      if isQuote first && !rest.isEmpty && rest.getLast? == some first then
        if first = chr '`' then rest.dropLast else undouble first rest.dropLast
      else value
  | [] => value

/-- An exponent, or nothing, up to the end of the text. -/
def isExponent (mark : UInt8) : Bytes → Bool
  | [] => true
  | b :: s =>
      let digits := match s with
        | sign :: digits => if sign = chr '+' ∨ sign = chr '-' then digits else s
        | [] => []
      b == mark && !digits.isEmpty && digits.all isDigit

/-- Digits with at most one point among them, and an exponent. -/
def isNumberIn (isDigitHere : UInt8 → Bool) (mark : UInt8) (s : Bytes) : Bool :=
  let whole := s.takeWhile isDigitHere
  match s.dropWhile isDigitHere with
  | b :: r =>
      if b = chr '.' then
        (!whole.isEmpty || !(r.takeWhile isDigitHere).isEmpty) &&
          isExponent mark (r.dropWhile isDigitHere)
      else !whole.isEmpty && isExponent mark (b :: r)
  | [] => !whole.isEmpty

def isHexDigit (b : UInt8) : Bool := isDigit b || (97 ≤ b && b ≤ 102)

/-- `nan` with a parenthesised sequence of letters, digits and underscores. -/
def isNanWithPayload (s : Bytes) : Bool :=
  match stripPrefix (lit "nan(") s with
  | some r => r.getLast? == some (chr ')') && r.dropLast.all fun b => isAlnum b || b == chr '_'
  | none => false

/-- `s` without a sign in front of it. -/
def dropSign : Bytes → Bytes
  | b :: s => if b = chr '+' ∨ b = chr '-' then s else b :: s
  | [] => []

/-- `SQLIsNumericLiteral`: `strtod` reads the text to its end. The texts `strtod` reads are those
of the C standard: blanks, a sign, and then a decimal or hexadecimal number, an infinity or a
`nan`, in either case of letters. A statement holds no zero byte, so the end of the string is the
end of the text. -/
def isNumericLiteral (value : Bytes) : Bool :=
  let s := toLower (dropSign (value.dropWhile isSpace))
  s == lit "inf" || s == lit "infinity" || s == lit "nan" || isNanWithPayload s ||
    isNumberIn isDigit (chr 'e') s ||
    (match stripPrefix (lit "0x") s with
      | some r => isNumberIn isHexDigit (chr 'p') r
      | none => false)

/-- The characters of a text that `strtod` reads. -/
def isNumericByte (b : UInt8) : Bool := isSpace b || isAlnum b || b ∈ lit "+-.()_"

theorem isNumericByte_of_isDigit {b : UInt8} (h : isDigit b = true) : isNumericByte b = true := by
  simp [isNumericByte, isAlnum, h]

theorem isNumericByte_of_isExponent {mark : UInt8} (hmark : isNumericByte mark = true) {s : Bytes}
    (h : isExponent mark s = true) : ∀ b ∈ s, isNumericByte b = true := by
  match s with
  | [] => simp
  | [b] => simp [isExponent] at h
  | b :: sign :: digits =>
    simp only [isExponent, Bool.and_eq_true, beq_iff_eq, List.all_eq_true] at h
    obtain ⟨⟨rfl, -⟩, hd⟩ := h
    have hsign : isNumericByte sign = true ∧ ∀ b ∈ digits, isNumericByte b = true := by
      split_ifs at hd with hs
      · refine ⟨?_, fun b hb => isNumericByte_of_isDigit (hd b hb)⟩
        rcases hs with rfl | rfl <;> decide
      · exact ⟨isNumericByte_of_isDigit (hd sign (by simp)),
          fun b hb => isNumericByte_of_isDigit (hd b (by simp [hb]))⟩
    intro x hx
    rcases List.mem_cons.mp hx with rfl | hx
    · exact hmark
    rcases List.mem_cons.mp hx with rfl | hx
    · exact hsign.1
    · exact hsign.2 x hx

theorem isNumericByte_of_isNumberIn {isDigitHere : UInt8 → Bool} {mark : UInt8}
    (hdigit : ∀ b, isDigitHere b = true → isNumericByte b = true)
    (hmark : isNumericByte mark = true) {s : Bytes} (h : isNumberIn isDigitHere mark s = true) :
    ∀ b ∈ s, isNumericByte b = true := by
  have hwhole : ∀ {t : Bytes}, ∀ b ∈ t.takeWhile isDigitHere, isNumericByte b = true :=
    fun b hb => hdigit b (List.mem_takeWhile_imp hb)
  -- the digits in front, and what is behind them
  have hrest : ∀ b ∈ s.dropWhile isDigitHere, isNumericByte b = true := by
    unfold isNumberIn at h
    cases hs : s.dropWhile isDigitHere with
    | nil => simp
    | cons x r =>
      simp only [hs] at h
      split_ifs at h with hx
      · simp only [Bool.and_eq_true] at h
        have hexp := isNumericByte_of_isExponent hmark h.2
        intro b hb
        rcases List.mem_cons.mp hb with rfl | hb
        · exact hx ▸ by decide
        · rw [← List.takeWhile_append_dropWhile (p := isDigitHere) (l := r)] at hb
          exact (List.mem_append.mp hb).elim (hwhole b) (hexp b)
      · simp only [Bool.and_eq_true] at h
        exact isNumericByte_of_isExponent hmark h.2
  intro b hb
  rw [← List.takeWhile_append_dropWhile (p := isDigitHere) (l := s)] at hb
  exact (List.mem_append.mp hb).elim (hwhole b) (hrest b)

theorem isNumericByte_of_toLowerByte :
    ∀ b : UInt8, isNumericByte (toLowerByte b) = true → isNumericByte b = true := by
  decide +kernel

theorem isNumericByte_of_isNanWithPayload {s : Bytes} (h : isNanWithPayload s = true) :
    ∀ b ∈ s, isNumericByte b = true := by
  unfold isNanWithPayload at h
  split at h
  · rename_i r hr
    simp only [Bool.and_eq_true, beq_iff_eq, List.all_eq_true] at h
    obtain ⟨hlast, hall⟩ := h
    have hr' : r = r.dropLast ++ [chr ')'] := by
      cases r using List.reverseRecOn with
      | nil => cases hlast
      | append_singleton r x => simpa using hlast
    intro b hb
    rw [stripPrefix_eq_some.mp hr, List.mem_append] at hb
    rcases hb with hb | hb
    · exact (by decide +kernel : ∀ b ∈ lit "nan(", isNumericByte b = true) b hb
    · rw [hr', List.mem_append] at hb
      rcases hb with hb | hb
      · have := hall b hb
        simp only [Bool.or_eq_true, beq_iff_eq] at this
        rcases this with h | rfl
        · simp [isNumericByte, h]
        · decide
      · rw [List.mem_singleton.mp hb]
        decide
  · cases h

/-- **A numeric literal has only numeric characters.** -/
theorem isNumericByte_of_isNumericLiteral {value : Bytes} (h : isNumericLiteral value = true) :
    ∀ b ∈ value, isNumericByte b = true := by
  have hlower : ∀ b ∈ toLower (dropSign (value.dropWhile isSpace)), isNumericByte b = true := by
    unfold isNumericLiteral at h
    simp only [Bool.or_eq_true, beq_iff_eq] at h
    rcases h with ((((h | h) | h) | h) | h) | h
    · rw [h]; decide +kernel
    · rw [h]; decide +kernel
    · rw [h]; decide +kernel
    · exact isNumericByte_of_isNanWithPayload h
    · exact isNumericByte_of_isNumberIn (fun _ => isNumericByte_of_isDigit) (by decide) h
    split at h
    · rename_i r hr
      intro b hb
      rw [stripPrefix_eq_some.mp hr, List.mem_append] at hb
      rcases hb with hb | hb
      · exact (by decide +kernel : ∀ b ∈ lit "0x", isNumericByte b = true) b hb
      · exact isNumericByte_of_isNumberIn
          (by decide +kernel : ∀ b, isHexDigit b = true → isNumericByte b = true) (by decide) h b hb
    · cases h
  intro b hb
  rw [← List.takeWhile_append_dropWhile (p := isSpace) (l := value), List.mem_append] at hb
  rcases hb with hb | hb
  · simp [isNumericByte, List.mem_takeWhile_imp hb]
  have hsign : b ∈ dropSign (value.dropWhile isSpace) ∨ b = chr '+' ∨ b = chr '-' := by
    cases hs : value.dropWhile isSpace with
    | nil => rw [hs] at hb; cases hb
    | cons x t =>
      rw [hs] at hb
      simp only [dropSign]
      split_ifs with hx
      · rcases List.mem_cons.mp hb with rfl | hb
        · exact .inr hx
        · exact .inl hb
      · exact .inl hb
  rcases hsign with hb | rfl | rfl
  · exact isNumericByte_of_toLowerByte b (hlower _ (List.mem_map_of_mem hb))
  · decide
  · decide

/-- The characters `SQLIsSafeFilterLiteral` looks for. -/
def reservedInFilters : Bytes := lit "&|[]\x7b\x7d(),:"

/-- `SQLIsSafeFilterLiteral`. -/
def isSafeFilterLiteral (value : Bytes) : Bool := value.all (· ∉ reservedInFilters)

/-! ## The tokenizer -/

def maxQueryBytes : Nat := 32768

def maxTokens : Nat := 1024

def maxParenthesisDepth : Nat := 64

def maxIdentifierBytes : Nat := 256

def maxQuotedLiteralBytes : Nat := 4096

/-- `CanStartSignedNumber`: whether a sign behind these tokens belongs to a number. -/
def canStartSignedNumber (tokens : List Bytes) : Bool :=
  match tokens.getLast? with
  | none => true
  | some last =>
      [lit "LIMIT", lit "OFFSET", lit "BETWEEN", lit "AND"].contains (toUpper last) ||
        [lit "(", lit ",", lit "=", lit "!=", lit "<>", lit ">", lit ">=", lit "<",
          lit "<="].contains last

/-- The rest of a quoted token behind its opening quote, closing quote included. -/
def scanQuoted (quote : UInt8) : Parser Bytes
  | [] => none
  | [b] => if b = quote then some ([b], []) else none
  | b :: b' :: s =>
      if b = quote then
        if b' = quote ∧ quote ≠ chr '`' then
          (scanQuoted quote s).map fun tr => (b :: b' :: tr.1, tr.2)
        else some ([b], b' :: s)
      else (scanQuoted quote (b' :: s)).map fun tr => (b :: tr.1, tr.2)

def scanDigits (seenDot : Bool) : Bytes → Bytes × Bytes
  | [] => ([], [])
  | b :: s =>
      if isDigit b then
        let (digits, r) := scanDigits seenDot s
        (b :: digits, r)
      else if b = chr '.' ∧ seenDot = false then
        let (digits, r) := scanDigits true s
        (b :: digits, r)
      else ([], b :: s)

/-- The exponent of a number; `none` for one without digits. -/
def scanExponent : Parser Bytes
  | [] => some ([], [])
  | b :: s =>
      if b = chr 'e' ∨ b = chr 'E' then
        let (sign, s) := match s with
          | c :: r => if c = chr '-' ∨ c = chr '+' then ([c], r) else ([], s)
          | [] => ([], [])
        let digits := s.takeWhile isDigit
        if digits = [] then none else some (b :: sign ++ digits, s.dropWhile isDigit)
      else some ([], b :: s)

def scanNumber (first : UInt8) : Parser Bytes := fun s =>
  let (digits, r) := scanDigits false s
  match scanExponent r with
  | none => none
  | some (exponent, r) =>
      let text := first :: digits ++ exponent
      if text = lit "-" ∨ text = lit "+" ∨ text.getLast? = some (chr '.') then none
      else some (text, r)

def startsSignedNumber (tokens : List Bytes) (b : UInt8) (s : Bytes) : Bool :=
  (b == chr '-' || b == chr '+') && s.head?.any isDigit && canStartSignedNumber tokens

def twoCharTokens : List Bytes := [lit ">=", lit "<=", lit "!=", lit "<>"]

def oneCharTokens : Bytes := lit ",()*;=><"

/-- The next token of a text that starts with `b`, and the text behind it. -/
def scanToken (tokens : List Bytes) (b : UInt8) (s : Bytes) : Except Bytes (Bytes × Bytes) :=
  if isQuote b then
    match scanQuoted b s with
    | none => .error (lit "Unterminated quoted string in SQL query.")
    | some (t, r) =>
        if maxQuotedLiteralBytes < (b :: t).length then
          .error (lit "SQL quoted literal exceeds the maximum supported length.")
        else .ok (b :: t, r)
  else if isIdentifierStart b then
    let text := b :: s.takeWhile isIdentifierChar
    if maxIdentifierBytes < text.length then
      .error (lit "SQL identifier exceeds the maximum supported length.")
    else .ok (text, s.dropWhile isIdentifierChar)
  else if isDigit b || startsSignedNumber tokens b s then
    match scanNumber b s with
    | none => .error (lit "Invalid numeric literal in SQL query.")
    | some tr => .ok tr
  else if twoCharTokens.contains ((b :: s).take 2) then .ok ((b :: s).take 2, s.drop 1)
  else if b ∈ oneCharTokens then .ok ([b], s)
  else .error (lit "Unsupported SQL token near '" ++ b :: lit "'.")

def parenthesisDepth (depth : Nat) (token : Bytes) : Except Bytes Nat :=
  if token = lit "(" then
    if maxParenthesisDepth < depth + 1 then
      .error (lit "SQL query exceeds the maximum supported parenthesis depth.")
    else .ok (depth + 1)
  else if token = lit ")" then
    if depth = 0 then .error (lit "SQL query contains an unmatched closing parenthesis.")
    else .ok (depth - 1)
  else .ok depth

/-- The loop of `SQLTokenize`. Each round takes a byte, so the length of the text is fuel
enough. -/
def tokenizeLoop : Nat → Nat → List Bytes → Bytes → Except Bytes (List Bytes)
  | 0, _, _, _ => .error []
  | _ + 1, depth, tokens, [] =>
      if depth ≠ 0 then .error (lit "SQL query contains unmatched parentheses.") else .ok tokens
  | fuel + 1, depth, tokens, b :: s =>
      if isSpace b then tokenizeLoop fuel depth tokens s
      else
        match scanToken tokens b s with
        | .error e => .error e
        | .ok (token, r) =>
          match parenthesisDepth depth token with
          | .error e => .error e
          | .ok depth =>
            if maxTokens ≤ tokens.length then
              .error (lit "SQL query exceeds the maximum supported token count.")
            else tokenizeLoop fuel depth (tokens ++ [token]) r

/-- `SQLTokenize`. -/
def tokenize (sqlText : Bytes) : Except Bytes (List Bytes) :=
  if maxQueryBytes < sqlText.length then
    .error (lit "SQL query exceeds the maximum supported length.")
  else if sqlText.any isDisallowedControl then
    .error (lit "SQL query contains disallowed control characters.")
  else tokenizeLoop (sqlText.length + 1) 0 [] sqlText

end Hlquery.Sql
