import Hlquery.Sql.Tokens

/-!
# Literals in an SQL statement

A literal is written between quotes, with every quote inside it doubled. Wherever the tokenizer comes
to one it takes the literal and no more, and `SQLStripQuotes` gives back what was written
(`tokenizeLoop_quoted`), **unless the next byte is the same quote**: two literals with nothing between
them are one.
-/

set_option autoImplicit false

namespace Hlquery.Sql

open Bytes

variable {quote : UInt8}

def doubled (quote : UInt8) : Bytes → Bytes
  | [] => []
  | b :: s => if b = quote then b :: b :: doubled quote s else b :: doubled quote s

def quoted (quote : UInt8) (value : Bytes) : Bytes := quote :: (doubled quote value ++ [quote])

theorem undouble_cons {b : UInt8} (hb : b ≠ quote) (s : Bytes) :
    undouble quote (b :: s) = b :: undouble quote s := by
  cases s with
  | nil => rfl
  | cons c s => rw [undouble, if_neg fun h => hb h.1]

theorem undouble_doubled (value : Bytes) : undouble quote (doubled quote value) = value := by
  induction value with
  | nil => rfl
  | cons b s ih =>
    unfold doubled
    split
    · rename_i hb
      rw [undouble, if_pos ⟨hb, hb⟩, ih, hb]
    · rename_i hb
      rw [undouble_cons hb, ih]

theorem scanQuoted_cons {b : UInt8} (hb : b ≠ quote) {s : Bytes} (hs : s ≠ []) :
    scanQuoted quote (b :: s) = (scanQuoted quote s).map fun tr => (b :: tr.1, tr.2) := by
  cases s with
  | nil => exact absurd rfl hs
  | cons c s => rw [scanQuoted, if_neg hb]

/-- **A doubled quote does not end the literal, the last one does.** -/
theorem scanQuoted_doubled (hquote : quote ≠ chr '`') (value : Bytes) {after : Bytes}
    (hafter : after.head? ≠ some quote) :
    scanQuoted quote (doubled quote value ++ quote :: after) =
      some (doubled quote value ++ [quote], after) := by
  induction value with
  | nil =>
    cases after with
    | nil => simp [doubled, scanQuoted]
    | cons c s =>
      have hc : c ≠ quote := by simpa using hafter
      simp [doubled, scanQuoted, hc]
  | cons b s ih =>
    unfold doubled
    split
    · rename_i hb
      rw [List.cons_append, List.cons_append, scanQuoted, if_pos hb, if_pos ⟨hb, hquote⟩, ih]
      rfl
    · rename_i hb
      rw [List.cons_append, scanQuoted_cons hb (by simp), ih]
      rfl

theorem any_doubled (p : UInt8 → Bool) (value : Bytes) : (doubled quote value).any p = value.any p := by
  induction value with
  | nil => rfl
  | cons b s ih => unfold doubled; split <;> simp [ih]

/-- **A literal is one token, and stands for what was written.** This is said of every state in which
the loop of the tokenizer can come to the literal: any depth, any tokens in front, any text behind. -/
theorem tokenizeLoop_quoted (hquote : quote = chr '\'' ∨ quote = chr '"') {value : Bytes}
    (hcontrol : value.any isDisallowedControl = false)
    (hlength : (quoted quote value).length ≤ maxQuotedLiteralBytes) {after : Bytes}
    (hafter : after.head? ≠ some quote) (fuel depth : Nat) {tokens : List Bytes}
    (hroom : tokens.length < maxTokens) :
    tokenizeLoop (fuel + 1) depth tokens (quoted quote value ++ after) =
        tokenizeLoop fuel depth (tokens ++ [quoted quote value]) after ∧
      (quoted quote value).any isDisallowedControl = false ∧ stripQuotes (quoted quote value) = value := by
  obtain ⟨his, hspace, hback, hplain⟩ : isQuote quote = true ∧ isSpace quote = false ∧
      quote ≠ chr '`' ∧ isDisallowedControl quote = false := by
    rcases hquote with rfl | rfl <;> decide
  refine ⟨?_, by simp [quoted, any_doubled, hcontrol, hplain], ?_⟩
  · have hscan : scanToken tokens quote ((doubled quote value ++ [quote]) ++ after) =
        .ok (quoted quote value, after) := by
      rw [List.append_assoc, scanToken, if_pos his]
      simp only [List.singleton_append, scanQuoted_doubled hback value hafter]
      exact if_neg (Nat.not_lt.mpr hlength)
    have hlong : ∀ b, quoted quote value ≠ [b] := by simp [quoted]
    have hdepth : parenthesisDepth depth (quoted quote value) = .ok depth :=
      (if_neg (hlong _)).trans (if_neg (hlong _))
    rw [show quoted quote value ++ after = quote :: ((doubled quote value ++ [quote]) ++ after) from rfl,
      tokenizeLoop, if_neg (by simp [hspace]), hscan]
    simp only [hdepth]
    exact if_neg (Nat.not_le.mpr hroom)
  · simp [quoted, stripQuotes, his, hback, undouble_doubled]

theorem tokenizeLoop_quoted_between :
    tokenizeLoop 2 0 [lit "="] (quoted (chr '\'') (lit "it's") ++ lit " AND") =
      tokenizeLoop 1 0 [lit "=", lit "'it''s'"] (lit " AND") :=
  (tokenizeLoop_quoted (.inl rfl) (by decide) (by decide) (by decide) 1 0 (by decide)).1

/-- **A literal in front of another one is not a token of its own.** -/
theorem adjacent_literals :
    tokenize (quoted (chr '\'') (lit "b")) = .ok [lit "'b'"] ∧
      tokenize (quoted (chr '\'') (lit "a") ++ quoted (chr '\'') (lit "b")) = .ok [lit "'a''b'"] := by
  decide +kernel

end Hlquery.Sql
