import Hlquery.Filter.Connectors
import Hlquery.Sql.Where

/-!
# SQL conditions as expressions

The parser of `Sql.Where` keeps no tree. Here is the tree: predicates on a field, joined by `AND` and
`OR` and negated by `NOT` in front of a parenthesis, together with the grammar that says which
tokens spell which expression. The grammar is the usual one in three levels, so that `AND` binds
tighter than `OR` and both associate to the left.

A predicate comes with the texts of the single comparisons it is made of, and with its meaning in
terms of them: an `IN` list is a disjunction, `NOT IN` a conjunction, `NOT BETWEEN` a disjunction of
the two sides. What a single comparison means is left to whoever reads its text.

The inversion lemmas at the end say what a successful run of each function of the parser has seen.
-/

set_option autoImplicit false

namespace Hlquery.Sql

open Bytes

/-! ## Predicates -/

/-- The right side of a comparison: the keyword `NULL`, or a literal. The parser hands both on as a
text, so that a quoted `'null'` and the keyword are one to it. -/
inductive Operand where
  | null
  | literal (value : Bytes)
  deriving DecidableEq, Repr

namespace Operand

def value : Operand → Bytes
  | null => lit "NULL"
  | literal value => value

end Operand

def operandOf (token : Bytes) : Option Operand :=
  if isQuoted token = false ∧ toUpper token = lit "NULL" then some .null
  else (valueOf token).map .literal

/-- What `IS` compares with. -/
def IsTarget.operand : IsTarget → Operand
  | null => .null
  | true => .literal (lit "true")
  | false => .literal (lit "false")

/-- A predicate on a field, as the parser tells them apart. The operator of a comparison is the one
that is rendered, behind a leading `NOT`; `IS` is a comparison. -/
inductive Predicate where
  | compare (op : ComparisonOp) (operand : Operand)
  | between (negate : Bool) (low high : Bytes)
  | like (caseInsensitive negate : Bool) (value : Bytes)
  | contains (negate : Bool) (value : Bytes)
  | isIn (negate : Bool) (operands : List Operand)
  deriving DecidableEq, Repr

def Keyword (word token : Bytes) : Prop := toUpper token = word

/-- How the word of a predicate and a `NOT` in front of it are written. -/
inductive SpelledWord (word : Bytes) : Bool → List Bytes → Prop where
  | plain {w : Bytes} : Keyword word w → SpelledWord word false [w]
  | negated {n w : Bytes} : Keyword (lit "NOT") n → Keyword word w → SpelledWord word true [n, w]

/-- The tokens of a predicate behind its field. The flag is a `NOT` in front of the field, which
only a comparison takes notice of. -/
inductive Predicate.Spelled : Bool → List Bytes → Predicate → Prop where
  | compare {negate : Bool} {o v : Bytes} {op op' : ComparisonOp} {operand : Operand} :
      ComparisonOp.ofToken o = some op → (if negate then op.negated else some op) = some op' →
      operandOf v = some operand → Spelled negate [o, v] (.compare op' operand)
  | is {negate : Bool} {i t : Bytes} {target : IsTarget} :
      Keyword (lit "IS") i → isTargetOf t = some target →
      Spelled negate [i, t] (.compare .eq target.operand)
  | isNot {negate : Bool} {i n t : Bytes} {target : IsTarget} :
      Keyword (lit "IS") i → Keyword (lit "NOT") n → isTargetOf t = some target →
      Spelled negate [i, n, t] (.compare .ne target.operand)
  | between {negate neg : Bool} {w : List Bytes} {l a h low high : Bytes} :
      SpelledWord (lit "BETWEEN") neg w → valueOf l = some low → Keyword (lit "AND") a →
      valueOf h = some high → Spelled negate (w ++ [l, a, h]) (.between neg low high)
  | like {negate neg : Bool} {w : List Bytes} {v value : Bytes} :
      SpelledWord (lit "LIKE") neg w → valueOf v = some value →
      Spelled negate (w ++ [v]) (.like false neg value)
  | iLike {negate neg : Bool} {w : List Bytes} {v value : Bytes} :
      SpelledWord (lit "ILIKE") neg w → valueOf v = some value →
      Spelled negate (w ++ [v]) (.like true neg value)
  | contains {negate neg : Bool} {w : List Bytes} {v value : Bytes} :
      SpelledWord (lit "CONTAINS") neg w → valueOf v = some value →
      Spelled negate (w ++ [v]) (.contains neg value)
  | isIn {negate neg : Bool} {w vs : List Bytes} {operands : List Operand} :
      SpelledWord (lit "IN") neg w → vs.map operandOf = operands.map some →
      Spelled negate (w ++ lit "(" :: (vs.intersperse (lit ",") ++ [lit ")"])) (.isIn neg operands)

namespace Predicate

def comparisons (field : Bytes) : Predicate → List Bytes
  | compare op operand => [comparisonText field op operand.value]
  | between false low high => [rangeText field low high]
  | between true low high => [boundText field .lt low, boundText field .gt high]
  | like caseInsensitive negate value =>
      [likeText field caseInsensitive negate (convertLikePattern false value)]
  | contains negate value => [likeText field false negate (lit "*" ++ value ++ lit "*")]
  | isIn negate operands =>
      operands.map fun operand => comparisonText field (inListOp negate) operand.value

def isConjunction : Predicate → Bool
  | isIn negate _ => negate
  | _ => false

def connector (p : Predicate) : Bytes := inListConnector p.isConjunction

def text (field : Bytes) (p : Predicate) : Bytes := joinTerms p.connector (p.comparisons field)

/-- **The meaning of a predicate**, given that of its single comparisons. -/
def holds (comparison : Bytes → Bool) (field : Bytes) (p : Predicate) : Bool :=
  if p.isConjunction then (p.comparisons field).all comparison
  else (p.comparisons field).any comparison

def Accepted : Predicate → Prop
  | compare op operand =>
      if isNullText operand.value then op = .eq ∨ op = .ne else acceptsFilterLiteral operand.value
  | between _ low high => acceptsFilterLiteral low ∧ acceptsFilterLiteral high
  | like _ _ value =>
      acceptsFilterLiteral value ∧ acceptsFilterLiteral (convertLikePattern false value) ∧
        convertLikePattern false value ≠ []
  | contains _ value => acceptsFilterLiteral value ∧ value ≠ []
  | isIn _ operands =>
      operands ≠ [] ∧
        ∀ operand ∈ operands, isNullText operand.value ∨ acceptsFilterLiteral operand.value

end Predicate

/-! ## Expressions -/

inductive Expr where
  | predicate (field : Bytes) (p : Predicate)
  | not (e : Expr)
  | and (e f : Expr)
  | or (e f : Expr)
  deriving DecidableEq, Repr

/-- A field with or without a `NOT` in front of it. A field called like the keyword can only stand
behind one. -/
inductive SpelledField : Bool → List Bytes → Bytes → Prop where
  | plain {f : Bytes} : ¬Keyword (lit "NOT") f → SpelledField false [f] f
  | negated {n f : Bytes} : Keyword (lit "NOT") n → SpelledField true [n, f] f

open Filter (Level)

/-- **The grammar**: the tokens that spell an expression at each level. -/
inductive Spells (scope : Scope) : Level → List Bytes → Expr → Prop where
  | predicate {negate : Bool} {n ts : List Bytes} {f field : Bytes} {p : Predicate} :
      SpelledField negate n f → referenceOf scope f = some field → p.Spelled negate ts →
      Spells scope .primary (n ++ ts) (.predicate field p)
  | group {ts : List Bytes} {e : Expr} :
      Spells scope .disjunction ts e → Spells scope .primary (lit "(" :: (ts ++ [lit ")"])) e
  | not {n : Bytes} {ts : List Bytes} {e : Expr} :
      Keyword (lit "NOT") n → Spells scope .disjunction ts e →
      Spells scope .primary (n :: lit "(" :: (ts ++ [lit ")"])) (.not e)
  | conjunct {ts : List Bytes} {e : Expr} :
      Spells scope .primary ts e → Spells scope .conjunction ts e
  | and {k : Bytes} {ts us : List Bytes} {e f : Expr} :
      Spells scope .conjunction ts e → Keyword (lit "AND") k → Spells scope .primary us f →
      Spells scope .conjunction (ts ++ k :: us) (.and e f)
  | disjunct {ts : List Bytes} {e : Expr} :
      Spells scope .conjunction ts e → Spells scope .disjunction ts e
  | or {k : Bytes} {ts us : List Bytes} {e f : Expr} :
      Spells scope .disjunction ts e → Keyword (lit "OR") k → Spells scope .conjunction us f →
      Spells scope .disjunction (ts ++ k :: us) (.or e f)

namespace Expr

def comparisons : Expr → List Bytes
  | predicate field p => p.comparisons field
  | not e => e.comparisons
  | and e f => e.comparisons ++ f.comparisons
  | or e f => e.comparisons ++ f.comparisons

/-- **The meaning of an expression**, given that of its single comparisons. -/
def holds (comparison : Bytes → Bool) : Expr → Bool
  | predicate field p => p.holds comparison field
  | not e => !e.holds comparison
  | and e f => e.holds comparison && f.holds comparison
  | or e f => e.holds comparison || f.holds comparison

end Expr

/-! ## What the parser has seen -/

@[simp] theorem joinTerms_singleton (connector t : Bytes) : joinTerms connector [t] = t := by
  simp [joinTerms, List.intercalate]

variable {tokens rest : List Bytes} {field text : Bytes} {neg negate : Bool}
  {keyword : PredicateKeyword}

theorem parseValue_eq_some {value : Bytes} (h : parseValue tokens = some (value, rest)) :
    ∃ v, valueOf v = some value ∧ tokens = v :: rest := by
  cases tokens with
  | nil => simp [parseValue] at h
  | cons v tokens =>
    obtain ⟨value', hv, he⟩ := Option.map_eq_some_iff.mp h
    cases he
    exact ⟨v, hv, rfl⟩

/-- A value is an operand that is handed on as a text. -/
theorem operandOf_of_valueOf {v value : Bytes} (h : valueOf v = some value) :
    ∃ operand, operandOf v = some operand ∧ operand.value = value := by
  unfold operandOf
  split_ifs with hnull
  · refine ⟨.null, rfl, ?_⟩
    obtain ⟨hquoted, hupper⟩ := hnull
    unfold valueOf at h
    split at h
    · rw [hquoted, hupper, if_neg (by decide), if_neg (by decide), if_neg (by decide)] at h
      exact Option.some.inj h
    · cases h
  · exact ⟨.literal value, by rw [h]; rfl, rfl⟩

theorem IsTarget.operand_value (target : IsTarget) : target.operand.value = target.value := by
  cases target <;> rfl

theorem matchKeyword_eq_some {word : Bytes} (h : matchKeyword word tokens = some rest) :
    ∃ k, Keyword word k ∧ tokens = k :: rest := by
  cases tokens with
  | nil => simp [matchKeyword] at h
  | cons k tokens =>
    simp only [matchKeyword] at h
    split at h
    · rename_i hk
      cases h
      exact ⟨k, hk, rfl⟩
    · cases h

theorem buildRenderedComparison_eq_ok {op : ComparisonOp} {operand : Operand}
    (h : buildRenderedComparison field op operand.value = .ok text) :
    text = comparisonText field op operand.value ∧ (Predicate.compare op operand).Accepted := by
  unfold buildRenderedComparison at h
  simp only [Predicate.Accepted]
  split at h
  · rename_i hnull
    rw [if_pos hnull]
    split at h
    · rename_i hop
      exact ⟨(Except.ok.inj h).symm, hop⟩
    · cases h
  · rename_i hnull
    rw [if_neg hnull]
    split at h
    · rename_i hlit
      exact ⟨(Except.ok.inj h).symm, hlit⟩
    · cases h

def PredicateKeyword.word : PredicateKeyword → Bytes
  | isIn => lit "IN"
  | between => lit "BETWEEN"
  | like => lit "LIKE"
  | iLike => lit "ILIKE"
  | contains => lit "CONTAINS"

theorem predicateKeyword_eq_some (h : predicateKeyword tokens = some (keyword, rest)) :
    ∃ k, Keyword keyword.word k ∧ tokens = k :: rest := by
  cases tokens with
  | nil => simp [predicateKeyword] at h
  | cons k tokens =>
    simp only [predicateKeyword] at h
    split_ifs at h with h₁ h₂ h₃ h₄ h₅ <;>
      obtain ⟨rfl, rfl⟩ := Prod.mk.inj (Option.some.inj h) <;>
      exact ⟨k, ‹_›, rfl⟩

/-- The run of a parser behind the word of a predicate: `tokens` up to `rest` spell a predicate
behind the word, and `text` is its text. -/
def ReadsBehind (keyword : PredicateKeyword) (field : Bytes) (neg : Bool)
    (tokens rest : List Bytes) (text : Bytes) : Prop :=
  ∃ (ts : List Bytes) (p : Predicate), tokens = ts ++ rest ∧
    (∀ (negate : Bool) (w : List Bytes), SpelledWord keyword.word neg w →
      p.Spelled negate (w ++ ts)) ∧
    text = p.text field ∧ p.Accepted

theorem parseBetween_eq_ok (h : parseBetween field neg tokens = .ok (text, rest)) :
    ReadsBehind .between field neg tokens rest text := by
  unfold parseBetween at h
  split at h
  · cases h
  rename_i low t₁ hlow
  obtain ⟨l, hl, rfl⟩ := parseValue_eq_some hlow
  split at h
  · cases h
  rename_i t₂ hand
  obtain ⟨a, ha, rfl⟩ := matchKeyword_eq_some hand
  split at h
  · cases h
  rename_i high t₃ hhigh
  obtain ⟨v, hv, rfl⟩ := parseValue_eq_some hhigh
  split at h
  · rename_i hlit
    have hlit' : acceptsFilterLiteral low ∧ acceptsFilterLiteral high := by simpa using hlit
    have htext : (Predicate.between neg low high).text field = text ∧ t₃ = rest := by
      cases neg <;> simpa [Predicate.text, Predicate.connector, Predicate.isConjunction,
        Predicate.comparisons, inListConnector] using h
    obtain ⟨rfl, rfl⟩ := htext
    exact ⟨[l, a, v], .between neg low high, rfl, fun negate w hw => .between hw hl ha hv, rfl, hlit'⟩
  · cases h

theorem parseLike_eq_ok {caseInsensitive : Bool}
    (h : parseLike field caseInsensitive neg tokens = .ok (text, rest)) :
    ReadsBehind (if caseInsensitive then .iLike else .like) field neg tokens rest text := by
  unfold parseLike at h
  split at h
  · cases h
  rename_i value t₁ hvalue
  obtain ⟨v, hv, rfl⟩ := parseValue_eq_some hvalue
  dsimp only at h
  split_ifs at h with hlit hne
  cases h
  have hlit' := (Bool.and_eq_true _ _).mp hlit
  refine ⟨[v], .like caseInsensitive neg value, rfl, fun negate w hw => ?_, ?_, hlit'.1, hlit'.2, hne⟩
  · cases caseInsensitive with
    | true => exact .iLike hw hv
    | false => exact .like hw hv
  · exact (joinTerms_singleton _ _).symm

theorem parseContains_eq_ok (h : parseContains field neg tokens = .ok (text, rest)) :
    ReadsBehind .contains field neg tokens rest text := by
  unfold parseContains at h
  split at h
  · cases h
  rename_i value t₁ hvalue
  obtain ⟨v, hv, rfl⟩ := parseValue_eq_some hvalue
  split_ifs at h with hlit hne
  cases h
  exact ⟨[v], .contains neg value, rfl, fun negate w hw => .contains hw hv,
    (joinTerms_singleton _ _).symm, hlit, hne⟩

/-- The loop of an `IN` list reads values with commas between them up to the parenthesis. -/
theorem inListLoop_eq_ok : ∀ {tokens terms rest terms' : List Bytes},
      inListLoop field neg terms tokens = .ok (terms', rest) →
      ∃ (vs : List Bytes) (operands : List Operand), vs ≠ [] ∧
        vs.map operandOf = operands.map some ∧
        tokens = vs.intersperse (lit ",") ++ lit ")" :: rest ∧
        terms' = terms ++ (Predicate.isIn neg operands).comparisons field ∧
        ∀ operand ∈ operands, isNullText operand.value ∨ acceptsFilterLiteral operand.value
  | [], _, _, _, h => absurd h (by simp [inListLoop])
  | [token], terms, _, _, h => by
    simp only [inListLoop] at h
    split_ifs at h
    split at h
    · cases h
    · split at h <;> cases h
  | token :: separator :: tokens, terms, rest, terms', h => by
    simp only [inListLoop] at h
    split at h
    · cases h
    split at h
    · cases h
    rename_i value hvalue
    obtain ⟨operand, hoperand, rfl⟩ := operandOf_of_valueOf hvalue
    split at h
    · cases h
    rename_i term hterm
    obtain ⟨rfl, hlit⟩ := buildRenderedComparison_eq_ok hterm
    have hlit' : isNullText operand.value ∨ acceptsFilterLiteral operand.value := by
      simp only [Predicate.Accepted] at hlit
      split_ifs at hlit with hnull
      · exact .inl hnull
      · exact .inr hlit
    split_ifs at h with hclose hcomma
    · cases h
      refine ⟨[token], [operand], by simp, by simp [hoperand], by simp [hclose], rfl, ?_⟩
      simpa using hlit'
    · obtain ⟨vs, operands, hne, hmap, rfl, rfl, hall⟩ := inListLoop_eq_ok h
      refine ⟨token :: vs, operand :: operands, by simp, by simp [hoperand, hmap], ?_, ?_, ?_⟩
      · cases vs with
        | nil => exact absurd rfl hne
        | cons v vs => simp [List.intersperse, hcomma]
      · simp [Predicate.comparisons]
      · intro x hx
        rcases List.mem_cons.mp hx with rfl | hx
        · exact hlit'
        · exact hall x hx

theorem parseInList_eq_ok (h : parseInList field neg tokens = .ok (text, rest)) :
    ReadsBehind .isIn field neg tokens rest text := by
  cases tokens with
  | nil => simp [parseInList] at h
  | cons token tokens =>
    simp only [parseInList] at h
    split_ifs at h with hopen
    cases hloop : inListLoop field neg [] tokens with
    | error e => rw [hloop] at h; simp [Except.map] at h
    | ok tr =>
      rw [hloop] at h
      obtain ⟨terms, rest'⟩ := tr
      cases h
      obtain ⟨vs, operands, hne, hmap, rfl, rfl, hall⟩ := inListLoop_eq_ok hloop
      refine ⟨lit "(" :: (vs.intersperse (lit ",") ++ [lit ")"]), .isIn neg operands, by simp [hopen],
        fun negate w hw => .isIn hw hmap, rfl, ?_, hall⟩
      rintro rfl
      exact hne (by simpa using hmap)

theorem parseKeywordPredicate_eq_ok
    (h : parseKeywordPredicate keyword field neg tokens = .ok (text, rest)) :
    ReadsBehind keyword field neg tokens rest text := by
  cases keyword with
  | isIn => exact parseInList_eq_ok h
  | between => exact parseBetween_eq_ok h
  | like => exact parseLike_eq_ok h
  | iLike => exact parseLike_eq_ok h
  | contains => exact parseContains_eq_ok h

def ReadsPredicate (field : Bytes) (negate : Bool) (tokens rest : List Bytes) (text : Bytes) :
    Prop :=
  ∃ (ts : List Bytes) (p : Predicate), tokens = ts ++ rest ∧ p.Spelled negate ts ∧
    text = p.text field ∧ p.Accepted

theorem ReadsBehind.readsPredicate {w : List Bytes}
    (h : ReadsBehind keyword field neg tokens rest text) (hw : SpelledWord keyword.word neg w) :
    ReadsPredicate field negate (w ++ tokens) rest text := by
  obtain ⟨ts, p, rfl, hspelled, htext, hacc⟩ := h
  exact ⟨w ++ ts, p, by simp, hspelled negate w hw, htext, hacc⟩

theorem parseIsPredicate_eq_ok {i : Bytes} (hi : Keyword (lit "IS") i)
    (h : parseIsPredicate field tokens = .ok (text, rest)) :
    ReadsPredicate field negate (i :: tokens) rest text := by
  unfold parseIsPredicate optionalKeyword at h
  cases hn : matchKeyword (lit "NOT") tokens with
  | some tokens' =>
    obtain ⟨n, hnot, rfl⟩ := matchKeyword_eq_some hn
    simp only [hn] at h
    cases tokens' with
    | nil => cases h
    | cons t tokens' =>
      cases ht : isTargetOf t with
      | none => simp [ht] at h
      | some target =>
        simp only [ht, if_true, ← target.operand_value] at h
        cases hb : buildRenderedComparison field .ne target.operand.value with
        | error e => rw [hb] at h; simp [Except.map] at h
        | ok text' =>
          rw [hb] at h
          cases h
          obtain ⟨rfl, hacc⟩ := buildRenderedComparison_eq_ok hb
          exact ⟨[i, n, t], _, rfl, .isNot hi hnot ht, (joinTerms_singleton _ _).symm, hacc⟩
  | none =>
    simp only [hn] at h
    cases tokens with
    | nil => cases h
    | cons t tokens =>
      cases ht : isTargetOf t with
      | none => simp [ht] at h
      | some target =>
        simp only [ht, Bool.false_eq_true, if_false, ← target.operand_value] at h
        cases hb : buildRenderedComparison field .eq target.operand.value with
        | error e => rw [hb] at h; simp [Except.map] at h
        | ok text' =>
          rw [hb] at h
          cases h
          obtain ⟨rfl, hacc⟩ := buildRenderedComparison_eq_ok hb
          exact ⟨[i, t], _, rfl, .is hi ht, (joinTerms_singleton _ _).symm, hacc⟩

theorem parseOperatorComparison_eq_ok
    (h : parseOperatorComparison field negate tokens = .ok (text, rest)) :
    ReadsPredicate field negate tokens rest text := by
  cases tokens with
  | nil => simp [parseOperatorComparison] at h
  | cons o tokens =>
    simp only [parseOperatorComparison] at h
    split at h
    · cases h
    rename_i op hop
    split at h
    · cases h
    rename_i op' hneg
    split at h
    · cases h
    rename_i value t₁ hvalue
    obtain ⟨v, hv, rfl⟩ := parseValue_eq_some hvalue
    obtain ⟨operand, hoperand, rfl⟩ := operandOf_of_valueOf hv
    cases hb : buildRenderedComparison field op' operand.value with
    | error e => rw [hb] at h; simp [Except.map] at h
    | ok text' =>
      rw [hb] at h
      cases h
      obtain ⟨rfl, hacc⟩ := buildRenderedComparison_eq_ok hb
      exact ⟨[o, v], _, rfl, .compare hop hneg hoperand, (joinTerms_singleton _ _).symm, hacc⟩

/-- **What `ParseComparison` accepts behind a field is a predicate of the grammar**, and it writes
that predicate's text. -/
theorem parsePredicate_eq_ok (h : parsePredicate field negate tokens = .ok (text, rest)) :
    ReadsPredicate field negate tokens rest text := by
  unfold parsePredicate at h
  cases hn : matchKeyword (lit "NOT") tokens with
  | some tokens' =>
    obtain ⟨n, hnot, rfl⟩ := matchKeyword_eq_some hn
    simp only [hn] at h
    split at h
    · rename_i keyword t₁ hk
      obtain ⟨k, hword, rfl⟩ := predicateKeyword_eq_some hk
      exact (parseKeywordPredicate_eq_ok h).readsPredicate (.negated hnot hword)
    · cases h
  | none =>
    simp only [hn] at h
    split at h
    · rename_i keyword t₁ hk
      obtain ⟨k, hword, rfl⟩ := predicateKeyword_eq_some hk
      exact (parseKeywordPredicate_eq_ok h).readsPredicate (.plain hword)
    · split at h
      · rename_i t₁ his
        obtain ⟨i, hi, rfl⟩ := matchKeyword_eq_some his
        exact parseIsPredicate_eq_ok hi h
      · exact parseOperatorComparison_eq_ok h

theorem optionalKeyword_spelled {f : Bytes}
    (h : optionalKeyword (lit "NOT") tokens = (negate, f :: rest)) :
    ∃ n, SpelledField negate n f ∧ tokens = n ++ rest := by
  unfold optionalKeyword at h
  split at h
  · rename_i rest' hk
    cases h
    obtain ⟨n, hn, rfl⟩ := matchKeyword_eq_some hk
    exact ⟨[n, f], .negated hn, rfl⟩
  · rename_i hk
    cases h
    refine ⟨[f], .plain fun hf => ?_, rfl⟩
    simp only [matchKeyword] at hk
    rw [if_pos (show toUpper f = lit "NOT" from hf)] at hk
    cases hk

/-- **What `ParseComparison` accepts is a field with a predicate.** -/
theorem parseComparison_eq_ok {scope : Scope} {cursor rest : Cursor}
    (h : parseComparison scope cursor = .ok (text, rest)) :
    ∃ ts field p, cursor.tokens = ts ++ rest.tokens ∧
      Spells scope .primary ts (.predicate field p) ∧ text = p.text field ∧ p.Accepted := by
  unfold parseComparison at h
  split at h
  · cases h
  cases hn : optionalKeyword (lit "NOT") cursor.tokens with
  | mk negate tokens =>
    simp only [hn] at h
    cases tokens with
    | nil => cases h
    | cons f tokens =>
      obtain ⟨n, hnot, htokens⟩ := optionalKeyword_spelled hn
      cases hf : referenceOf scope f with
      | none => simp [hf] at h
      | some field =>
        simp only [hf] at h
        cases hp : parsePredicate field negate tokens with
        | error e => rw [hp] at h; simp [Except.map] at h
        | ok tr =>
          obtain ⟨text', rest'⟩ := tr
          rw [hp] at h
          cases h
          obtain ⟨ts, p, rfl, hspelled, rfl, hacc⟩ := parsePredicate_eq_ok hp
          exact ⟨n ++ ts, field, p, by simp [htokens], .predicate hnot hf hspelled, rfl, hacc⟩

end Hlquery.Sql
