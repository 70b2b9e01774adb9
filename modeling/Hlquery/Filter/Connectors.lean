import Hlquery.Filter.Evaluate

/-!
# Texts put together with connectors

A text written with `&&`, `||`, `!` and parentheses around texts that are conditions on their own is
read as the expression one expects, with `&&` binding tighter than `||`. The three levels of the
grammar are the three loops of the parser; `Reads level t node` says that the parser of a level reads
`node` off `t` at the end of the text and in front of whatever may follow that level. One lemma for
each way of putting texts together then carries it from the conditions to the whole text.

The only thing to watch is the seam: a text whose last byte is `&` or `|` would lend it to the
connector behind it. `Tight` texts do not end like that.
-/

set_option autoImplicit false

namespace Hlquery.Filter

open Bytes Hlquery.Parser

/-- The last byte is not half of a connector. -/
def Tight (t : Bytes) : Prop := t.getLast? ≠ some (chr '&') ∧ t.getLast? ≠ some (chr '|')

theorem Tight.delimits {t d : Bytes} (ht : Tight t) (hd : endsValue d = true) : Delimits t d := by
  refine ⟨hd, ?_⟩
  cases d with
  | nil => exact absurd hd (by decide)
  | cons b s =>
    have hb : b = chr ')' ∨ b = chr '&' ∨ b = chr '|' := by
      have := endsValue_cons hd
      simpa [delimiters, lit, chr] using this
    rcases hb with rfl | rfl | rfl
    · exact .inl rfl
    · exact .inr ht.1
    · exact .inr ht.2

theorem Tight.of_getLast {t : Bytes} {b : UInt8} (h : t.getLast? = some b) (hamp : b ≠ chr '&')
    (hbar : b ≠ chr '|') : Tight t := by
  unfold Tight
  rw [h]
  exact ⟨fun e => hamp (Option.some.inj e), fun e => hbar (Option.some.inj e)⟩

theorem Tight.append {t u : Bytes} (hu : Tight u) (hne : u ≠ []) : Tight (t ++ u) := by
  unfold Tight
  rw [List.getLast?_append_of_ne_nil _ hne]
  exact hu

/-! ## The levels of the grammar -/

/-- A condition, a negation or a group; these joined by `&&`; and those joined by `||`. -/
inductive Level where
  | primary | conjunction | disjunction

namespace Level

def parser : Level → Nat → Parser FilterExpressionNode
  | primary, depth => parsePrimary depth
  | conjunction, depth => parseAndWith (parsePrimary depth)
  | disjunction, depth => parseOrWith (parsePrimary depth)

/-- What may follow an expression of the level without becoming part of it. -/
def Follows : Level → Bytes → Prop
  | primary, _ => True
  | conjunction, d => d.head? ≠ some (chr '&')
  | disjunction, d => d.head? = some (chr ')')

theorem parser_shrinks (level : Level) (depth : Nat) : Shrinks (level.parser depth) := by
  cases level with
  | primary => exact parsePrimary_shrinks depth
  | conjunction => exact parseAndWith_shrinks (parsePrimary_shrinks depth)
  | disjunction => exact parseOrWith_shrinks (parsePrimary_shrinks depth)

end Level

/-- The end of the text, or something that may stand behind `t` at this level. -/
def MayFollow (level : Level) (t d : Bytes) : Prop := d = [] ∨ Delimits t d ∧ level.Follows d

/-- The parser of the level reads `node` off `t`, up to white space. -/
def Reads (level : Level) (t : Bytes) (node : FilterExpressionNode) : Prop :=
  ∀ ⦃depth : Nat⦄ ⦃d : Bytes⦄, t.length < depth → MayFollow level t d →
    ∃ r, skipWhitespace r = [] ∧ level.parser depth (t ++ d) = some (node, r ++ d)

/-! ## Chains -/

namespace LogicalConnector

def token : LogicalConnector → Bytes
  | and => lit "&&"
  | or => lit "||"

def combine : LogicalConnector → FilterExpressionNode → FilterExpressionNode → FilterExpressionNode
  | and => .and
  | or => .or

def join : LogicalConnector → Bool → Bool → Bool
  | and => (· && ·)
  | or => (· || ·)

variable (k : LogicalConnector)

theorem evaluateExpression_combine (rt : FilterRuntime)
    (document : Document) (m n : FilterExpressionNode) :
    evaluateExpression rt document (k.combine m n) =
      k.join (evaluateExpression rt document m) (evaluateExpression rt document n) := by
  cases k <;> rfl

def operand : LogicalConnector → Level
  | and => .primary
  | or => .conjunction

def level : LogicalConnector → Level
  | and => .conjunction
  | or => .disjunction

theorem parser_level (depth : Nat) :
    k.level.parser depth = chain (matchToken k.token) (k.operand.parser depth) k.combine := by
  cases k <;> rfl

theorem token_ne_nil : k.token ≠ [] := by
  cases k <;> decide

theorem endsValue_token (s : Bytes) : endsValue (k.token ++ s) = true := by
  cases k <;> simp [token, endsValue, startsConnector, startsWith, lit, List.isPrefixOf]

theorem operand_follows_token (s : Bytes) :
    k.operand.Follows (k.token ++ s) := by
  cases k with
  | and => trivial
  | or => simp [operand, Level.Follows, token, lit, chr]

theorem operand_follows {k : LogicalConnector} {d : Bytes} (h : k.level.Follows d) :
    k.operand.Follows d := by
  cases k with
  | and => trivial
  | or =>
    have hd : d.head? = some (chr ')') := h
    show d.head? ≠ some (chr '&')
    rw [hd]
    decide

/-- Behind white space and something that may follow the level, the connector does not stand. -/
theorem matchToken_eq_none {k : LogicalConnector} {t r d : Bytes} (hr : skipWhitespace r = [])
    (hd : MayFollow k.level t d) : matchToken k.token (r ++ d) = none := by
  rcases hd with rfl | ⟨hd, hf⟩
  · rw [List.append_nil]
    unfold matchToken stripPrefix
    rw [hr]
    cases k <;> decide
  · unfold matchToken stripPrefix
    rw [skipWhitespace_append (hd.separated r), hr, List.nil_append, if_neg]
    intro hs
    obtain ⟨s, rfl⟩ := startsWith_iff.mp hs
    cases k with
    | and => exact hf (by simp [token, lit, chr])
    | or =>
      have he : some (chr '|') = some (chr ')') := hf
      exact absurd he (by decide)

end LogicalConnector

/-- The loop for the connector gets through `t` and has `node` then. -/
def ReadsChain (k : LogicalConnector) (t : Bytes) (node : FilterExpressionNode) : Prop :=
  ∀ ⦃depth : Nat⦄ ⦃d : Bytes⦄, t.length < depth → MayFollow k.operand t d →
    ∃ first s r, skipWhitespace r = [] ∧ k.operand.parser depth (t ++ d) = some (first, s) ∧
      Relation.ReflTransGen (ChainStep (matchToken k.token) (k.operand.parser depth) k.combine)
        (first, s) (node, r ++ d)

variable {t : Bytes} {node : FilterExpressionNode} {c : FilterCondition} {k : LogicalConnector}

theorem Reads.chain (h : Reads k.operand t node) : ReadsChain k t node := by
  intro depth d hlen hd
  obtain ⟨r, hr, hread⟩ := h hlen hd
  exact ⟨node, r ++ d, r, hr, hread, .refl⟩

/-- **One more operand behind a connector.** -/
theorem ReadsChain.snoc {u : Bytes} {nt nu : FilterExpressionNode} (ht : ReadsChain k t nt)
    (htight : Tight t) (hu : Reads k.operand u nu) :
    ReadsChain k (t ++ k.token ++ u) (k.combine nt nu) := by
  intro depth d hlen hd
  simp only [List.length_append] at hlen
  have hd' : MayFollow k.operand u d := hd.imp_right fun h =>
    ⟨h.1.of_suffix (List.suffix_append _ u), h.2⟩
  have htd : MayFollow k.operand t (k.token ++ (u ++ d)) :=
    .inr ⟨htight.delimits (k.endsValue_token _), k.operand_follows_token _⟩
  obtain ⟨first, s, r, hr, hfirst, hrun⟩ := @ht depth _ (by omega) htd
  obtain ⟨r', hr', hread⟩ := @hu depth _ (by omega) hd'
  refine ⟨first, s, r', hr', ?_, hrun.tail ⟨nu, u ++ d, ?_, hread, rfl⟩⟩
  · simpa only [List.append_assoc] using hfirst
  refine stripPrefix_eq_some.mpr ?_
  have hsep : Separated r (k.token ++ (u ++ d)) :=
    (htight.delimits (k.endsValue_token (u ++ d))).separated r
  rw [skipWhitespace_append hsep, hr, List.nil_append]

theorem ReadsChain.reads (h : ReadsChain k t node) : Reads k.level t node := by
  intro depth d hlen hd
  obtain ⟨first, s, r, hr, hfirst, hrun⟩ :=
    h hlen (hd.imp_right fun h => ⟨h.1, k.operand_follows h.2⟩)
  refine ⟨r, hr, ?_⟩
  rw [k.parser_level]
  exact (chain_eq_some (matchToken_consumes k.token_ne_nil) (k.operand.parser_shrinks depth)).mpr
    ⟨first, s, hfirst, hrun, k.matchToken_eq_none hr hd⟩

/-! ## Conditions, negations and groups -/

/-- A chain that comes out as a condition has a single operand. -/
theorem operand_of_chain {depth : Nat} {r : Bytes}
    (h : k.level.parser depth t = some (.condition c, r)) :
    k.operand.parser depth t = some (.condition c, r) := by
  rw [k.parser_level] at h
  obtain ⟨first, s, hfirst, hrun, -⟩ :=
    (chain_eq_some (matchToken_consumes k.token_ne_nil) (k.operand.parser_shrinks depth)).mp h
  rcases hrun.cases_tail with he | ⟨y, -, ⟨a, u, -, -, hc⟩⟩
  · cases he
    exact hfirst
  · cases k <;> simp [LogicalConnector.combine] at hc

/-- The parser comes back with a condition if its innermost level does. -/
theorem parse_eq_condition {depth : Nat} (hd : t.length < depth) : parse t = some (.condition c) ↔
      ∃ r, parsePrimary depth t = some (.condition c, r) ∧ skipWhitespace r = [] := by
  rw [parse_eq_some hd]
  constructor
  · rintro ⟨r, hor, hr⟩
    exact ⟨r, operand_of_chain (k := .and) (operand_of_chain (k := .or) hor), hr⟩
  · rintro ⟨r, hprimary, hr⟩
    have hend : ∀ k : LogicalConnector, matchToken k.token r = none := fun k => by
      simpa using k.matchToken_eq_none (t := t) (d := []) hr (.inl rfl)
    refine ⟨r, (chain_eq_some (matchToken_consumes (by decide))
      (parseAndWith_shrinks (parsePrimary_shrinks depth))).mpr ⟨_, r, ?_, .refl, hend .or⟩, hr⟩
    exact (chain_eq_some (matchToken_consumes (by decide)) (parsePrimary_shrinks depth)).mpr
      ⟨_, r, hprimary, .refl, hend .and⟩

/-- A condition that starts with its first byte is read by `ParseCondition`. -/
theorem parse_eq_condition_of_cons {b : UInt8} {s : Bytes} (hspace : isSpace b = false)
    (hnot : b ≠ chr '!') (hgroup : b ≠ chr '(') {c : FilterCondition} :
    parse (b :: s) = some (.condition c) ↔
      ∃ r, parseCondition (b :: s) = some (c, r) ∧ skipWhitespace r = [] := by
  rw [parse_eq_condition (Nat.lt_succ_self (b :: s).length)]
  simp only [parsePrimary_succ (skipWhitespace_cons hspace s), if_neg hnot, if_neg hgroup,
    Option.map_eq_some_iff]
  constructor
  · rintro ⟨r, ⟨⟨c', r'⟩, hc, he⟩, hr⟩
    obtain ⟨h₁, rfl⟩ := Prod.mk.inj he
    obtain rfl := FilterExpressionNode.condition.inj h₁
    exact ⟨r', hc, hr⟩
  · rintro ⟨r, hc, hr⟩
    exact ⟨r, ⟨(c, r), hc, rfl⟩, hr⟩

/-- The bytes of a field that a condition can be on. -/
theorem field_of_parseCondition {r : Bytes} (h : parseCondition t = some (c, r)) :
    c.field ≠ [] ∧ ∀ b ∈ c.field, isFieldByte b = true := by
  unfold parseCondition at h
  dsimp only at h
  split at h
  · unfold geoCondition at h
    dsimp only at h
    split at h
    · cases h
    · split at h
      · obtain ⟨⟨v, r'⟩, -, he⟩ := Option.map_eq_some_iff.mp h
        cases he
        dsimp only
        split
        · exact ⟨by decide, by decide +kernel⟩
        · exact ⟨by decide, by decide +kernel⟩
      · cases h
  · obtain ⟨f, t', hf, ht⟩ := andThen_eq_some.mp h
    obtain ⟨rfl, hne, -⟩ := fieldName_eq_some.mp hf
    have hfield : c.field = (skipWhitespace t).takeWhile isFieldByte := by
      unfold parseTest rangeCondition at ht
      split at ht
      · split at ht
        · cases ht
        · split at ht
          · cases ht
          · exact (Prod.mk.inj (Option.some.inj ht)).1 ▸ rfl
      · split at ht
        · exact (Prod.mk.inj (Option.some.inj ht)).1 ▸ rfl
        · exact (parseComparison_eq_some.mp ht).2.1 ▸ rfl
    rw [hfield]
    exact ⟨hne, fun b hb => List.mem_takeWhile_imp hb⟩

theorem field_of_parsePrimary : ∀ {depth : Nat} {t r : Bytes} {c : FilterCondition},
    parsePrimary depth t = some (.condition c, r) →
      c.field ≠ [] ∧ ∀ b ∈ c.field, isFieldByte b = true
  | 0, _, _, _, h => absurd h (by simp [parsePrimary])
  | depth + 1, t, r, c, h => by
    cases hs : skipWhitespace t with
    | nil => simp [parsePrimary, hs] at h
    | cons b s =>
      rw [parsePrimary_succ hs] at h
      split at h
      · obtain ⟨⟨n, r'⟩, -, he⟩ := Option.map_eq_some_iff.mp h
        cases he
      · split at h
        · -- a group that comes out as a condition holds nothing else
          obtain ⟨n, t', hor, hclose⟩ := andThen_eq_some.mp h
          have hn : n = .condition c := by
            unfold closeGroup at hclose
            split at hclose
            · cases hclose
            · split at hclose
              · exact (Prod.mk.inj (Option.some.inj hclose)).1
              · cases hclose
          rw [hn] at hor
          exact field_of_parsePrimary
            (operand_of_chain (k := .and) (operand_of_chain (k := .or) hor))
        · obtain ⟨⟨c', r'⟩, hc, he⟩ := Option.map_eq_some_iff.mp h
          obtain ⟨h₁, -⟩ := Prod.mk.inj he
          obtain rfl := FilterExpressionNode.condition.inj h₁
          exact field_of_parseCondition hc

/-- **A condition is on a field of letters, digits and underscores**, whatever the text. -/
theorem field_of_parse (h : parse t = some (.condition c)) :
    c.field ≠ [] ∧ ∀ b ∈ c.field, isFieldByte b = true := by
  obtain ⟨r, hprimary, -⟩ := (parse_eq_condition (Nat.lt_succ_self t.length)).mp h
  exact field_of_parsePrimary hprimary

/-- **A text that is a condition on its own is one inside a larger text.** -/
theorem Reads.of_condition (h : parse t = some (.condition c)) :
    Reads .primary t (.condition c) := by
  intro depth d hlen hd
  obtain ⟨r, hprimary, hr⟩ := (parse_eq_condition hlen).mp h
  refine ⟨r, hr, ?_⟩
  rcases hd with rfl | ⟨hd, -⟩
  · rw [List.append_nil, List.append_nil]
    exact hprimary
  · exact parsePrimary_append hprimary (.inl hd)

theorem Reads.not (h : Reads .primary t node) : Reads .primary (lit "!" ++ t) (.not node) := by
  intro depth d hlen hd
  obtain ⟨depth, rfl⟩ : ∃ n, depth = n + 1 := ⟨depth - 1, by omega⟩
  have hlen' : t.length < depth := by simpa [lit] using hlen
  obtain ⟨r, hr, hread⟩ := h hlen' (hd.imp_right fun hd =>
    ⟨hd.1.of_suffix (List.suffix_append (lit "!") t), trivial⟩)
  refine ⟨r, hr, ?_⟩
  show parsePrimary (depth + 1) (chr '!' :: (t ++ d)) = _
  rw [parsePrimary_succ (skipWhitespace_cons (by decide) _), if_pos rfl]
  rw [show parsePrimary depth (t ++ d) = some (node, r ++ d) from hread]
  rfl

theorem Reads.group (h : Reads .disjunction t node) :
    Reads .primary (lit "(" ++ t ++ lit ")") node := by
  intro depth d hlen _
  obtain ⟨depth, rfl⟩ : ∃ n, depth = n + 1 := ⟨depth - 1, by omega⟩
  have hlen' : t.length < depth := by
    simp only [lit, List.length_append] at hlen
    simp at hlen
    omega
  obtain ⟨r, hr, hread⟩ := h hlen' (.inr ⟨delimits_close t d, rfl⟩)
  refine ⟨[], rfl, ?_⟩
  have htext : lit "(" ++ t ++ lit ")" ++ d = chr '(' :: (t ++ chr ')' :: d) := by
    simp [lit, chr]
  show parsePrimary (depth + 1) (lit "(" ++ t ++ lit ")" ++ d) = _
  rw [htext, parsePrimary_succ (skipWhitespace_cons (by decide) _), if_neg (by decide), if_pos rfl]
  refine andThen_eq_some.mpr ⟨node, _, hread, ?_⟩
  unfold closeGroup
  rw [skipWhitespace_append (separated_close r d), hr]
  rfl

theorem Tight.group (t : Bytes) : Tight (lit "(" ++ t ++ lit ")") :=
  .of_getLast (b := chr ')') List.getLast?_concat (by decide) (by decide)

/-- **The whole text is accepted.** -/
theorem Reads.parse (h : Reads .disjunction t node) : parse t = some node := by
  obtain ⟨r, hr, hread⟩ := @h (t.length + 1) _ (by omega) (.inl rfl)
  rw [List.append_nil, List.append_nil] at hread
  exact (parse_eq_some (Nat.lt_succ_self _)).mpr ⟨r, hread, hr⟩

end Hlquery.Filter
