import Hlquery.Sql.Grammar

/-!
# The filter text means what the WHERE clause says

Two recursive-descent parsers meet in a text: the SQL parser writes it and the filter parser reads it
back. This file shows that they agree. Whatever tokens the SQL parser accepts spell an expression of
the grammar, and if each single comparison in it is written as a text that the filter parser reads as
one condition, then the whole text is read as an expression with the truth value of the SQL
expression on every document.

The proof follows the SQL parser. Each of its functions writes texts of one level of the filter
grammar, and `Means` is what is carried through the loops and the recursion: the text ends tightly,
and the filter parser reads an expression with the right meaning off it.
-/

set_option autoImplicit false

namespace Hlquery.Sql

open Bytes Filter

/-! ## Comparisons end tightly -/

variable {t : Bytes} {k : LogicalConnector} {scope : Scope} {p : Predicate}
  {truth : (Bytes → Bool) → Bool} {e : Expr} {value field : Bytes}

theorem notMem_of_acceptsFilterLiteral (h : acceptsFilterLiteral value = true) :
    chr '&' ∉ value ∧ chr '|' ∉ value := by
  rcases (Bool.or_eq_true _ _).mp h with h | h
  · have hbytes := isNumericByte_of_isNumericLiteral h
    exact ⟨fun hb => absurd (hbytes _ hb) (by decide), fun hb => absurd (hbytes _ hb) (by decide)⟩
  · have hsafe := List.all_eq_true.mp h
    exact ⟨fun hb => absurd (hsafe _ hb) (by decide), fun hb => absurd (hsafe _ hb) (by decide)⟩

theorem tight_of_notMem (hamp : chr '&' ∉ t) (hbar : chr '|' ∉ t) : Tight t :=
  ⟨fun h => hamp (List.mem_of_getLast? h), fun h => hbar (List.mem_of_getLast? h)⟩

theorem Tight.append_literal (ht : Tight t) (hvalue : acceptsFilterLiteral value = true) :
    Tight (t ++ value) := by
  by_cases hne : value = []
  · rw [hne, List.append_nil]
    exact ht
  · obtain ⟨hamp, hbar⟩ := notMem_of_acceptsFilterLiteral hvalue
    exact (tight_of_notMem hamp hbar).append hne

theorem tight_word {word : Bytes} (hne : word ≠ []) (hamp : chr '&' ∉ word)
    (hbar : chr '|' ∉ word) : Tight (t ++ word) :=
  (tight_of_notMem hamp hbar).append hne

theorem tight_op (t : Bytes) (op : ComparisonOp) : Tight (t ++ op.text) := by
  cases op <;> exact tight_word (by decide) (by decide) (by decide)

theorem tight_comparisonText {op : ComparisonOp}
    (h : isNullText value ∨ acceptsFilterLiteral value) :
    Tight (comparisonText field op value) := by
  unfold comparisonText
  split_ifs with hnull hop
  · exact tight_word (by decide) (by decide) (by decide)
  · exact tight_word (by decide) (by decide) (by decide)
  refine Tight.append_literal ?_ (h.resolve_left hnull)
  unfold renderedOp
  split_ifs
  · exact tight_word (by decide) (by decide) (by decide)
  · exact tight_op _ op

/-- **The text of an accepted comparison does not end in half a connector.** -/
theorem tight_of_mem_comparisons (hacc : p.Accepted) (ht : t ∈ p.comparisons field) : Tight t := by
  cases p with
  | compare op operand =>
    rw [List.mem_singleton.mp ht]
    refine tight_comparisonText ?_
    simp only [Predicate.Accepted] at hacc
    split_ifs at hacc with hnull
    · exact .inl hnull
    · exact .inr hacc
  | between negate low high =>
    cases negate with
    | false =>
      rw [List.mem_singleton.mp ht]
      exact tight_word (by decide) (by decide) (by decide)
    | true =>
      rcases List.mem_pair.mp ht with rfl | rfl
      · exact Tight.append_literal (tight_op _ _) hacc.1
      · exact Tight.append_literal (tight_op _ _) hacc.2
  | like caseInsensitive negate value =>
    rw [List.mem_singleton.mp ht]
    refine Tight.append_literal ?_ hacc.2.1
    split_ifs <;> exact tight_word (by decide) (by decide) (by decide)
  | contains negate value =>
    rw [List.mem_singleton.mp ht]
    unfold likeText
    rw [← List.append_assoc]
    exact tight_word (by decide) (by decide) (by decide)
  | isIn negate operands =>
    obtain ⟨operand, hoperand, rfl⟩ := List.mem_map.mp ht
    exact tight_comparisonText (hacc.2 operand hoperand)

/-! ## Single comparisons and their conditions -/

def ReadAsCondition (t : Bytes) : Prop := ∃ c, Filter.parse t = some (.condition c)

def conditionHolds (rt : FilterRuntime) (document : Document) (t : Bytes) : Bool :=
  match Filter.parse t with
  | some (.condition c) => evaluateFilterCondition rt document c
  | _ => false

/-- `t` is text of the given level that the filter parser reads with the meaning `truth`. -/
def ReadsAs (level : Level) (t : Bytes) (truth : (Bytes → Bool) → Bool) : Prop :=
  ∃ node, Reads level t node ∧
    ∀ (rt : FilterRuntime) (document : Document),
      evaluateExpression rt document node = truth (conditionHolds rt document)

theorem ReadAsCondition.ne_nil (h : ReadAsCondition t) : t ≠ [] := by
  rintro rfl
  obtain ⟨c, hc⟩ := h
  cases hc

theorem ReadAsCondition.readsAs (h : ReadAsCondition t) :
    ReadsAs .primary t fun comparison => comparison t := by
  obtain ⟨c, hc⟩ := h
  exact ⟨.condition c, .of_condition hc, fun rt document => by simp [evaluateExpression,
    conditionHolds, hc]⟩

/-! ## Lists of comparisons -/

/-- The loop of the filter parser for a connector reads `t` with the meaning `truth`. -/
def ChainReadsAs (k : LogicalConnector) (t : Bytes) (truth : (Bytes → Bool) → Bool) : Prop :=
  ∃ node, ReadsChain k t node ∧
    ∀ (rt : FilterRuntime) (document : Document),
      evaluateExpression rt document node = truth (conditionHolds rt document)

theorem ReadsAs.chain (h : ReadsAs k.operand t truth) : ChainReadsAs k t truth := by
  obtain ⟨node, hread, heval⟩ := h
  exact ⟨node, hread.chain, heval⟩

theorem ChainReadsAs.reads (h : ChainReadsAs k t truth) : ReadsAs k.level t truth := by
  obtain ⟨node, hread, heval⟩ := h
  exact ⟨node, hread.reads, heval⟩

theorem ChainReadsAs.snoc {u : Bytes} {f g : (Bytes → Bool) → Bool} (ht : ChainReadsAs k t f)
    (htight : Tight t) (hu : ReadsAs k.operand u g) :
    ChainReadsAs k (t ++ k.token ++ u) fun comparison => k.join (f comparison) (g comparison) := by
  obtain ⟨nt, hrt, het⟩ := ht
  obtain ⟨nu, hru, heu⟩ := hu
  refine ⟨k.combine nt nu, hrt.snoc htight hru, fun rt document => ?_⟩
  rw [k.evaluateExpression_combine, het, heu]

theorem ReadsAs.group (h : ReadsAs .disjunction t truth) :
    ReadsAs .primary (lit "(" ++ t ++ lit ")") truth := by
  obtain ⟨node, hread, heval⟩ := h
  exact ⟨node, hread.group, heval⟩

theorem ReadsAs.not (h : ReadsAs .primary t truth) :
    ReadsAs .primary (lit "!" ++ t) fun comparison => !truth comparison := by
  obtain ⟨node, hread, heval⟩ := h
  exact ⟨.not node, hread.not, fun rt document => by rw [evaluateExpression, heval]⟩

theorem ReadsAs.disjunction (h : ReadsAs k.level t truth) : ReadsAs .disjunction t truth := by
  cases k with
  | and => exact (ReadsAs.chain (k := .or) h).reads
  | or => exact h

theorem intercalate_cons (sep t : Bytes) : ∀ ts : List Bytes,
    sep.intercalate (t :: ts) = t ++ ts.flatMap (sep ++ ·)
  | [] => by simp [List.intercalate]
  | u :: ts => by
    have h := intercalate_cons sep u ts
    simp only [List.intercalate] at h
    simp [List.intercalate, List.intersperse, h, List.append_assoc]

/-- Comparisons joined by a connector, behind what has been read of the chain. -/
theorem ChainReadsAs.comparisons {f : (Bytes → Bool) → Bool} :
    ∀ {ts : List Bytes} {t : Bytes}, ChainReadsAs k t f → Tight t →
      (∀ u ∈ ts, Tight u) → (∀ u ∈ ts, ReadAsCondition u) →
      ChainReadsAs k (t ++ ts.flatMap (k.token ++ ·)) fun comparison =>
        ts.foldl (fun acc u => k.join acc (comparison u)) (f comparison) := by
  intro ts
  induction ts generalizing f with
  | nil =>
    intro t ht _ _ _
    simpa using ht
  | cons u ts ih =>
    intro t ht htight hts hread
    have hu := hread u (by simp)
    have hoperand : ReadsAs k.operand u fun comparison => comparison u := by
      cases k with
      | and => exact hu.readsAs
      | or => exact (ReadsAs.chain (k := .and) hu.readsAs).reads
    have htight' : Tight (t ++ k.token ++ u) := (hts u (by simp)).append hu.ne_nil
    have h := ih (ht.snoc htight hoperand) htight' (fun v hv => hts v (List.mem_cons_of_mem _ hv))
      fun v hv => hread v (List.mem_cons_of_mem _ hv)
    simpa [List.append_assoc] using h

/-! ## Predicates -/

def Predicate.logical (p : Predicate) : LogicalConnector := if p.isConjunction then .and else .or

theorem Predicate.connector_eq (p : Predicate) : p.connector = p.logical.token := by
  unfold Predicate.connector Predicate.logical inListConnector
  cases p.isConjunction <;> rfl

theorem foldl_join (p : Predicate) (comparison : Bytes → Bool) (ts : List Bytes) (b : Bool) :
    ts.foldl (fun acc u => p.logical.join acc (comparison u)) b =
      if p.isConjunction then b && ts.all comparison else b || ts.any comparison := by
  induction ts generalizing b with
  | nil => cases p.isConjunction <;> simp
  | cons u ts ih =>
    rw [List.foldl_cons, ih]
    unfold Predicate.logical
    cases hp : p.isConjunction <;> simp [LogicalConnector.join, Bool.and_assoc, Bool.or_assoc]

theorem Predicate.comparisons_ne_nil (hacc : p.Accepted) (field : Bytes) :
    p.comparisons field ≠ [] := by
  cases p with
  | between negate low high => cases negate <;> simp [comparisons]
  | isIn negate operands =>
    have hne : operands ≠ [] := hacc.1
    simpa [comparisons] using hne
  | compare | like | contains => simp [comparisons]

theorem Predicate.tight_text (hacc : p.Accepted) (field : Bytes) : Tight (p.text field) := by
  unfold text joinTerms
  split_ifs with hlen
  · exact Tight.group _
  obtain ⟨t, ht⟩ : ∃ t, p.comparisons field = [t] := by
    have hne := comparisons_ne_nil hacc field
    have := List.length_pos_of_ne_nil hne
    exact List.length_eq_one_iff.mp (by omega)
  have htight : Tight t := tight_of_mem_comparisons hacc (show t ∈ p.comparisons field by simp [ht])
  rw [ht]
  simpa [List.intercalate] using htight

theorem Predicate.text_ne_nil (hacc : p.Accepted) (field : Bytes) : p.text field ≠ [] := by
  have hcolon : ∀ t ∈ p.comparisons field, chr ':' ∈ t := by
    intro t ht
    have hnull : ∀ op value, chr ':' ∈ comparisonText field op value := by
      intro op value
      unfold comparisonText
      split_ifs <;> simp [lit, chr]
    cases p with
    | compare op operand => rw [List.mem_singleton.mp ht]; exact hnull op operand.value
    | between negate low high =>
      cases negate with
      | false => rw [List.mem_singleton.mp ht]; simp [rangeText, lit, chr]
      | true => rcases List.mem_pair.mp ht with rfl | rfl <;> simp [boundText, lit, chr]
    | like caseInsensitive negate value =>
      rw [List.mem_singleton.mp ht]; simp [likeText, lit, chr]
    | contains negate value => rw [List.mem_singleton.mp ht]; simp [likeText, lit, chr]
    | isIn negate operands =>
      obtain ⟨operand, -, rfl⟩ := List.mem_map.mp ht
      exact hnull _ operand.value
  obtain ⟨t, ts, hts⟩ := List.exists_cons_of_ne_nil (comparisons_ne_nil hacc field)
  unfold text joinTerms
  split_ifs
  · simp [lit]
  rw [hts, intercalate_cons]
  intro h
  have ht : t = [] := (List.append_eq_nil_iff.mp h).1
  exact absurd (hcolon t (by simp [hts])) (by simp [ht])

/-- **The text of a predicate is read with the meaning of the predicate**, if its single
comparisons are read as conditions. -/
theorem Predicate.readsAs_text (hacc : p.Accepted)
    (hread : ∀ t ∈ p.comparisons field, ReadAsCondition t) :
    ReadsAs .primary (p.text field) fun comparison => p.holds comparison field := by
  have htight : ∀ t ∈ p.comparisons field, Tight t := fun t => tight_of_mem_comparisons hacc
  unfold text holds
  rw [p.connector_eq]
  cases hts : p.comparisons field with
  | nil => exact absurd hts (comparisons_ne_nil hacc field)
  | cons t ts =>
    rw [hts] at hread htight
    cases ts with
    | nil =>
      simpa using (hread t (by simp)).readsAs
    | cons u ts =>
      have hfirst : ReadsAs p.logical.operand t fun comparison => comparison t := by
        have hprimary := (hread t (by simp)).readsAs
        cases p.logical with
        | and => exact hprimary
        | or => exact (ReadsAs.chain (k := .and) hprimary).reads
      have hchain := hfirst.chain.comparisons (htight t (by simp))
        (fun v hv => htight v (List.mem_cons_of_mem _ hv))
        fun v hv => hread v (List.mem_cons_of_mem _ hv)
      rw [← intercalate_cons] at hchain
      have hgroup := hchain.reads.disjunction.group
      simp only [foldl_join] at hgroup
      simpa [joinTerms] using hgroup

/-! ## The SQL parser -/

/-- The text of an expression at a level: it ends tightly, and it is read with the meaning of the
expression if the single comparisons are read as conditions. -/
def Means (level : Level) (t : Bytes) (e : Expr) : Prop :=
  Tight t ∧ t ≠ [] ∧ ((∀ u ∈ e.comparisons, ReadAsCondition u) → ReadsAs level t fun c => e.holds c)

/-- The same for text that the filter parser's loop gets through. -/
def ChainMeans (k : LogicalConnector) (t : Bytes) (e : Expr) : Prop :=
  Tight t ∧ t ≠ [] ∧
    ((∀ u ∈ e.comparisons, ReadAsCondition u) → ChainReadsAs k t fun c => e.holds c)

/-- A parser of tokens is sound for a level: what it accepts is an expression of the level, and the
text it writes means that expression. -/
def Sound (scope : Scope) (level : Level) (p : Cursor → Except Bytes (Bytes × Cursor)) : Prop :=
  ∀ ⦃cursor rest : Cursor⦄ ⦃text : Bytes⦄, p cursor = .ok (text, rest) →
    ∃ ts e, cursor.tokens = ts ++ rest.tokens ∧ Spells scope level ts e ∧ Means level text e

theorem parseComparison_sound (scope : Scope) : Sound scope .primary (parseComparison scope) := by
  intro cursor rest text h
  obtain ⟨ts, field, p, hts, hspells, rfl, hacc⟩ := parseComparison_eq_ok h
  exact ⟨ts, .predicate field p, hts, hspells, p.tight_text hacc field, p.text_ne_nil hacc field,
    p.readsAs_text hacc⟩

def keyword : LogicalConnector → Bytes
  | .and => lit "AND"
  | .or => lit "OR"

def joined : LogicalConnector → Expr → Expr → Expr
  | .and => .and
  | .or => .or

theorem Spells.operand {ts : List Bytes} (h : Spells scope k.operand ts e) :
    Spells scope k.level ts e := by
  cases k with
  | and => exact .conjunct h
  | or => exact .disjunct h

theorem Spells.snoc {ts us : List Bytes} {w : Bytes} {f : Expr} (he : Spells scope k.level ts e)
    (hw : Keyword (keyword k) w) (hf : Spells scope k.operand us f) :
    Spells scope k.level (ts ++ w :: us) (joined k e f) := by
  cases k with
  | and => exact .and he hw hf
  | or => exact .or he hw hf

theorem Means.chain (h : Means k.operand t e) :
    ChainMeans k t e := ⟨h.1, h.2.1, fun hread => (h.2.2 hread).chain⟩

theorem ChainMeans.means (h : ChainMeans k t e) :
    Means k.level t e := ⟨h.1, h.2.1, fun hread => (h.2.2 hread).reads⟩

theorem ChainMeans.snoc {u : Bytes} {f : Expr} (ht : ChainMeans k t e) (hu : Means k.operand u f) :
    ChainMeans k (t ++ k.token ++ u) (joined k e f) := by
  refine ⟨hu.1.append hu.2.1, fun h => hu.2.1 (List.append_eq_nil_iff.mp h).2, fun hread => ?_⟩
  have hcomparisons : (joined k e f).comparisons = e.comparisons ++ f.comparisons := by
    cases k <;> rfl
  have hholds : ∀ c, (joined k e f).holds c = k.join (e.holds c) (f.holds c) := by
    cases k <;> exact fun c => rfl
  rw [hcomparisons] at hread
  simp only [hholds]
  exact (ht.2.2 fun v hv => hread v (List.mem_append_left _ hv)).snoc ht.1
    (hu.2.2 fun v hv => hread v (List.mem_append_right _ hv))

/-- The loop carries the expression read so far and its text. -/
theorem operandLoop_sound {operand : Cursor → Except Bytes (Bytes × Cursor)}
    (hoperand : Sound scope k.operand operand) :
    ∀ {fuel : Nat} {out text : Bytes} {cursor rest : Cursor} {ts : List Bytes} {e : Expr},
      operandLoop (keyword k) k.token operand fuel out cursor = .ok (text, rest) →
      Spells scope k.level ts e → ChainMeans k out e →
      ∃ us f, cursor.tokens = us ++ rest.tokens ∧ Spells scope k.level (ts ++ us) f ∧
        ChainMeans k text f := by
  intro fuel
  induction fuel with
  | zero =>
    intro out text cursor rest ts e h hspells hmeans
    cases h
    exact ⟨[], e, rfl, by simpa using hspells, hmeans⟩
  | succ fuel ih =>
    intro out text cursor rest ts e h hspells hmeans
    simp only [operandLoop] at h
    cases hk : matchKeyword (keyword k) cursor.tokens with
    | none =>
      simp only [hk] at h
      cases h
      exact ⟨[], e, rfl, by simpa using hspells, hmeans⟩
    | some tokens =>
      obtain ⟨w, hw, htokens⟩ := matchKeyword_eq_some hk
      simp only [hk] at h
      cases ho : operand ⟨tokens, cursor.nodes⟩ with
      | error err => simp [ho] at h
      | ok tr =>
        obtain ⟨rhs, cursor'⟩ := tr
        simp only [ho] at h
        obtain ⟨us, f, hus, hfspells, hfmeans⟩ := hoperand ho
        obtain ⟨vs, g, hvs, hgspells, hgmeans⟩ := ih h (hspells.snoc hw hfspells)
          (hmeans.snoc hfmeans)
        have htok : tokens = us ++ cursor'.tokens := hus
        refine ⟨w :: us ++ vs, g, ?_, by simpa using hgspells, hgmeans⟩
        rw [htokens, htok, hvs]
        simp

theorem operands_sound {operand : Cursor → Except Bytes (Bytes × Cursor)}
    (hoperand : Sound scope k.operand operand) :
    Sound scope k.level (operands (keyword k) k.token operand) := by
  intro cursor rest text h
  unfold operands at h
  cases ho : operand cursor with
  | error err => simp [ho] at h
  | ok tr =>
    simp only [ho] at h
    obtain ⟨ts, e, hts, hspells, hmeans⟩ := hoperand ho
    obtain ⟨us, f, hus, hfspells, hfmeans⟩ :=
      operandLoop_sound hoperand h hspells.operand hmeans.chain
    exact ⟨ts ++ us, f, by rw [hts, hus, List.append_assoc], hfspells, hfmeans.means⟩

theorem parseExpressionWith_sound {primary : Cursor → Except Bytes (Bytes × Cursor)}
    (h : Sound scope .primary primary) : Sound scope .disjunction (parseExpressionWith primary) :=
  operands_sound (k := .or) (operands_sound (k := .and) h)

/-- A parser of groups is sound: behind a parenthesis it accepts an expression and the closing
parenthesis, and it writes both. -/
def SoundGroup (scope : Scope) (group : Cursor → Except Bytes (Bytes × Cursor)) : Prop :=
  ∀ ⦃cursor rest : Cursor⦄ ⦃text : Bytes⦄, startsGroup cursor.tokens = true →
    group cursor = .ok (text, rest) →
    ∃ ts e, cursor.tokens = lit "(" :: (ts ++ [lit ")"]) ++ rest.tokens ∧
      Spells scope .disjunction ts e ∧ Means .primary text e

theorem parseGroupWith_sound {primary : Cursor → Except Bytes (Bytes × Cursor)}
    (h : Sound scope .primary primary) : SoundGroup scope (parseGroupWith primary) := by
  intro cursor rest text hstart hgroup
  unfold parseGroupWith at hgroup
  cases he : parseExpressionWith primary ⟨cursor.tokens.tail, cursor.nodes⟩ with
  | error err => simp [he] at hgroup
  | ok tr =>
    obtain ⟨out, cursor'⟩ := tr
    simp only [he] at hgroup
    obtain ⟨ts, e, hts, hspells, hmeans⟩ := parseExpressionWith_sound h he
    unfold closeGroup at hgroup
    split at hgroup
    · cases hgroup
    rename_i token rest' hrest
    split at hgroup
    · rename_i hclose
      cases hgroup
      have htail : cursor.tokens.tail = ts ++ cursor'.tokens := hts
      have hhead : cursor.tokens.head? = some (lit "(") := by simpa [startsGroup] using hstart
      refine ⟨ts, e, ?_, hspells, Tight.group out, by simp [lit], fun hread =>
        (hmeans.2.2 hread).group⟩
      rw [← List.cons_head?_tail hhead, htail, hrest, hclose]
      simp
    · cases hgroup

theorem parsePrimaryWith_sound {group : Cursor → Except Bytes (Bytes × Cursor)}
    (h : SoundGroup scope group) : Sound scope .primary (parsePrimaryWith group scope) := by
  intro cursor rest text hp
  unfold parsePrimaryWith at hp
  split at hp
  · rename_i hneg
    match htokens : cursor.tokens, hneg with
    | n :: p :: tokens, hneg =>
      simp only [startsNegatedGroup, Bool.and_eq_true, beq_iff_eq] at hneg
      obtain ⟨hn, rfl⟩ := hneg
      rw [htokens] at hp
      cases hg : group ⟨lit "(" :: tokens, cursor.nodes⟩ with
      | error err => simp [hg, Except.map] at hp
      | ok tr =>
        obtain ⟨out, rest'⟩ := tr
        simp only [List.tail_cons, hg] at hp
        cases hp
        obtain ⟨ts, e, hts, hspells, hmeans⟩ := h (by simp [startsGroup]) hg
        have hts' : lit "(" :: tokens = lit "(" :: (ts ++ [lit ")"]) ++ rest'.tokens := hts
        refine ⟨n :: lit "(" :: (ts ++ [lit ")"]), .not e, ?_, .not hn hspells, ?_, by simp [lit],
          fun hread => (hmeans.2.2 hread).not⟩
        · rw [hts']
          simp
        · exact hmeans.1.append hmeans.2.1
  · split at hp
    · rename_i hstart
      obtain ⟨ts, e, hts, hspells, hmeans⟩ := h hstart hp
      exact ⟨_, e, hts, .group hspells, hmeans⟩
    · exact parseComparison_sound scope hp

theorem parsePrimary_sound (scope : Scope) :
    ∀ depth : Nat, Sound scope .primary (parsePrimary scope depth)
  | 0 => parsePrimaryWith_sound fun _ _ _ _ h => nomatch h
  | depth + 1 => parsePrimaryWith_sound (parseGroupWith_sound (parsePrimary_sound scope depth))

/-- **The WHERE clause and its filter text mean the same.** Whatever the SQL parser accepts spells an
expression of the grammar, in which `AND` binds tighter than `OR`. If each of its single comparisons
is written as a text that the filter parser reads as one condition, the filter parser accepts the
whole text and, on every document, the expression it reads is true exactly if the SQL expression
is. -/
theorem parseExpression_meaning {scope : Scope} {cursor rest : Cursor} {text : Bytes}
    (h : parseExpression scope cursor = .ok (text, rest)) :
    ∃ ts e, cursor.tokens = ts ++ rest.tokens ∧ Spells scope .disjunction ts e ∧
      ((∀ t ∈ e.comparisons, ReadAsCondition t) → ∃ node, Filter.parse text = some node ∧
          ∀ (rt : FilterRuntime) (document : Document),
            evaluateExpression rt document node = e.holds (conditionHolds rt document)) := by
  obtain ⟨ts, e, hts, hspells, hmeans⟩ :=
    parseExpressionWith_sound (parsePrimary_sound scope maxExpressionDepth) h
  refine ⟨ts, e, hts, hspells, fun hread => ?_⟩
  obtain ⟨node, hnode, heval⟩ := hmeans.2.2 hread
  exact ⟨node, hnode.parse, heval⟩

/-- A clause with every connective: `NOT (a = 1 OR b IN ('x', 'y')) AND c NOT BETWEEN 2 AND 3`. -/
def nestedClause : List Bytes :=
  [lit "NOT", lit "(", lit "a", lit "=", lit "1", lit "OR", lit "b", lit "IN", lit "(", lit "'x'",
    lit ",", lit "'y'", lit ")", lit ")", lit "AND", lit "c", lit "NOT", lit "BETWEEN", lit "2",
    lit "AND", lit "3"]

theorem parseExpression_meaning_nestedClause :
    (∀ t ∈ [lit "a:=1", lit "b::=x", lit "b::=y", lit "c:<2", lit "c:>3"], ReadAsCondition t) ∧
      ∃ ts e, nestedClause = ts ++ [] ∧ Spells ⟨lit "docs", [], ∅⟩ .disjunction ts e ∧
        ((∀ t ∈ e.comparisons, ReadAsCondition t) →
          ∃ node, Filter.parse (lit "!(a:=1||(b::=x||b::=y))&&(c:<2||c:>3)") = some node ∧
            ∀ (rt : FilterRuntime) (document : Document),
              evaluateExpression rt document node = e.holds (conditionHolds rt document)) := by
  refine ⟨?_, ?_⟩
  · intro t ht
    simp only [List.mem_cons, List.not_mem_nil, or_false] at ht
    rcases ht with rfl | rfl | rfl | rfl | rfl
    · exact ⟨⟨lit "a", .eq, lit "1"⟩, by decide +kernel⟩
    · exact ⟨⟨lit "b", .colonEq, lit "x"⟩, by decide +kernel⟩
    · exact ⟨⟨lit "b", .colonEq, lit "y"⟩, by decide +kernel⟩
    · exact ⟨⟨lit "c", .lt, lit "2"⟩, by decide +kernel⟩
    · exact ⟨⟨lit "c", .gt, lit "3"⟩, by decide +kernel⟩
  · have hparse : parseExpression ⟨lit "docs", [], ∅⟩ ⟨nestedClause, 0⟩ =
        .ok (lit "!(a:=1||(b::=x||b::=y))&&(c:<2||c:>3)", ⟨[], 3⟩) := by decide +kernel
    exact parseExpression_meaning hparse

/-- `a = 1 OR b = 2 AND c = 3`: the filter text binds as the clause does. -/
example : ((parseExpression ⟨lit "docs", [], ∅⟩ ⟨[lit "a", lit "=", lit "1", lit "OR", lit "b",
    lit "=", lit "2", lit "AND", lit "c", lit "=", lit "3"], 0⟩).toOption).map Prod.fst =
      some (lit "a:=1||b:=2&&c:=3") := by
  decide +kernel

end Hlquery.Sql
