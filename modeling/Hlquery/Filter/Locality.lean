import Hlquery.Filter.Syntax

/-!
# What the expression parser reads in front of a delimiter

`HandleSearch` joins two filter texts as `(user) && (embedded)`, and the SQL parser writes its
conditions with `&&` and `||` between them. To know what comes out of such a text, one has to know
how the parser reads a text it accepts when that text no longer ends the input but is followed by
`)` or a connector. The answer is that it reads the same expression: these end every scan of the
grammar that the end of the input would end. The one exception is a text whose last byte is half of
the connector that follows, and `Delimits` excludes it.

A group inside the text is closed inside it, so what follows the text does not matter there. The
scanners are therefore shown not to look past a *rest* that starts with a delimiter either
(`Ended`), and the chains between parentheses are local in that sense (`Parser.chain_local`).

All this is about texts the parser *accepts*. A text it rejects on its own may well become part of
an accepted one, which is what makes joining texts delicate (see `Contained`).
-/

set_option autoImplicit false

namespace Hlquery.Filter

open Bytes Hlquery.Parser

/-! ## What may follow a condition -/

/-- The bytes a condition ends at. None of them is white space or occurs in a field name or in a
word of the grammar. -/
def delimiters : Bytes := lit ")&|"

/-- `d` ends a condition `u` in front of it: it starts with `)` or with a connector, and the first
byte of the connector does not pair up with the last one of `u`. -/
def Delimits (u d : Bytes) : Prop :=
  endsValue d = true ∧ (d.head? = some (chr ')') ∨ u.getLast? ≠ d.head?)

/-- A rest of the text that starts, behind white space, with `)` or a connector. -/
def Ended (r : Bytes) : Prop := endsValue (skipWhitespace r) = true

variable {u r d : Bytes} {c : FilterCondition} {field : Bytes} {b : UInt8} {s f token t : Bytes}
  {primary : Parser FilterExpressionNode} {node : FilterExpressionNode} {depth : Nat}

theorem endsValue_cons (h : endsValue (b :: s) = true) : b ∈ delimiters := by
  simp only [endsValue, startsConnector, startsWith, lit, List.head?_cons, Bool.or_eq_true,
    beq_iff_eq, Option.some.injEq] at h
  rcases h with rfl | h | h
  · decide
  · have hb : chr '&' = b := (List.cons_prefix_cons.mp (List.isPrefixOf_iff_prefix.mp h)).1
    exact hb ▸ by decide
  · have hb : chr '|' = b := (List.cons_prefix_cons.mp (List.isPrefixOf_iff_prefix.mp h)).1
    exact hb ▸ by decide

theorem endsValue_look (x y : UInt8) (u d : Bytes) :
    endsValue (x :: y :: u ++ d) = endsValue (x :: y :: u) := by
  simp [endsValue, startsConnector, startsWith, lit, List.isPrefixOf]

theorem endsValue_mono (d : Bytes) (h : endsValue u = true) : endsValue (u ++ d) = true := by
  match u with
  | [] => exact absurd h (by decide)
  | [x] => simpa [endsValue, startsConnector, startsWith, lit, List.isPrefixOf] using Or.inl h
  | x :: y :: u => rwa [endsValue_look]

/-- A delimiter stands in `u` or directly behind it, so no word of the grammar reaches from `u`
into `d`. -/
def Separated (u d : Bytes) : Prop := ∃ b ∈ delimiters, b ∈ u ∨ d.head? = some b

theorem Delimits.separated (h : Delimits u d) (v : Bytes) : Separated v d := by
  cases d with
  | nil => exact absurd h.1 (by decide)
  | cons b s => exact ⟨b, endsValue_cons h.1, .inr rfl⟩

theorem Ended.separated (h : Ended r) (hr : r <:+ u) (d : Bytes) : Separated u d := by
  unfold Ended at h
  cases hs : skipWhitespace r with
  | nil => rw [hs] at h; exact absurd h (by decide)
  | cons b s =>
    rw [hs] at h
    have hb : b ∈ skipWhitespace r := hs ▸ List.mem_cons_self
    exact ⟨b, endsValue_cons h, .inl (hr.subset ((List.dropWhile_suffix _).subset hb))⟩

theorem Delimits.of_suffix {v : Bytes} (h : Delimits u d) (hv : v <:+ u) : Delimits v d := by
  refine ⟨h.1, h.2.imp_right fun hlast => ?_⟩
  cases d with
  | nil => exact absurd h.1 (by decide)
  | cons b s =>
    cases v using List.reverseRecOn with
    | nil => simp
    | append_singleton v x =>
      obtain ⟨w, rfl⟩ := hv
      simpa using hlast

/-- Whether a value ends at a position inside `u` is decided inside `u`. -/
theorem Delimits.endsValue_append (h : Delimits u d) (hu : u ≠ []) :
    endsValue (u ++ d) = endsValue u := by
  match u, d, hu with
  | [x], [], _ => rfl
  | [x], b :: s, _ =>
    have hx : b = chr ')' ∨ x ≠ b := by simpa using h.2
    rcases hx with rfl | hx
    · simp [endsValue, startsConnector, startsWith, lit, chr, List.isPrefixOf]
    · simp [endsValue, startsConnector, startsWith, lit, List.isPrefixOf]
      grind
  | x :: y :: u, d, _ => exact endsValue_look x y u d

/-! ## The scanners -/

theorem skipWhitespace_append (h : Separated u d) :
    skipWhitespace (u ++ d) = skipWhitespace u ++ d := by
  obtain ⟨b, hb, h⟩ := h
  have hspace : isSpace b = false := (by decide +kernel : ∀ b ∈ delimiters, isSpace b = false) b hb
  rcases h with h | h
  · -- the white space ends inside `u`
    cases hs : skipWhitespace u with
    | nil => exact absurd (List.dropWhile_eq_nil_iff.mp hs b h) (by simp [hspace])
    | cons x t =>
      unfold skipWhitespace at hs ⊢
      rw [List.dropWhile_append, hs]
      simp
  · cases d with
    | nil => cases h
    | cons x d =>
      cases h
      exact dropWhile_append_of_not hspace d u

theorem length_skipWhitespace_le (s : Bytes) : (skipWhitespace s).length ≤ s.length :=
  length_dropWhile_le _ s

theorem skipWhitespace_suffix (s : Bytes) : skipWhitespace s <:+ s := List.dropWhile_suffix _

theorem skipWhitespace_cons (h : isSpace b = false) (s : Bytes) :
    skipWhitespace (b :: s) = b :: s := by
  simp [skipWhitespace, List.dropWhile, h]

theorem skipWhitespace_append_of_cons (h : skipWhitespace u = b :: t) (d : Bytes) :
    skipWhitespace (u ++ d) = b :: (t ++ d) := by
  unfold skipWhitespace at h ⊢
  rw [List.dropWhile_append, h]
  rfl

theorem startsGeo_append (h : Separated u d) : startsGeo (u ++ d) = startsGeo u := by
  obtain ⟨b, hb, h⟩ := h
  have hnames : ∀ b ∈ delimiters, b ∉ geoRadiusName ∧ b ∉ geoBoxName := by decide +kernel
  unfold startsGeo
  rw [startsWith_append_of_notMem (hnames b hb).1 h, startsWith_append_of_notMem (hnames b hb).2 h]

theorem geoArguments_append : ∀ {depth : Nat} {u v r : Bytes},
    geoArguments depth u = some (v, r) → ∀ d, geoArguments depth (u ++ d) = some (v, r ++ d) := by
  intro depth u
  induction u generalizing depth with
  | nil => intro v r h; simp [geoArguments] at h
  | cons b u ih =>
    intro v r h d
    -- all branches read on with another depth; only the last parenthesis ends the list
    have hstep : ∀ {n : Nat} {v r : Bytes},
        ((geoArguments n u).map fun vr => (b :: vr.1, vr.2)) = some (v, r) →
          ((geoArguments n (u ++ d)).map fun vr => (b :: vr.1, vr.2)) = some (v, r ++ d) := by
      intro n v r h
      obtain ⟨v', hr, rfl⟩ := map_eq_some h fun _ => rfl
      rw [ih hr d]
      rfl
    rw [List.cons_append]
    unfold geoArguments at h ⊢
    split_ifs at h ⊢
    · exact hstep h
    · cases depth with
      | zero =>
        cases h
        rfl
      | succ depth => exact hstep h
    · exact hstep h

theorem geoArguments_suffix : ∀ {depth : Nat} {u v r : Bytes},
    geoArguments depth u = some (v, r) → r <:+ u := by
  intro depth u
  induction u generalizing depth with
  | nil => intro v r h; simp [geoArguments] at h
  | cons b u ih =>
    intro v r h
    have hstep : ∀ {n : Nat}, ((geoArguments n u).map fun vr => (b :: vr.1, vr.2)) = some (v, r) →
        r <:+ b :: u := by
      intro n h
      obtain ⟨v', hr, -⟩ := map_eq_some h fun _ => rfl
      exact (ih hr).trans (List.suffix_cons b u)
    unfold geoArguments at h
    split_ifs at h
    · exact hstep h
    · cases depth with
      | zero =>
        cases h
        exact List.suffix_cons b u
      | succ depth => exact hstep h
    · exact hstep h

/-- A text that starts with a geo name starts with the same one in front of anything. -/
theorem startsWith_geoRadiusName_append (hgeo : startsGeo u = true) (d : Bytes) :
    startsWith (u ++ d) geoRadiusName = startsWith u geoRadiusName := by
  rcases (Bool.or_eq_true _ _).mp hgeo with h | h
  · exact startsWith_append_of_le (length_le_of_startsWith h) d
  -- a text that starts with both names would make one of them start with the other
  obtain ⟨t, rfl⟩ := startsWith_iff.mp h
  simp [startsWith, geoRadiusName, geoBoxName, lit, List.isPrefixOf]

theorem startsGeo_mono (hgeo : startsGeo u = true) (d : Bytes) : startsGeo (u ++ d) = true := by
  unfold startsGeo at hgeo ⊢
  rcases (Bool.or_eq_true _ _).mp hgeo with h | h <;>
    obtain ⟨t, rfl⟩ := startsWith_iff.mp h <;> simp [List.append_assoc]

theorem geoCondition_append (hgeo : startsGeo u = true) (h : geoCondition u = some (c, r))
    (d : Bytes) : geoCondition (u ++ d) = some (c, r ++ d) := by
  unfold geoCondition at h ⊢
  simp only [startsWith_geoRadiusName_append hgeo d] at h ⊢
  -- the name that is cut off is in `u`, so cutting it off `u ++ …` is cutting it off `u`
  have hlen : (if startsWith u geoRadiusName then geoRadiusName else geoBoxName).length
      ≤ u.length := by
    split
    · rename_i hrad; exact length_le_of_startsWith hrad
    rename_i hrad
    have hbox := (Bool.or_eq_true _ _).mp hgeo
    exact length_le_of_startsWith (hbox.resolve_left hrad)
  rw [List.drop_append_of_le_length hlen]
  cases hs : skipWhitespace (u.drop
      (if startsWith u geoRadiusName then geoRadiusName else geoBoxName).length) with
  | nil => simp [hs] at h
  | cons b t =>
    simp only [hs] at h
    rw [skipWhitespace_append_of_cons hs]
    split at h
    · rename_i hb
      obtain ⟨v, ht, rfl⟩ := map_eq_some h fun _ => rfl
      simp only [if_pos hb, geoArguments_append ht d]
      rfl
    · cases h

theorem length_geoCondition_lt (h : geoCondition u = some (c, r)) : r.length < u.length := by
  unfold geoCondition at h
  dsimp only at h
  split at h
  · cases h
  rename_i b t hs
  split at h
  · obtain ⟨v, ht, -⟩ := map_eq_some h fun _ => rfl
    have h₁ := (geoArguments_suffix ht).length_le
    have h₂ := length_skipWhitespace_le (u.drop
      (if startsWith u geoRadiusName then geoRadiusName else geoBoxName).length)
    rw [hs, List.length_drop, List.length_cons] at h₂
    omega
  · cases h

/-- What a field name is in front of: the bytes of the name, white space and a colon. -/
theorem fieldName_eq_some : fieldName u = some (f, r) ↔
      f = u.takeWhile isFieldByte ∧ f ≠ [] ∧
        ∃ t, skipWhitespace (u.dropWhile isFieldByte) = chr ':' :: t ∧ r = skipWhitespace t := by
  unfold fieldName
  by_cases hf : u.takeWhile isFieldByte = []
  · rw [if_pos hf]
    constructor
    · nofun
    · rintro ⟨rfl, hne, -⟩; exact absurd hf hne
  · rw [if_neg hf]
    cases hs : skipWhitespace (u.dropWhile isFieldByte) with
    | nil => simp
    | cons b t =>
      dsimp only
      by_cases hb : b = chr ':'
      · subst hb
        rw [if_pos rfl]
        simp only [Option.some.injEq, Prod.mk.injEq, List.cons.injEq, true_and]
        constructor
        · rintro ⟨rfl, rfl⟩
          exact ⟨rfl, hf, t, rfl, rfl⟩
        · rintro ⟨rfl, -, t', rfl, rfl⟩
          exact ⟨rfl, rfl⟩
      · rw [if_neg hb]
        constructor
        · nofun
        · rintro ⟨-, -, t', he, -⟩
          exact absurd (List.cons.inj he).1 hb

section

variable (h : fieldName u = some (f, r))
include h

theorem fieldName_append (hd : Separated r d) :
    fieldName (u ++ d) = some (f, r ++ d) := by
  obtain ⟨rfl, hf, t, ht, rfl⟩ := fieldName_eq_some.mp h
  -- the colon is in `u`, so the name ends there
  have hcolon : u.dropWhile isFieldByte ≠ [] := by
    intro he
    rw [he] at ht
    simp [skipWhitespace] at ht
  have htake : (u ++ d).takeWhile isFieldByte = u.takeWhile isFieldByte := by
    rw [List.takeWhile_append, if_neg]
    intro hlen
    refine hcolon (List.dropWhile_eq_nil_iff.mpr ?_)
    exact List.takeWhile_eq_self_iff.mp ((List.takeWhile_prefix isFieldByte).eq_of_length hlen)
  have hdrop : (u ++ d).dropWhile isFieldByte = u.dropWhile isFieldByte ++ d := by
    rw [List.dropWhile_append]
    cases hd : u.dropWhile isFieldByte with
    | nil => exact absurd hd hcolon
    | cons b v => rfl
  refine fieldName_eq_some.mpr ⟨htake.symm, hf, t ++ d, ?_, ?_⟩
  · rw [hdrop]
    exact skipWhitespace_append_of_cons ht d
  · obtain ⟨b, hb, hbd⟩ := hd
    exact (skipWhitespace_append ⟨b, hb, hbd.imp_left fun h =>
      (skipWhitespace_suffix t).subset h⟩).symm

theorem fieldName_suffix : r <:+ u := by
  obtain ⟨-, -, t, ht, rfl⟩ := fieldName_eq_some.mp h
  have h₁ : chr ':' :: t <:+ u.dropWhile isFieldByte := ht ▸ skipWhitespace_suffix _
  exact (skipWhitespace_suffix t).trans
    ((List.suffix_cons _ t).trans (h₁.trans (List.dropWhile_suffix _)))

theorem length_fieldName_lt : r.length < u.length := by
  obtain ⟨-, -, t, ht, rfl⟩ := fieldName_eq_some.mp h
  have h₁ := length_skipWhitespace_le (u.dropWhile isFieldByte)
  have h₂ := length_dropWhile_le isFieldByte u
  have h₃ := length_skipWhitespace_le t
  rw [ht, List.length_cons] at h₁
  omega

end

theorem rangeCondition_append {op : FilterOp} {close : UInt8}
    (h : rangeCondition field op close u = some (c, r)) (d : Bytes) :
    rangeCondition field op close (u ++ d) = some (c, r ++ d) := by
  unfold rangeCondition at h ⊢
  cases hs : splitFirst close u with
  | none => simp [hs] at h
  | some lr =>
    obtain ⟨body, t⟩ := lr
    obtain ⟨rfl, hbody⟩ := splitFirst_eq_some.mp hs
    have hs' : splitFirst close (body ++ close :: t ++ d) = some (body, t ++ d) := by
      rw [List.append_assoc]
      exact splitFirst_append hbody _
    simp only [hs, hs'] at h ⊢
    split at h
    · cases h
    cases h
    rfl

theorem rangeCondition_suffix {op : FilterOp} {close : UInt8}
    (h : rangeCondition field op close u = some (c, r)) : r <:+ u := by
  unfold rangeCondition at h
  split at h
  · cases h
  rename_i body t hs
  obtain ⟨rfl, -⟩ := splitFirst_eq_some.mp hs
  split at h
  · cases h
  · cases h
    exact (List.suffix_cons _ _).trans (List.suffix_append _ _)

/-! ## Conditions -/

/-- The operators are words without delimiters. -/
theorem notMem_operators (hb : b ∈ delimiters) :
    (∀ w ∈ nullOps, b ∉ w.1) ∧ (∀ w ∈ likeOps, b ∉ w.1) ∧ (∀ w ∈ twoCharOps, b ∉ w.1) ∧
      ∀ w ∈ oneCharOps, b ∉ w.1 :=
  (by decide +kernel : ∀ b ∈ delimiters, (∀ w ∈ nullOps, b ∉ w.1) ∧ (∀ w ∈ likeOps, b ∉ w.1) ∧
    (∀ w ∈ twoCharOps, b ∉ w.1) ∧ ∀ w ∈ oneCharOps, b ∉ w.1) b hb

theorem parseOperator_append (h : Separated u d) :
    parseOperator (u ++ d) = ((parseOperator u).1, (parseOperator u).2 ++ d) := by
  obtain ⟨b, hb, h⟩ := h
  obtain ⟨-, hlike, htwo, hone⟩ := notMem_operators hb
  unfold parseOperator
  rw [matchFirst_append h hlike, matchFirst_append h htwo, matchFirst_append h hone]
  cases matchFirst likeOps u with
  | some opr => rfl
  | none =>
    cases matchFirst twoCharOps u with
    | some opr => rfl
    | none =>
      cases matchFirst oneCharOps u with
      | some opr => rfl
      | none => rfl

theorem parseOperator_suffix (s : Bytes) : (parseOperator s).2 <:+ s := by
  unfold parseOperator
  split
  · rename_i opr h; exact matchFirst_suffix h
  split
  · rename_i opr h; exact matchFirst_suffix h
  split
  · rename_i opr h; exact matchFirst_suffix h
  · exact List.suffix_refl _

def valueStart (s : Bytes) : Bytes := skipWhitespace (parseOperator s).2

theorem valueStart_suffix (s : Bytes) : valueStart s <:+ s :=
  (skipWhitespace_suffix _).trans (parseOperator_suffix s)

theorem parseComparison_eq_some : parseComparison field u = some (c, r) ↔
      trim (takeUntil endsValue (valueStart u)).1 ≠ [] ∧
        c = ⟨field, (parseOperator u).1, trim (takeUntil endsValue (valueStart u)).1⟩ ∧
        r = (takeUntil endsValue (valueStart u)).2 := by
  unfold parseComparison valueStart
  dsimp only
  split
  · rename_i hv
    simp [hv]
  · rename_i hv
    simp only [Option.some.injEq, Prod.mk.injEq, ne_eq, hv, not_false_eq_true, true_and]
    exact and_congr eq_comm eq_comm

theorem parseComparison_append (h : parseComparison field u = some (c, r))
    (hd : Delimits u d ∨ Ended r) : parseComparison field (u ++ d) = some (c, r ++ d) := by
  obtain ⟨hv, rfl, rfl⟩ := parseComparison_eq_some.mp h
  have hrest := takeUntil_suffix endsValue (valueStart u)
  have hsep : ∀ {v : Bytes}, valueStart u <:+ v → Separated v d := fun hv =>
    hd.elim (fun h => h.separated _) fun h => h.separated (hrest.trans hv) d
  have hop := parseOperator_append (hsep (valueStart_suffix u))
  have hstart : valueStart (u ++ d) = valueStart u ++ d := by
    unfold valueStart
    rw [hop]
    exact skipWhitespace_append (hsep (skipWhitespace_suffix _))
  have hvalue : takeUntil endsValue (valueStart u ++ d) =
      ((takeUntil endsValue (valueStart u)).1, (takeUntil endsValue (valueStart u)).2 ++ d) := by
    rcases hd with hd | hd
    · refine takeUntil_append hd.1 (fun e => ?_) fun v hne hs => ?_
      · exact absurd (e ▸ hd.1) (by decide)
      · exact (hd.of_suffix (hs.trans (valueStart_suffix u))).endsValue_append hne
    · refine takeUntil_append_of_stopped d (fun v => endsValue_mono d)
        (fun x y v => endsValue_look x y v d) fun e => ?_
      rw [e] at hd
      exact absurd (show endsValue [] = true from hd) (by decide)
  refine parseComparison_eq_some.mpr ⟨?_, ?_, ?_⟩
  · rw [hstart, hvalue]; exact hv
  · rw [hstart, hvalue, hop]
  · rw [hstart, hvalue]

theorem parseComparison_suffix (h : parseComparison field u = some (c, r)) : r <:+ u := by
  obtain ⟨-, -, rfl⟩ := parseComparison_eq_some.mp h
  exact (takeUntil_suffix _ _).trans (valueStart_suffix u)

theorem parseTest_nil (field : Bytes) : parseTest field [] = none := by
  simp [parseTest, matchFirst, nullOps, parseComparison, startsWith, parseOperator, likeOps,
    twoCharOps, oneCharOps, skipWhitespace, takeUntil, trim, lit]

theorem parseTest_suffix (h : parseTest field u = some (c, r)) : r <:+ u := by
  unfold parseTest at h
  split at h
  · exact (rangeCondition_suffix h).trans (List.tail_suffix u)
  split at h
  · rename_i op t hm
    cases h
    exact matchFirst_suffix hm
  · exact parseComparison_suffix h

theorem parseTest_append (h : parseTest field u = some (c, r)) (hd : Delimits u d ∨ Ended r) :
    parseTest field (u ++ d) = some (c, r ++ d) := by
  have hsep : Separated u d :=
    hd.elim (fun h => h.separated u) fun hr => hr.separated (parseTest_suffix h) d
  cases u with
  | nil => simp [parseTest_nil] at h
  | cons b u =>
    unfold parseTest at h ⊢
    simp only [List.cons_append, List.head?_cons, Option.bind_some, List.tail_cons] at h ⊢
    cases ho : rangeOpening b with
    | some oc =>
      simp only [ho] at h ⊢
      exact rangeCondition_append h d
    | none =>
      have hn : matchFirst nullOps (b :: (u ++ d)) =
          (matchFirst nullOps (b :: u)).map fun ar => (ar.1, ar.2 ++ d) := by
        obtain ⟨b', hb', hbd⟩ := hsep
        exact matchFirst_append hbd (notMem_operators hb').1
      simp only [ho, hn] at h ⊢
      cases hm : matchFirst nullOps (b :: u) with
      | some opr =>
        simp only [hm] at h
        cases h
        rfl
      | none =>
        simp only [hm] at h
        have happended := parseComparison_append h hd
        exact happended

/-- **A condition is read the same in front of a closing parenthesis or a connector**, and so is
one that ends at such a place already, whatever follows then. -/
theorem parseCondition_append (h : parseCondition u = some (c, r)) (hd : Delimits u d ∨ Ended r) :
    parseCondition (u ++ d) = some (c, r ++ d) := by
  unfold parseCondition at h ⊢
  dsimp only at h
  have hskip : skipWhitespace (u ++ d) = skipWhitespace u ++ d := by
    cases hs : skipWhitespace u with
    | nil => simp [hs, startsGeo, startsWith, geoRadiusName, geoBoxName, lit, andThen, fieldName] at h
    | cons b t => exact skipWhitespace_append_of_cons hs d
  rw [hskip]
  dsimp only
  split at h
  · rename_i hgeo
    rw [if_pos (startsGeo_mono hgeo d)]
    exact geoCondition_append hgeo h d
  · rename_i hgeo
    obtain ⟨f, t, hf, ht⟩ := andThen_eq_some.mp h
    have hsuffix := (fieldName_suffix hf).trans (skipWhitespace_suffix u)
    have hsep : ∀ {v : Bytes}, t <:+ v → Separated v d := fun hv =>
      hd.elim (fun h => h.separated _) fun h => h.separated ((parseTest_suffix ht).trans hv) d
    rw [startsGeo_append (hsep (fieldName_suffix hf)), if_neg hgeo]
    exact andThen_eq_some.mpr ⟨f, t ++ d, fieldName_append hf (hsep (List.suffix_refl t)),
      parseTest_append ht (hd.imp_left fun h => h.of_suffix hsuffix)⟩

theorem parseCondition_shrinks : Shrinks parseCondition := by
  intro u c r h
  unfold parseCondition at h
  refine Nat.le_trans ?_ (length_skipWhitespace_le u)
  dsimp only at h
  split at h
  · exact (length_geoCondition_lt h).le
  · obtain ⟨f, t, hf, ht⟩ := andThen_eq_some.mp h
    exact (parseTest_suffix ht).length_le.trans (length_fieldName_lt hf).le

/-! ## The recursion -/

theorem matchToken_consumes (h : token ≠ []) : Consumes (matchToken token) := by
  intro s r hr
  have he := stripPrefix_eq_some.mp hr
  have hlen := length_skipWhitespace_le s
  have := List.length_pos_of_ne_nil h
  rw [he, List.length_append] at hlen
  omega

theorem separated_close (u s : Bytes) : Separated u (chr ')' :: s) :=
  ⟨chr ')', by decide, .inr rfl⟩

theorem matchToken_settled {token : Bytes} (h : chr ')' ∉ token) :
    Settled (chr ')') (matchToken token) := by
  intro u s
  unfold matchToken stripPrefix
  rw [skipWhitespace_append (separated_close u s), startsWith_append_of_notMem h (.inr rfl)]
  cases hu : startsWith (skipWhitespace u) token with
  | true => simp [List.drop_append_of_le_length (length_le_of_startsWith hu)]
  | false => simp

theorem parseAndWith_shrinks (h : Shrinks primary) : Shrinks (parseAndWith primary) :=
  chain_shrinks (matchToken_consumes (by decide)) h

theorem parseOrWith_shrinks (h : Shrinks primary) : Shrinks (parseOrWith primary) :=
  chain_shrinks (matchToken_consumes (by decide)) (parseAndWith_shrinks h)

theorem parseOrWith_stops {primary : Parser FilterExpressionNode} (h : Shrinks primary)
    (hs : Stops (chr ')') primary) : Stops (chr ')') (parseOrWith primary) :=
  chain_stops (matchToken_consumes (by decide)) (matchToken_settled (by decide))
    (parseAndWith_shrinks h)
    (chain_stops (matchToken_consumes (by decide)) (matchToken_settled (by decide)) h hs)

theorem closeGroup_append {n : FilterExpressionNode} (h : closeGroup node u = some (n, r))
    (d : Bytes) : closeGroup node (u ++ d) = some (n, r ++ d) ∧ Ended u := by
  unfold closeGroup at h ⊢
  cases hs : skipWhitespace u with
  | nil => simp [hs] at h
  | cons b t =>
    rw [skipWhitespace_append_of_cons hs]
    simp only [hs] at h ⊢
    split at h
    · rename_i hb
      cases h
      refine ⟨by rw [if_pos hb], ?_⟩
      rw [Ended, hs, hb]
      simp [endsValue]
    · cases h

theorem closeGroup_shrinks (node : FilterExpressionNode) : Shrinks (closeGroup node) := by
  intro u n r h
  unfold closeGroup at h
  split at h
  · cases h
  rename_i b t hs
  have := length_skipWhitespace_le u
  rw [hs, List.length_cons] at this
  split at h
  · cases h
    omega
  · cases h

/-- What `ParsePrimary` does behind the white space, one case for each first byte. -/
theorem parsePrimary_succ (hs : skipWhitespace s = b :: r) : parsePrimary (depth + 1) s =
      if b = chr '!' then (parsePrimary depth r).map fun nr => (.not nr.1, nr.2)
      else if b = chr '(' then Parser.andThen (parseOrWith (parsePrimary depth)) closeGroup r
      else (parseCondition (b :: r)).map fun cr => (.condition cr.1, cr.2) := by
  simp [parsePrimary, hs]

theorem parsePrimary_shrinks : ∀ depth : Nat, Shrinks (parsePrimary depth)
  | 0 => fun _ _ _ h => absurd h (by simp [parsePrimary])
  | depth + 1 => by
    intro u n r h
    have hlen := length_skipWhitespace_le u
    cases hs : skipWhitespace u with
    | nil => simp [parsePrimary, hs] at h
    | cons b t =>
      rw [hs] at hlen
      rw [parsePrimary_succ hs] at h
      refine Nat.le_trans ?_ hlen
      split at h
      · obtain ⟨n', hr, -⟩ := map_eq_some h fun _ => rfl
        exact Nat.le_succ_of_le (parsePrimary_shrinks depth hr)
      · split at h
        · exact Nat.le_succ_of_le
            (((parseOrWith_shrinks (parsePrimary_shrinks depth)).andThen closeGroup_shrinks) h)
        · obtain ⟨c, hr, -⟩ := map_eq_some h fun _ => rfl
          exact parseCondition_shrinks hr

/-- A connector in front of a delimiter or inside the text does not depend on what follows. -/
theorem matchToken_append (h : matchToken token r = some t) (hne : token ≠ []) (d : Bytes) :
    matchToken token (r ++ d) = some (t ++ d) := by
  have he := stripPrefix_eq_some.mp h
  cases hs : skipWhitespace r with
  | nil =>
    rw [hs] at he
    exact absurd (List.append_eq_nil_iff.mp he.symm).1 hne
  | cons b v =>
    refine stripPrefix_eq_some.mpr ?_
    rw [skipWhitespace_append_of_cons hs, ← List.cons_append, ← hs, he, List.append_assoc]

theorem Ended.of_matchToken (ht : token = lit "&&" ∨ token = lit "||")
    (h : matchToken token r = some t) : Ended r := by
  unfold Ended
  rw [stripPrefix_eq_some.mp h]
  rcases ht with rfl | rfl <;>
    simp [endsValue, startsConnector, startsWith, lit, List.isPrefixOf]

/-- At an ended rest the next connector is visible. -/
theorem Ended.matchToken_eq_none (ht : token = lit "&&" ∨ token = lit "||") (hr : Ended r)
    (h : matchToken token r = none) (d : Bytes) : matchToken token (r ++ d) = none := by
  unfold Ended at hr
  unfold matchToken stripPrefix at h ⊢
  match hs : skipWhitespace r with
  | [] => rw [hs] at hr; exact absurd hr (by decide)
  | [x] =>
    have hx : x = chr ')' := by
      rw [hs] at hr
      simpa [endsValue, startsConnector, startsWith, lit, List.isPrefixOf] using hr
    subst hx
    rw [skipWhitespace_append_of_cons hs]
    rcases ht with rfl | rfl <;> simp [startsWith, lit, List.isPrefixOf, chr]
  | x :: y :: v =>
    rw [skipWhitespace_append_of_cons hs]
    rw [hs] at h
    rcases ht with rfl | rfl <;> simpa [startsWith, lit, List.isPrefixOf] using h

theorem parseOrWith_local (h : Shrinks primary) (hlocal : Local Ended d primary) :
    Local Ended d (parseOrWith primary) := by
  have hchain : ∀ {item : Parser FilterExpressionNode} {token : Bytes}
      {combine : FilterExpressionNode → FilterExpressionNode → FilterExpressionNode},
      token = lit "&&" ∨ token = lit "||" → token ≠ [] → Shrinks item → Local Ended d item →
      Local Ended d (chain (matchToken token) item combine) := fun ht hne hs hl =>
    chain_local (matchToken_consumes hne) hs
      (fun _ _ ho => ⟨Ended.of_matchToken ht ho, matchToken_append ho hne d⟩)
      (fun _ hr ho => hr.matchToken_eq_none ht ho d) hl
  exact hchain (.inr rfl) (by decide) (parseAndWith_shrinks h)
    (hchain (.inl rfl) (by decide) h hlocal)

/-- **A primary expression is read the same in front of a closing parenthesis or a connector**. Its
groups are closed inside, so only a condition at its end can notice what follows. -/
theorem parsePrimary_append : ∀ {depth : Nat} {u r : Bytes} {n : FilterExpressionNode},
    parsePrimary depth u = some (n, r) → Delimits u d ∨ Ended r →
      parsePrimary depth (u ++ d) = some (n, r ++ d)
  | 0, _, _, _, h, _ => absurd h (by simp [parsePrimary])
  | depth + 1, u, r, n, h, hd => by
    cases hs : skipWhitespace u with
    | nil => simp [parsePrimary, hs] at h
    | cons b t =>
      have hsuffix : b :: t <:+ u := hs ▸ skipWhitespace_suffix u
      rw [parsePrimary_succ hs] at h
      rw [parsePrimary_succ (skipWhitespace_append_of_cons hs d)]
      split at h
      · rename_i hb
        obtain ⟨n', hr, rfl⟩ := map_eq_some h fun _ => rfl
        have hd' := hd.imp_left fun h => h.of_suffix ((List.suffix_cons b t).trans hsuffix)
        rw [if_pos hb, parsePrimary_append hr hd']
        rfl
      · rename_i hb
        rw [if_neg hb]
        split at h
        · rename_i hp
          rw [if_pos hp]
          obtain ⟨n', t', hor, hclose⟩ := andThen_eq_some.mp h
          obtain ⟨hclose', hend⟩ := closeGroup_append hclose d
          have hlocal := parseOrWith_local (d := d) (parsePrimary_shrinks depth)
            fun _ _ _ h hr => parsePrimary_append h (.inr hr)
          exact andThen_eq_some.mpr ⟨n', t' ++ d, hlocal hor hend, hclose'⟩
        · rename_i hp
          rw [if_neg hp]
          obtain ⟨c, hr, rfl⟩ := map_eq_some h fun _ => rfl
          rw [← List.cons_append,
            parseCondition_append hr (hd.imp_left fun h => h.of_suffix hsuffix)]
          rfl

theorem delimits_close (u s : Bytes) : Delimits u (chr ')' :: s) :=
  ⟨by simp [endsValue], .inl rfl⟩

theorem parsePrimary_stops (depth : Nat) : Stops (chr ')') (parsePrimary depth) :=
  fun u _ _ h s => parsePrimary_append h (.inl (delimits_close u s))

/-! ## The fuel

A `!` or a `(` takes a byte, so fuel above the length of the text is never used up and the answer
does not depend on it. -/

theorem parseOrWith_congr {p q : Parser FilterExpressionNode} (hp : Shrinks p) {n : Nat}
    (h : ∀ s, s.length ≤ n → p s = q s) (hs : s.length ≤ n) :
    parseOrWith p s = parseOrWith q s := by
  have hand : ∀ t, t.length ≤ n → parseAndWith p t = parseAndWith q t := by
    intro t ht
    exact chain_eq (matchToken_consumes (by decide)) hp h ht
  exact chain_eq (matchToken_consumes (by decide)) (parseAndWith_shrinks hp) hand hs

theorem parsePrimary_fuel : ∀ {n m : Nat} {s : Bytes}, s.length < n → s.length < m →
    parsePrimary n s = parsePrimary m s
  | 0, _, _, h, _ => absurd h (by omega)
  | _ + 1, 0, _, _, h => absurd h (by omega)
  | n + 1, m + 1, s, hn, hm => by
    have hlen := length_skipWhitespace_le s
    cases hs : skipWhitespace s with
    | nil => simp [parsePrimary, hs]
    | cons b r =>
      rw [hs, List.length_cons] at hlen
      have ih : ∀ t : Bytes, t.length ≤ r.length → parsePrimary n t = parsePrimary m t :=
        fun t ht => parsePrimary_fuel (by omega) (by omega)
      rw [parsePrimary_succ hs, parsePrimary_succ hs, ih r (Nat.le_refl _)]
      have hor := parseOrWith_congr (parsePrimary_shrinks n) ih (Nat.le_refl r.length)
      simp [andThen, hor]

theorem parse_eq_some (hd : s.length < depth) : parse s = some node ↔
      ∃ r, parseOrWith (parsePrimary depth) s = some (node, r) ∧ skipWhitespace r = [] := by
  have he : parseOrWith (parsePrimary (s.length + 1)) s = parseOrWith (parsePrimary depth) s :=
    parseOrWith_congr (parsePrimary_shrinks _)
      (fun t ht => parsePrimary_fuel (by omega) (by omega)) (Nat.le_refl s.length)
  unfold parse
  rw [he]
  cases h : parseOrWith (parsePrimary depth) s with
  | none => simp
  | some nr =>
    obtain ⟨n, r⟩ := nr
    by_cases hr : skipWhitespace r = []
    · simp [hr]
    simp only [if_neg hr]
    constructor
    · nofun
    rintro ⟨r', he', hr'⟩
    cases he'
    exact absurd hr' hr

/-! ## Groups -/

/-- **An accepted text in parentheses is read as its own expression**, whatever follows. -/
theorem parsePrimary_group (h : parse u = some node) (s : Bytes) (hd : u.length + 1 < depth) :
    parsePrimary depth (chr '(' :: u ++ chr ')' :: s) = some (node, s) := by
  cases depth with
  | zero => exact absurd hd (by omega)
  | succ depth =>
    have hlt : u.length < depth := by omega
    obtain ⟨r, hr, hblank⟩ := (parse_eq_some hlt).mp h
    have hor := parseOrWith_stops (parsePrimary_shrinks depth) (parsePrimary_stops depth) hr s
    have hclose : closeGroup node (r ++ chr ')' :: s) = some (node, s) := by
      unfold closeGroup
      rw [skipWhitespace_append (separated_close r s), hblank]
      rfl
    exact andThen_eq_some.mpr ⟨node, _, hor, hclose⟩

theorem parse_group_and_group {e : Bytes} {nu ne : FilterExpressionNode} (hu : parse u = some nu)
    (he : parse e = some ne) :
    parse (lit "(" ++ u ++ lit ") && (" ++ e ++ lit ")") = some (.and nu ne) := by
  have htext : lit "(" ++ u ++ lit ") && (" ++ e ++ lit ")" =
      chr '(' :: u ++ chr ')' :: (lit " && " ++ (chr '(' :: e ++ chr ')' :: [])) := by
    simp [lit, chr]
  rw [htext]
  set tail : Bytes := chr '(' :: e ++ chr ')' :: [] with htail
  set depth := (chr '(' :: u ++ chr ')' :: (lit " && " ++ tail)).length + 1 with hdepth
  have hlen : u.length + e.length + 6 < depth := by
    simp [hdepth, htail, lit]
    omega
  -- the first group, the connector, the second group, and then the end of the text
  have hfirst : parsePrimary depth (chr '(' :: u ++ chr ')' :: (lit " && " ++ tail)) =
      some (nu, lit " && " ++ tail) :=
    parsePrimary_group hu _ (by omega)
  have hsecond : parsePrimary depth (32 :: tail) = some (ne, []) := by
    have : parsePrimary depth tail = some (ne, []) := parsePrimary_group he [] (by omega)
    cases hd : depth with
    | zero => omega
    | succ d =>
      rw [hd] at this
      exact this
  have hconn : matchToken (lit "&&") (lit " && " ++ tail) = some (32 :: tail) := by
    simp [matchToken, skipWhitespace, lit, isSpace, stripPrefix, startsWith, List.dropWhile]
  have hand : parseAndWith (parsePrimary depth)
      (chr '(' :: u ++ chr ')' :: (lit " && " ++ tail)) = some (.and nu ne, []) := by
    unfold parseAndWith chain
    simp only [hfirst, chainLoop, hconn, hsecond]
    cases hl : (lit " && " ++ tail).length with
    | zero => simp [lit] at hl
    | succ n => rfl
  have hlt : (chr '(' :: u ++ chr ')' :: (lit " && " ++ tail)).length < depth := by omega
  refine (parse_eq_some hlt).mpr ⟨[], ?_, rfl⟩
  unfold parseOrWith chain
  simp only [hand]
  rfl

/-! ## The fallback -/

theorem length_filtersOperator_le (s : Bytes) : (filtersOperator s).2.length ≤ s.length := by
  unfold filtersOperator
  -- a word operator may be read first; what follows is read off a text that is not longer
  split
  rename_i word t hword
  have ht : t.length ≤ s.length := by
    split at hword <;> cases hword
    · rename_i hw
      exact matchFirst_shrinks _ hw
    · exact Nat.le_refl _
  split
  · rename_i opr h; exact (matchFirst_shrinks _ h).trans ht
  · exact ht
  split
  · rename_i opr h; exact (matchFirst_shrinks _ h).trans ht
  · exact ht

theorem length_scanConnector_le (s : Bytes) : (scanConnector s).2.length ≤ s.length := by
  unfold scanConnector
  dsimp only
  split
  · rename_i c r h
    exact (matchFirst_shrinks _ h).trans (length_skipWhitespace_le s)
  · exact length_skipWhitespace_le s

theorem filtersCondition_lt {c : Option FilterCondition} (h : filtersCondition u = some (c, r)) :
    r.length < u.length := by
  unfold filtersCondition at h
  split at h
  · obtain ⟨c', hr, -⟩ := map_eq_some h fun _ => rfl
    exact length_geoCondition_lt hr
  · split at h
    · cases h
    · rename_i field t hf
      have ht := length_fieldName_lt hf
      refine Nat.lt_of_le_of_lt ?_ ht
      split at h
      · obtain ⟨c', hr, -⟩ := map_eq_some h fun _ => rfl
        exact ((rangeCondition_suffix hr).trans (List.tail_suffix t)).length_le
      · dsimp only at h
        have hop := length_filtersOperator_le t
        split at h
        · cases h
          exact hop
        · cases h
          exact ((length_takeUntil_le _ _).trans (length_skipWhitespace_le _)).trans hop

theorem filtersLoop_fuel : ∀ {n m : Nat} {connector : Option LogicalConnector} {s : Bytes},
    s.length < n → s.length < m → filtersLoop n connector s = filtersLoop m connector s
  | 0, _, _, _, h, _ => absurd h (by omega)
  | _ + 1, 0, _, _, _, h => absurd h (by omega)
  | n + 1, m + 1, connector, s, hn, hm => by
    unfold filtersLoop
    cases hc : filtersCondition (skipWhitespace s) with
    | none => rfl
    | some cr =>
      obtain ⟨c, r⟩ := cr
      have h₁ := filtersCondition_lt hc
      have h₂ := length_skipWhitespace_le s
      have h₃ := length_scanConnector_le r
      have ih : filtersLoop n (scanConnector r).1 (scanConnector r).2 =
          filtersLoop m (scanConnector r).1 (scanConnector r).2 :=
        filtersLoop_fuel (by omega) (by omega)
      cases c with
      | none => exact ih
      | some c => exact congrArg (List.cons (connector, c)) ih

/-- The loop has no grouping: at an opening parenthesis it gives up. -/
theorem parseFilters_group (s : Bytes) : parseFilters (chr '(' :: s) = [] := by
  have hgeo : startsGeo (chr '(' :: s) = false := by
    simp [startsGeo, startsWith, geoRadiusName, geoBoxName, lit, chr, List.isPrefixOf]
  have hfield : fieldName (chr '(' :: s) = none := by
    simp [fieldName, List.takeWhile, isFieldByte, chr]
  unfold parseFilters filtersLoop
  rw [skipWhitespace_cons (by decide)]
  simp [filtersCondition, hgeo, hfield]

end Hlquery.Filter
