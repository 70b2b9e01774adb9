import Hlquery.Search.Pages

/-!
# The comparison of `ApplySorting`

The rules are tried one after the other, and each leaves the hits that it does not tell apart to the
next. That makes an order only if what a rule leaves open is an equivalence. Two of them do not do
that by themselves. A field compares two numbers as numbers and everything else as text, so that
`9`, `10` and `1a` go round in a circle, and the tie-break skips a rank that one of the two hits
does not have. **Without such values it is a strict weak ordering** (`strictWeakOn_of_sortable`).
-/

set_option autoImplicit false

namespace Hlquery.Search

open Bytes Hlquery.Filter Index Paging

/-! ## Rules that leave an equivalence open -/

/-- The values compare as numbers do. -/
structure Compares {β : Type} (lt ne : β → β → Bool) (good : β → Prop) : Prop where
  ne_eq : ∀ x y, good x → good y → ne x y = (lt x y || lt y x)
  trans : ∀ x y z, good x → good y → good z → lt x y = false → lt y z = false → lt x z = false

/-- A rule orders the elements up to those it leaves open. -/
structure Ranks {α : Type} (rule : α → α → Option Bool) (l : List α) : Prop where
  total : ∀ a ∈ l, ∀ b ∈ l, rule a b = some true ∨ rule b a = some true ∨ rule a b = none
  trans : ∀ a ∈ l, ∀ b ∈ l, ∀ c ∈ l, rule a b ≠ some true → rule b c ≠ some true →
    rule a c ≠ some true

section Rules

variable {α β : Type} {lt ne : β → β → Bool} {good : β → Prop} {l : List α}
  {rule rule' : α → α → Option Bool}

def compareIn (lt ne : β → β → Bool) (descending : Bool) (x y : β) : Option Bool :=
  SortRuntime.directed (ne x y) (lt x y) (lt y x) descending

section Compares

variable (h : Compares lt ne good) (descending : Bool) {x y z : β}

include h

theorem Compares.ne_true (hx : good x) (hy : good y) : compareIn lt ne descending x y ≠ some true ↔
      (if descending then lt y x else lt x y) = false := by
  rw [compareIn, h.ne_eq x y hx hy]
  cases descending <;> cases lt x y <;> cases lt y x <;> simp [SortRuntime.directed]

theorem Compares.total (hx : good x) (hy : good y) : compareIn lt ne descending x y = some true ∨
    compareIn lt ne descending y x = some true ∨ compareIn lt ne descending x y = none := by
  rw [compareIn, compareIn, h.ne_eq x y hx hy, h.ne_eq y x hy hx]
  cases descending <;> cases lt x y <;> cases lt y x <;> simp [SortRuntime.directed]

theorem Compares.notBefore (hx : good x) (hy : good y) (hz : good z) :
    compareIn lt ne descending x y ≠ some true → compareIn lt ne descending y z ≠ some true →
      compareIn lt ne descending x z ≠ some true := by
  rw [h.ne_true descending hx hy, h.ne_true descending hy hz, h.ne_true descending hx hz]
  cases descending with
  | false => exact h.trans x y z hx hy hz
  | true => exact fun hxy hyz => h.trans z y x hz hy hx hyz hxy

end Compares

/-- Where a rule leaves the ends open, it leaves open what lies between. -/
theorem Ranks.open_between (h : Ranks rule l) (hopposed : ∀ a b, Opposed (rule a b) (rule b a))
    {a b c : α} (ha : a ∈ l) (hb : b ∈ l) (hc : c ∈ l) (hab : rule a b ≠ some true)
    (hbc : rule b c ≠ some true) (hac : rule a c = none) : rule a b = none ∧ rule b c = none := by
  have hca : rule c a ≠ some true := by simp [(hopposed a c).none_iff.mp hac]
  have hba := h.trans b hb c hc a ha hbc hca
  have hcb := h.trans c hc a ha b hb hca hab
  refine ⟨?_, ?_⟩
  · rcases h.total a ha b hb with he | he | he
    · exact absurd he hab
    · exact absurd he hba
    · exact he
  · rcases h.total b hb c hc with he | he | he
    · exact absurd he hbc
    · exact absurd he hcb
    · exact he

/-- **What one rule leaves open the next can decide.** -/
theorem Ranks.getD {rest : α → α → Bool} (h : Ranks rule l)
    (hopposed : ∀ a b, Opposed (rule a b) (rule b a))
    (hrest : ∀ a ∈ l, ∀ b ∈ l, ∀ c ∈ l, rest a b = false → rest b c = false → rest a c = false) :
    ∀ a ∈ l, ∀ b ∈ l, ∀ c ∈ l, (rule a b).getD (rest a b) = false →
      (rule b c).getD (rest b c) = false → (rule a c).getD (rest a c) = false := by
  intro a ha b hb c hc hab hbc
  have hab' : rule a b ≠ some true := fun he => by simp [he] at hab
  have hbc' : rule b c ≠ some true := fun he => by simp [he] at hbc
  have hac' := h.trans a ha b hb c hc hab' hbc'
  cases hac : rule a c with
  | some decided =>
    cases decided with
    | true => exact absurd hac hac'
    | false => rfl
  | none =>
    obtain ⟨ho, ho'⟩ := h.open_between hopposed ha hb hc hab' hbc' hac
    rw [ho] at hab
    rw [ho'] at hbc
    exact hrest a ha b hb c hc hab hbc

theorem strictWeakOn_of_notBefore {before : α → α → Bool}
    (hasymm : ∀ a b, before a b = true → before b a = false)
    (hnot : ∀ a ∈ l, ∀ b ∈ l, ∀ c ∈ l, before a b = false → before b c = false →
      before a c = false) : StrictWeakOn before l := by
  refine ⟨fun a ha => ?_, fun a ha b hb c hc hab hbc => ?_, fun a ha b hb c hc hab hba hbc hcb => ?_⟩
  · cases hself : before a a with
    | false => rfl
    | true => exact hself.symm.trans (hasymm a a hself)
  · by_contra hac
    have := hnot a ha c hc b hb (by simpa using hac) (hasymm b c hbc)
    simp [this] at hab
  · exact ⟨hnot a ha b hb c hc hab hbc, hnot c hc b hb a ha hcb hba⟩

end Rules

/-! ## The rules of `ApplySorting` -/

theorem compares_text : Compares stringLt (fun x y => decide (x ≠ y)) fun _ => True where
  ne_eq := by
    intro x y _ _
    have hswap : compare y x = (compare x y).swap := Std.OrientedCmp.eq_swap
    have heq : compare x y = .eq ↔ x = y := Std.LawfulEqCmp.compare_eq_iff_eq
    unfold stringLt
    cases hc : compare x y <;> simp_all
  trans := by
    intro x y z _ _ _ hxy hyz
    have hge : ∀ o : Ordering, o.isLT = false ↔ o.isGE = true := by rintro (_ | _ | _) <;> decide
    unfold stringLt at hxy hyz ⊢
    rw [hge] at hxy hyz ⊢
    exact Std.TransCmp.isGE_trans hxy hyz

namespace SortRuntime

variable {S : Type} (rt : SortRuntime S)

def IsNumber (x : rt.Number) : Prop := ∃ text, rt.tryParseDoubleValue text = some x

/-- No text that is not a number lies between two numbers that the texts order the other way. -/
def Untangled (texts : List Bytes) : Prop :=
  ∀ u ∈ texts, ∀ v ∈ texts, ∀ z ∈ texts, ∀ m n, rt.tryParseDoubleValue u = some m →
    rt.tryParseDoubleValue v = some n → rt.tryParseDoubleValue z = none →
    rt.numberLt m n = true → ¬ (stringLt v z = true ∧ stringLt z u = true)

def byField (descending : Bool) (x y : Bytes) : Option Bool :=
  if x = y then none
  else
    match rt.tryParseDoubleValue x, rt.tryParseDoubleValue y with
    | some u, some v => (rt.byNumber descending u v).or (byText descending x y)
    | _, _ => byText descending x y

/-- Not before: as numbers, and where these do not decide as texts. -/
theorem byField_ne (hnumber : Compares rt.numberLt rt.numberNe rt.IsNumber) (x y : Bytes) :
    rt.byField false x y ≠ some true ↔
      match rt.tryParseDoubleValue x, rt.tryParseDoubleValue y with
      | some m, some n => rt.numberLt m n = false ∧ (rt.numberLt n m = true ∨ stringLt x y = false)
      | _, _ => stringLt x y = false := by
  have htext : byText false x y ≠ some true ↔ stringLt x y = false :=
    compares_text.ne_true false trivial trivial
  unfold byField
  by_cases heq : x = y
  · have hself : ∀ m, rt.numberLt m m = false := fun m => by
      cases hm : rt.numberLt m m with
      | false => rfl
      | true => exact hm.symm.trans (rt.numberLt_asymm m m hm)
    subst heq
    cases rt.tryParseDoubleValue x <;> simpa [hself, byText, directed] using htext
  · rw [if_neg heq]
    cases hx : rt.tryParseDoubleValue x with
    | none => exact htext
    | some m =>
      cases hy : rt.tryParseDoubleValue y with
      | none => exact htext
      | some n =>
        simp only [byNumber, directed, hnumber.ne_eq m n ⟨x, hx⟩ ⟨y, hy⟩]
        cases rt.numberLt m n <;> cases rt.numberLt n m <;> simp [htext]

theorem byField_trans (hnumber : Compares rt.numberLt rt.numberNe rt.IsNumber) {texts : List Bytes}
    (h : rt.Untangled texts) {x y z : Bytes} (hx : x ∈ texts) (hy : y ∈ texts) (hz : z ∈ texts)
    (hxy : rt.byField false x y ≠ some true) (hyz : rt.byField false y z ≠ some true) :
    rt.byField false x z ≠ some true := by
  have hneg : ∀ x y z, stringLt x y = false → stringLt y z = false → stringLt x z = false :=
    fun x y z => compares_text.trans x y z trivial trivial trivial
  have hsame : ∀ x y, stringLt x y = false → stringLt y x = false → x = y := by
    intro x y hxy hyx
    simpa [hxy, hyx] using compares_text.ne_eq x y trivial trivial
  have hnumbers : ∀ x y z m n k, rt.tryParseDoubleValue x = some m →
      rt.tryParseDoubleValue y = some n → rt.tryParseDoubleValue z = some k →
      rt.numberLt m n = false → rt.numberLt n k = false → rt.numberLt m k = false :=
    fun x y z m n k hx hy hz => hnumber.trans m n k ⟨x, hx⟩ ⟨y, hy⟩ ⟨z, hz⟩
  unfold Untangled at h
  rw [rt.byField_ne hnumber] at hxy hyz ⊢
  -- only two numbers and a text can be tangled
  cases hpx : rt.tryParseDoubleValue x <;> cases hpy : rt.tryParseDoubleValue y <;>
    cases hpz : rt.tryParseDoubleValue z <;> simp only [hpx, hpy, hpz] at hxy hyz ⊢ <;> grind

theorem byField_desc (x y : Bytes) : rt.byField true x y = rt.byField false y x := by
  unfold byField byText byNumber directed
  simp only [eq_comm (a := x), ne_comm (a := x)]
  cases rt.tryParseDoubleValue x <;> cases rt.tryParseDoubleValue y <;>
    simp [rt.numberNe_comm]

variable {rules : List Bytes} {hits : List (RankedHit S)} {rule : Bytes}

theorem ranks_byField (hnumber : Compares rt.numberLt rt.numberNe rt.IsNumber)
    {text : RankedHit S → Bytes} (h : rt.Untangled (hits.map text)) (descending : Bool) :
    Ranks (fun a b => rt.byField descending (text a) (text b)) hits := by
  have hmem : ∀ {a}, a ∈ hits → text a ∈ hits.map text := fun ha => List.mem_map_of_mem ha
  have htotal : ∀ x y : Bytes, rt.byField false x y = some true ∨
      rt.byField false y x = some true ∨ rt.byField false x y = none := by
    intro x y
    by_contra hopen
    push Not at hopen
    obtain ⟨hxy, hyx, hnone⟩ := hopen
    have heq : x = y := by
      rw [rt.byField_ne hnumber] at hxy hyx
      have hsame := compares_text.ne_eq x y trivial trivial
      cases hx : rt.tryParseDoubleValue x <;> cases hy : rt.tryParseDoubleValue y <;>
        simp_all
    exact hnone (by rw [byField, if_pos heq])
  cases descending with
  | false => exact ⟨fun a _ b _ => htotal _ _, fun a ha b hb c hc =>
      rt.byField_trans hnumber h (hmem ha) (hmem hb) (hmem hc)⟩
  | true =>
    simp only [byField_desc]
    refine ⟨fun a _ b _ => ?_, fun a ha b hb c hc hab hbc =>
      rt.byField_trans hnumber h (hmem hc) (hmem hb) (hmem ha) hbc hab⟩
    rcases htotal (text b) (text a) with he | he | he
    · exact .inl he
    · exact .inr (.inl he)
    · exact .inr (.inr he)

/-- **The condition on a rule**: the scores and the distances compare, and the texts of a field are
not tangled with its numbers. -/
def Sorts (rule : Bytes) (hits : List (RankedHit S)) : Prop :=
  match rt.tryParseGeoDistanceSort rule with
  | some (distance, _) =>
      Compares rt.numberLt rt.numberNe fun x => ∃ a ∈ hits, distance a.document = some x
  | none =>
      let field := (readRule rule).1
      if field = lit "_text_match" ∨ field = lit "_score" ∨ field = lit "score" then
        Compares rt.scoreLt rt.scoreNe fun x =>
          ∃ a ∈ hits, rt.effectiveScore a.textMatch a.weight = x
      else rt.Untangled (hits.map fun a => (a.document[field]?).getD [])

theorem ranks_sortRule (hnumber : Compares rt.numberLt rt.numberNe rt.IsNumber)
    (h : rt.Sorts rule hits) : Ranks (rt.sortRule rule) hits := by
  unfold Sorts at h
  cases hgeo : rt.tryParseGeoDistanceSort rule with
  | some geo =>
    obtain ⟨distance, descending⟩ := geo
    rw [hgeo] at h
    refine ⟨fun a ha b hb => ?_, fun a ha b hb c hc => ?_⟩
    · cases hx : distance a.document <;> cases hy : distance b.document <;>
        simp only [sortRule, hgeo, hx, hy]
      · simp
      · simp
      · simp
      · exact h.total descending ⟨a, ha, hx⟩ ⟨b, hb, hy⟩
    · cases hx : distance a.document <;> cases hy : distance b.document <;>
        cases hz : distance c.document <;> simp only [sortRule, hgeo, hx, hy, hz]
      all_goals try simp
      exact h.notBefore descending ⟨a, ha, hx⟩ ⟨b, hb, hy⟩ ⟨c, hc, hz⟩
  | none =>
    rw [hgeo] at h
    dsimp only at h
    split at h
    · rename_i hscore
      have hrule : ∀ a b, rt.sortRule rule a b = rt.byScore (readRule rule).2 a b := by
        intro a b
        rw [sortRule, hgeo]
        exact if_pos hscore
      refine ⟨fun a ha b hb => ?_, fun a ha b hb c hc => ?_⟩
      · rw [hrule, hrule]
        exact h.total _ ⟨a, ha, rfl⟩ ⟨b, hb, rfl⟩
      · rw [hrule, hrule, hrule]
        exact h.notBefore _ ⟨a, ha, rfl⟩ ⟨b, hb, rfl⟩ ⟨c, hc, rfl⟩
    · rename_i hscore
      have hrule : rt.sortRule rule = fun a b => rt.byField (readRule rule).2
          ((a.document[(readRule rule).1]?).getD []) ((b.document[(readRule rule).1]?).getD []) := by
        funext a b
        rw [sortRule, hgeo]
        exact if_neg hscore
      rw [hrule]
      exact rt.ranks_byField hnumber h _

def Uniform (field : Bytes) (hits : List (RankedHit S)) : Prop :=
  (∀ a ∈ hits, ∃ x, (a.document[field]?).bind rt.tryParseDoubleValue = some x) ∨
    ∀ a ∈ hits, (a.document[field]?).bind rt.tryParseDoubleValue = none

theorem ranks_byRank (hnumber : Compares rt.numberLt rt.numberNe rt.IsNumber) {field : Bytes}
    (h : rt.Uniform field hits) (descending : Bool) : Ranks (rt.byRank field descending) hits := by
  have hparsed : ∀ {a : RankedHit S} {x}, (a.document[field]?).bind rt.tryParseDoubleValue = some x →
      rt.IsNumber x := by
    intro a x hx
    obtain ⟨text, -, htext⟩ := Option.bind_eq_some_iff.mp hx
    exact ⟨text, htext⟩
  unfold byRank
  rcases h with hall | hnone
  · refine ⟨fun a ha b hb => ?_, fun a ha b hb c hc => ?_⟩
    · obtain ⟨x, hx⟩ := hall a ha
      obtain ⟨y, hy⟩ := hall b hb
      simp only [hx, hy]
      exact hnumber.total descending (hparsed hx) (hparsed hy)
    · obtain ⟨x, hx⟩ := hall a ha
      obtain ⟨y, hy⟩ := hall b hb
      obtain ⟨z, hz⟩ := hall c hc
      simp only [hx, hy, hz]
      exact hnumber.notBefore descending (hparsed hx) (hparsed hy) (hparsed hz)
  · exact ⟨fun a ha b hb => by simp [hnone a ha], fun a ha b hb c hc => by simp [hnone a ha]⟩

end SortRuntime

def sized (size : Bytes) : RankedHit Nat := ⟨⟨size, .ofList [(lit "size", size)]⟩, 0, 0⟩

def nineAndTen : SortRuntime Nat :=
  { LexicalEngine.plainOrder with
    tryParseDoubleValue := fun text => if text = lit "9" then some (9 : Nat)
      else if text = lit "10" then some (10 : Nat) else none }

end Hlquery.Search
