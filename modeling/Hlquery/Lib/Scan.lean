import Hlquery.Lib.Bytes

/-!
# Hand-written scanners and what follows their input

A hand-written parser reads a prefix of its input and answers with a value and the rest. `Parser`
is that shape, and the file has the one loop such parsers are built with, the left-associative
chain `item (op item)*`.

What the models need about them is *locality*: if the parser reads a value off a text, it reads
the same value off the same text with more behind it, provided the added text starts with a
delimiter that the grammar treats as a stop. `Stops b p` states it for the delimiter `b`, and it is
preserved by sequencing and by the chain. Parsers that recurse are given fuel; `chain_eq` says that
fuel above the length of the input changes nothing.
-/

set_option autoImplicit false

namespace Hlquery

abbrev Parser (α : Type) := Bytes → Option (α × Bytes)

namespace Parser

variable {α β : Type}

/-- `p`, and then `f` on the rest. -/
def andThen (p : Parser α) (f : α → Parser β) : Parser β := fun s =>
  match p s with
  | none => none
  | some (a, r) => f a r

/-- What is read off `u` is read off `u` and a delimiter. -/
def Stops (b : UInt8) (p : Parser α) : Prop :=
  ∀ ⦃u a r⦄, p u = some (a, r) → ∀ s, p (u ++ b :: s) = some (a, r ++ b :: s)

/-- What is read off `u` is read off `u` followed by `d`, as long as the rest is of the kind `E`. -/
def Local (E : Bytes → Prop) (d : Bytes) (p : Parser α) : Prop :=
  ∀ ⦃u a r⦄, p u = some (a, r) → E r → p (u ++ d) = some (a, r ++ d)

def Shrinks (p : Parser α) : Prop := ∀ ⦃u a r⦄, p u = some (a, r) → r.length ≤ u.length

theorem andThen_eq_some {p : Parser α} {f : α → Parser β} {s : Bytes} {b : β} {r : Bytes} :
    p.andThen f s = some (b, r) ↔ ∃ a t, p s = some (a, t) ∧ f a t = some (b, r) := by
  unfold andThen
  cases h : p s with
  | none => simp
  | some at' =>
    obtain ⟨a, t⟩ := at'
    constructor
    · exact fun hf => ⟨a, t, rfl, hf⟩
    rintro ⟨a', t', he, hf⟩
    cases he
    exact hf

/-- The value of a reading is changed and its rest stays. -/
theorem map_eq_some {x : Option (α × Bytes)} {f : α × Bytes → β × Bytes} {b : β} {r : Bytes}
    (h : x.map f = some (b, r)) (hf : ∀ ar, (f ar).2 = ar.2) :
    ∃ a, x = some (a, r) ∧ (f (a, r)).1 = b := by
  obtain ⟨⟨a, t⟩, rfl, ht⟩ := Option.map_eq_some_iff.mp h
  obtain rfl : t = r := (hf (a, t)).symm.trans (congrArg Prod.snd ht)
  exact ⟨a, rfl, congrArg Prod.fst ht⟩

theorem Shrinks.andThen {p : Parser α} {f : α → Parser β} (hp : Shrinks p)
    (hf : ∀ a, Shrinks (f a)) : Shrinks (p.andThen f) := by
  intro u c r h
  obtain ⟨a, t, ha, hc⟩ := andThen_eq_some.mp h
  exact (hf a hc).trans (hp ha)

/-! ## Chains -/

/-- The loop `(op item)*` with the value read so far. Without an operator it ends; after an
operator an item must follow. -/
def chainLoop (op : Bytes → Option Bytes) (item : Parser α) (combine : α → α → α) :
    Nat → α → Parser α
  | 0, _, _ => none
  | fuel + 1, a, s =>
    match op s with
    | none => some (a, s)
    | some r =>
      match item r with
      | none => none
      | some (a', r') => chainLoop op item combine fuel (combine a a') r'

/-- `item (op item)*`, with as much fuel as the input is long. -/
def chain (op : Bytes → Option Bytes) (item : Parser α) (combine : α → α → α) : Parser α :=
  fun s =>
    match item s with
    | none => none
    | some (a, r) => chainLoop op item combine (r.length + 1) a r

section Chain

variable {op : Bytes → Option Bytes} {item item' : Parser α} {combine : α → α → α}

def Consumes (op : Bytes → Option Bytes) : Prop := ∀ ⦃s r⦄, op s = some r → r.length < s.length

/-- Whether an operator stands in front of a delimiter does not depend on what follows. -/
def Settled (b : UInt8) (op : Bytes → Option Bytes) : Prop :=
  ∀ u s, op (u ++ b :: s) = (op u).map fun r => r ++ b :: s

theorem chainLoop_shrinks (hop : Consumes op) (hitem : Shrinks item) :
    ∀ (fuel : Nat) (a : α), Shrinks (chainLoop op item combine fuel a)
  | 0, _ => fun _ _ _ h => absurd h (by simp [chainLoop])
  | fuel + 1, a => by
    intro u c r h
    unfold chainLoop at h
    cases ho : op u with
    | none =>
      simp only [ho, Option.some.injEq, Prod.mk.injEq] at h
      rw [← h.2]
    | some t =>
      cases hi : item t with
      | none => simp [ho, hi] at h
      | some at' =>
        obtain ⟨a', t'⟩ := at'
        simp only [ho, hi] at h
        have h₁ := chainLoop_shrinks hop hitem fuel _ h
        have h₂ := hitem hi
        have h₃ := hop ho
        omega

theorem chain_shrinks (hop : Consumes op) (hitem : Shrinks item) :
    Shrinks (chain op item combine) := by
  intro u c r h
  unfold chain at h
  cases hi : item u with
  | none => simp [hi] at h
  | some at' =>
    simp only [hi] at h
    exact (chainLoop_shrinks hop hitem _ _ h).trans (hitem hi)

/-- Two item parsers that agree on texts shorter than `n` give the same loop there, and fuel above
the length of the text does not matter. -/
theorem chainLoop_eq (hop : Consumes op) (hitem : Shrinks item) {n : Nat}
    (heq : ∀ s, s.length < n → item s = item' s) :
    ∀ {fuel fuel' : Nat} {a : α} {s : Bytes}, s.length < fuel → s.length < fuel' → s.length ≤ n →
      chainLoop op item combine fuel a s = chainLoop op item' combine fuel' a s
  | 0, _, _, s, h, _, _ => absurd h (by omega)
  | _ + 1, 0, _, s, _, h, _ => absurd h (by omega)
  | fuel + 1, fuel' + 1, a, s, hf, hf', hn => by
    unfold chainLoop
    cases ho : op s with
    | none => rfl
    | some r =>
      have hr := hop ho
      have hi' := heq r (by omega)
      cases hi : item r with
      | none => simp only [← hi', hi]
      | some at' =>
        obtain ⟨a', r'⟩ := at'
        have hr' := hitem hi
        simp only [← hi', hi]
        exact chainLoop_eq hop hitem heq (by omega) (by omega) (by omega)

theorem chain_eq (hop : Consumes op) (hitem : Shrinks item) {n : Nat}
    (heq : ∀ s, s.length ≤ n → item s = item' s) {s : Bytes} (hs : s.length ≤ n) :
    chain op item combine s = chain op item' combine s := by
  unfold chain
  rw [← heq s hs]
  cases hi : item s with
  | none => rfl
  | some at' =>
    obtain ⟨a, r⟩ := at'
    have hr := hitem hi
    exact chainLoop_eq hop hitem (fun t ht => heq t (by omega)) (by omega) (by omega)
      (show r.length ≤ n + 1 by omega)

def ChainStep (op : Bytes → Option Bytes) (item : Parser α) (combine : α → α → α)
    (x y : α × Bytes) : Prop :=
  ∃ a t, op x.2 = some t ∧ item t = some (a, y.2) ∧ y.1 = combine x.1 a

/-- With fuel above the length of the text, the loop makes the rounds it can make. -/
theorem chainLoop_eq_some (hop : Consumes op) (hitem : Shrinks item) :
    ∀ {fuel : Nat} {a c : α} {s r : Bytes}, s.length < fuel →
      (chainLoop op item combine fuel a s = some (c, r) ↔
        Relation.ReflTransGen (ChainStep op item combine) (a, s) (c, r) ∧ op r = none)
  | 0, _, _, _, _, h => absurd h (by omega)
  | fuel + 1, a, c, s, r, hf => by
    unfold chainLoop
    rw [Relation.ReflTransGen.cases_head_iff]
    cases ho : op s with
    | none =>
      simp only [ChainStep, ho, Option.some.injEq, Prod.mk.injEq]
      constructor
      · rintro ⟨rfl, rfl⟩
        exact ⟨.inl ⟨rfl, rfl⟩, ho⟩
      · rintro ⟨⟨rfl, rfl⟩ | ⟨y, ⟨a', t, h, -⟩, -⟩, -⟩
        · exact ⟨rfl, rfl⟩
        · cases h
    | some t =>
      have ht := hop ho
      have hno : ¬((a, s) = (c, r) ∧ op r = none) := by
        rintro ⟨he, hr⟩
        cases he
        rw [ho] at hr
        cases hr
      cases hi : item t with
      | none =>
        simp only [hi]
        refine ⟨nofun, ?_⟩
        rintro ⟨he | ⟨y, ⟨a', t', ho', h, -⟩, -⟩, hr⟩
        · exact absurd ⟨he, hr⟩ hno
        · obtain rfl := Option.some.inj (ho.symm.trans ho')
          exact absurd (hi.symm.trans h) (by simp)
      | some at' =>
        obtain ⟨a', t'⟩ := at'
        have ht' := hitem hi
        simp only [hi]
        rw [chainLoop_eq_some hop hitem (show t'.length < fuel by omega)]
        constructor
        · rintro ⟨hrun, hr⟩
          exact ⟨.inr ⟨_, ⟨a', t, ho, hi, rfl⟩, hrun⟩, hr⟩
        · rintro ⟨he | ⟨⟨c', s'⟩, ⟨a'', t'', ho', hi', hc⟩, hrun⟩, hr⟩
          · exact absurd ⟨he, hr⟩ hno
          · obtain rfl := Option.some.inj (ho.symm.trans ho')
            obtain ⟨rfl, rfl⟩ := Prod.mk.inj (Option.some.inj (hi.symm.trans hi'))
            obtain rfl := hc
            exact ⟨hrun, hr⟩

theorem chain_eq_some (hop : Consumes op) (hitem : Shrinks item) {c : α} {s r : Bytes} :
    chain op item combine s = some (c, r) ↔ ∃ a t, item s = some (a, t) ∧
        Relation.ReflTransGen (ChainStep op item combine) (a, t) (c, r) ∧ op r = none := by
  unfold chain
  cases hi : item s with
  | none => simp
  | some at' =>
    obtain ⟨a, t⟩ := at'
    simp only [Option.some.injEq, Prod.mk.injEq]
    rw [chainLoop_eq_some hop hitem (Nat.lt_succ_self _)]
    constructor
    · exact fun h => ⟨a, t, ⟨rfl, rfl⟩, h⟩
    · rintro ⟨_, _, ⟨rfl, rfl⟩, h⟩
      exact h

/-- **A chain of local items is local.** Inside the chain an item is followed by an operator, which
has to be a rest of the right kind; behind the last one the rest is that of the chain. -/
theorem chain_local {E : Bytes → Prop} {d : Bytes} (hop : Consumes op) (hshrink : Shrinks item)
    (hE : ∀ ⦃r t⦄, op r = some t → E r ∧ op (r ++ d) = some (t ++ d))
    (hnone : ∀ ⦃r⦄, E r → op r = none → op (r ++ d) = none) (hitem : Local E d item) :
    Local E d (chain op item combine) := by
  intro u c r h hr
  obtain ⟨a, t, hi, hrun, hend⟩ := (chain_eq_some hop hshrink).mp h
  -- the rest of every round is of the kind `E`, since an operator or the end follows
  have hkind : ∀ x : α × Bytes, Relation.ReflTransGen (ChainStep op item combine) x (c, r) →
      E x.2 := by
    intro x hx
    rcases hx.cases_head with rfl | ⟨y, ⟨_, _, ho, -, -⟩, -⟩
    · exact hr
    · exact (hE ho).1
  refine (chain_eq_some hop hshrink).mpr ⟨a, t ++ d, hitem hi (hkind _ hrun), ?_, hnone hr hend⟩
  clear h hi hend
  generalize hx : (a, t) = x at hrun
  induction hrun using Relation.ReflTransGen.head_induction_on generalizing a t with
  | refl => cases hx; exact .refl
  | @head x y hstep hrest ih =>
    obtain rfl := hx
    obtain ⟨b, s⟩ := y
    obtain ⟨a', t', ho, hi, hc⟩ := hstep
    refine .head (b := (b, s ++ d)) ?_ (ih _ _ rfl)
    exact ⟨a', t' ++ d, (hE ho).2, hitem hi (hkind _ hrest), hc⟩

theorem chain_stops {b : UInt8} (hop : Consumes op) (hb : Settled b op) (hshrink : Shrinks item)
    (hitem : Stops b item) : Stops b (chain op item combine) := by
  intro u c r h s
  refine chain_local (E := fun _ => True) hop hshrink ?_ ?_ (fun _ _ _ hi _ => hitem hi s) h trivial
  · intro r t ho
    exact ⟨trivial, by rw [hb r s, ho]; rfl⟩
  · intro r _ ho
    rw [hb r s, ho]
    rfl

end Chain

end Parser

/-! ## Words, tables of words and stop conditions -/

namespace Bytes

variable {b : UInt8} {stop : Bytes → Bool} {u d : Bytes} {α : Type}

theorem startsWith_append_of_notMem {word : Bytes} (hword : b ∉ word)
    (hb : b ∈ u ∨ d.head? = some b) : startsWith (u ++ d) word = startsWith u word := by
  rcases Nat.lt_or_ge u.length word.length with hlt | hle
  · have hu : startsWith u word = false := by
      rw [Bool.eq_false_iff]
      intro h
      obtain ⟨r, rfl⟩ := startsWith_iff.mp h
      simp at hlt
    rw [hu, Bool.eq_false_iff]
    intro h
    obtain ⟨r, hr⟩ := startsWith_iff.mp h
    -- the word has all of `u` and the first byte of `d`
    have hd : u ++ d.take 1 <+: u ++ d := (List.prefix_append_right_inj u).mpr (List.take_prefix 1 d)
    have hlen : (u ++ d.take 1).length ≤ word.length := by
      simp only [List.length_append, List.length_take]
      omega
    have hpre : u ++ d.take 1 <+: word := List.prefix_of_prefix_length_le hd ⟨r, hr.symm⟩ hlen
    refine hword (hpre.subset ?_)
    rcases hb with hb | hb
    · exact List.mem_append_left _ hb
    · cases d with
      | nil => cases hb
      | cons x d => simpa using Or.inr (Option.some.inj hb).symm
  · exact startsWith_append_of_le hle d

theorem length_le_of_startsWith {s t : Bytes} (h : startsWith s t = true) :
    t.length ≤ s.length := by
  obtain ⟨r, rfl⟩ := startsWith_iff.mp h
  simp

theorem dropWhile_append_of_not {q : UInt8 → Bool} (hb : q b = false) (s : Bytes) :
    ∀ u : Bytes, (u ++ b :: s).dropWhile q = u.dropWhile q ++ b :: s
  | [] => by simp [List.dropWhile, hb]
  | x :: u => by
    cases hx : q x with
    | true => simp [List.dropWhile, hx, dropWhile_append_of_not hb s u]
    | false => simp [List.dropWhile, hx]

theorem takeWhile_append_of_not {q : UInt8 → Bool} (hb : q b = false) (s : Bytes) :
    ∀ u : Bytes, (u ++ b :: s).takeWhile q = u.takeWhile q
  | [] => by simp [List.takeWhile, hb]
  | x :: u => by
    cases hx : q x with
    | true => simp [List.takeWhile, hx, takeWhile_append_of_not hb s u]
    | false => simp [List.takeWhile, hx]

theorem length_dropWhile_le (q : UInt8 → Bool) (s : Bytes) :
    (s.dropWhile q).length ≤ s.length := (List.dropWhile_suffix q).length_le

/-- The first word of a table that the text starts with, and the text behind it. -/
def matchFirst {α : Type} : List (Bytes × α) → Parser α
  | [], _ => none
  | (word, a) :: table, s =>
      if startsWith s word then some (a, s.drop word.length) else matchFirst table s

/-- Whether a word of the table stands in front of a delimiter is decided before it. -/
theorem matchFirst_append (hb : b ∈ u ∨ d.head? = some b) :
    ∀ {table : List (Bytes × α)}, (∀ w ∈ table, b ∉ w.1) →
      matchFirst table (u ++ d) = (matchFirst table u).map fun ar => (ar.1, ar.2 ++ d)
  | [], _ => rfl
  | (word, a) :: table, h => by
    have hw : b ∉ word := h (word, a) (by simp)
    have ih := matchFirst_append hb (fun w hw => h w (List.mem_cons_of_mem _ hw))
    unfold matchFirst
    rw [startsWith_append_of_notMem hw hb, ih]
    cases hu : startsWith u word with
    | true =>
      have hlen := length_le_of_startsWith hu
      simp [List.drop_append_of_le_length hlen]
    | false => simp

theorem matchFirst_suffix {r : Bytes} {a : α} :
    ∀ {table : List (Bytes × α)}, matchFirst table u = some (a, r) → r <:+ u
  | [], h => absurd h (by simp [matchFirst])
  | (word, a) :: table, h => by
    unfold matchFirst at h
    split at h
    · cases h
      exact List.drop_suffix _ _
    · exact matchFirst_suffix h

theorem matchFirst_shrinks :
    ∀ table : List (Bytes × α), Parser.Shrinks (matchFirst table)
  | [] => fun _ _ _ h => absurd h (by simp [matchFirst])
  | (word, a) :: table => by
    intro u c r h
    unfold matchFirst at h
    split at h
    · simp only [Option.some.injEq, Prod.mk.injEq] at h
      rw [← h.2, List.length_drop]
      omega
    · exact matchFirst_shrinks table h

/-- The text up to the first position at which `stop` holds of the rest, and that rest. -/
def takeUntil (stop : Bytes → Bool) : Bytes → Bytes × Bytes
  | [] => ([], [])
  | b :: s =>
      if stop (b :: s) then ([], b :: s)
      else (b :: (takeUntil stop s).1, (takeUntil stop s).2)

/-- A delimiter that stops the scan ends it at the latest. -/
theorem takeUntil_append (hd : stop d = true) (hne : d ≠ []) :
    ∀ {u : Bytes}, (∀ v, v ≠ [] → v <:+ u → stop (v ++ d) = stop v) →
      takeUntil stop (u ++ d) = ((takeUntil stop u).1, (takeUntil stop u).2 ++ d)
  | [], _ => by
    cases d with
    | nil => exact absurd rfl hne
    | cons b s => simp [takeUntil, hd]
  | x :: u, hstop => by
    have hx := hstop (x :: u) (by simp) (List.suffix_refl _)
    have ih := takeUntil_append hd hne fun v hv hs => hstop v hv (hs.trans (List.suffix_cons x u))
    simp only [List.cons_append] at hx
    simp only [List.cons_append, takeUntil, hx, ih]
    split <;> simp

/-- A scan that has stopped has not seen what follows, if one byte of lookahead is all it
uses. -/
theorem takeUntil_append_of_stopped (d : Bytes) (hmono : ∀ u, stop u = true → stop (u ++ d) = true)
    (hlook : ∀ x y u, stop (x :: y :: u ++ d) = stop (x :: y :: u)) :
    ∀ {u : Bytes}, (takeUntil stop u).2 ≠ [] →
      takeUntil stop (u ++ d) = ((takeUntil stop u).1, (takeUntil stop u).2 ++ d)
  | [], h => absurd rfl h
  | [x], h => by
    cases hx : stop [x] with
    | true => simp [takeUntil, hx, show stop (x :: d) = true from hmono _ hx]
    | false => exact absurd (by simp [takeUntil, hx]) h
  | x :: y :: u, h => by
    have hx := hlook x y u
    cases hxy : stop (x :: y :: u) with
    | true =>
      rw [hxy] at hx
      simp only [List.cons_append] at hx
      simp [takeUntil, hx, hxy]
    | false =>
      have hrest : takeUntil stop (x :: y :: u) =
          (x :: (takeUntil stop (y :: u)).1, (takeUntil stop (y :: u)).2) := by
        rw [takeUntil]; simp [hxy]
      have hrest' : takeUntil stop (x :: y :: u ++ d) =
          (x :: (takeUntil stop (y :: u ++ d)).1, (takeUntil stop (y :: u ++ d)).2) := by
        rw [hxy] at hx
        simp only [List.cons_append] at hx ⊢
        rw [takeUntil]; simp [hx]
      rw [hrest] at h
      rw [hrest, hrest', takeUntil_append_of_stopped d hmono hlook h]

theorem takeUntil_eq_self :
    ∀ {s : Bytes}, (∀ v, v ≠ [] → v <:+ s → stop v = false) → takeUntil stop s = (s, [])
  | [], _ => rfl
  | b :: s, h => by
    have hb := h (b :: s) (by simp) (List.suffix_refl _)
    have hs := takeUntil_eq_self fun v hv hvs => h v hv (hvs.trans (List.suffix_cons b s))
    simp [takeUntil, hb, hs]

theorem notMem_takeUntil (hb : ∀ s, stop (b :: s) = true) : ∀ s : Bytes, b ∉ (takeUntil stop s).1
  | [] => by simp [takeUntil]
  | x :: s => by
    unfold takeUntil
    split
    · simp
    rename_i hx
    have hne : b ≠ x := by rintro rfl; exact hx (hb s)
    simp [hne, notMem_takeUntil hb s]

theorem takeUntil_fst_append_snd (stop : Bytes → Bool) :
    ∀ s : Bytes, (takeUntil stop s).1 ++ (takeUntil stop s).2 = s
  | [] => rfl
  | b :: s => by
    unfold takeUntil
    split
    · rfl
    · exact congrArg (b :: ·) (takeUntil_fst_append_snd stop s)

theorem takeUntil_suffix (stop : Bytes → Bool) (s : Bytes) : (takeUntil stop s).2 <:+ s :=
  ⟨_, takeUntil_fst_append_snd stop s⟩

theorem takeUntil_stopped (stop : Bytes → Bool) :
    ∀ s : Bytes, (takeUntil stop s).2 = [] ∨ stop (takeUntil stop s).2 = true
  | [] => .inl rfl
  | b :: s => by
    unfold takeUntil
    split
    · rename_i h; exact .inr h
    · exact takeUntil_stopped stop s

theorem length_takeUntil_le (stop : Bytes → Bool) (s : Bytes) :
    (takeUntil stop s).2.length ≤ s.length := (takeUntil_suffix stop s).length_le

end Bytes

end Hlquery
