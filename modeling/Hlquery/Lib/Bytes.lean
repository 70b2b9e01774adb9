import Mathlib

/-!
# Byte strings

A `std::string` is a sequence of bytes, and so is everything that is written to a key, a
record or a file. `Bytes` is that sequence; nothing here knows what the bytes mean. The file
keeps the handful of `std::string` operations that the models above are written in
(`starts_with`, splits at the first occurrence of a byte or of a text, the character classes)
together with the two facts about the lexicographic order that every ordered scan rests on:
a common prefix can be cancelled, and the strings that carry a given prefix are convex.
-/

set_option autoImplicit false

namespace Hlquery

/-- A `std::string`, byte by byte. -/
abbrev Bytes := List UInt8

instance instLawfulBEqBytes : LawfulBEq Bytes := inferInstance

/-- A string literal of the source: one byte for each character. -/
def lit (s : String) : Bytes := s.toList.map fun c => c.toNat.toUInt8

/-- A character literal of the source. -/
def chr (c : Char) : UInt8 := c.toNat.toUInt8

namespace Bytes

/-- `s.starts_with(p)`. -/
def startsWith (s p : Bytes) : Bool := p.isPrefixOf s

variable {pat s : Bytes} {b : UInt8} {p l r : Bytes}

theorem startsWith_iff : startsWith s p = true ↔ ∃ t, s = p ++ t := by
  unfold startsWith
  rw [List.isPrefixOf_iff_prefix]
  constructor
  · rintro ⟨t, rfl⟩; exact ⟨t, rfl⟩
  · rintro ⟨t, rfl⟩; exact ⟨t, rfl⟩

@[simp] theorem startsWith_append (p t : Bytes) : startsWith (p ++ t) p = true :=
  startsWith_iff.mpr ⟨t, rfl⟩

/-- `s` without its prefix `p`, when it has one. -/
def stripPrefix (p s : Bytes) : Option Bytes :=
  if startsWith s p then some (s.drop p.length) else none

theorem stripPrefix_eq_some {t : Bytes} : stripPrefix p s = some t ↔ s = p ++ t := by
  unfold stripPrefix
  by_cases h : startsWith s p = true
  · obtain ⟨u, rfl⟩ := startsWith_iff.mp h
    simp
  · rw [if_neg h]
    constructor
    · nofun
    · rintro rfl; exact absurd (startsWith_append p t) h

/-- The text before and after the first occurrence of `b`, as `find` and two `substr` give
it. -/
def splitFirst (b : UInt8) : Bytes → Option (Bytes × Bytes)
  | [] => none
  | x :: xs =>
      if x = b then some ([], xs) else (splitFirst b xs).map fun lr => (x :: lr.1, lr.2)

theorem splitFirst_append :
    ∀ {l : Bytes}, b ∉ l → ∀ r : Bytes, splitFirst b (l ++ b :: r) = some (l, r)
  | [], _, r => by simp [splitFirst]
  | x :: xs, h, r => by
    have hx : x ≠ b := fun e => h (by simp [e])
    have hxs : b ∉ xs := fun e => h (by simp [e])
    simp [splitFirst, hx, splitFirst_append hxs r]

/-- A text is cut at a byte in one way only, if the byte is not in front of the cut. -/
theorem append_cons_inj {l₁ l₂ r₁ r₂ : Bytes} (h₁ : b ∉ l₁) (h₂ : b ∉ l₂)
    (h : l₁ ++ b :: r₁ = l₂ ++ b :: r₂) : l₁ = l₂ ∧ r₁ = r₂ := by
  have hsplit := splitFirst_append h₁ r₁
  rw [h, splitFirst_append h₂ r₂] at hsplit
  cases hsplit
  exact ⟨rfl, rfl⟩

theorem splitFirst_eq_some : splitFirst b s = some (l, r) ↔ s = l ++ b :: r ∧ b ∉ l := by
  constructor
  · induction s generalizing l with
    | nil => intro h; simp [splitFirst] at h
    | cons x xs ih =>
      intro h
      by_cases hx : x = b
      · simp only [splitFirst, hx, if_true, Option.some.injEq, Prod.mk.injEq] at h
        obtain ⟨rfl, rfl⟩ := h
        simp [hx]
      · simp only [splitFirst, hx, if_false, Option.map_eq_some_iff, Prod.mk.injEq] at h
        obtain ⟨⟨l', r'⟩, hs, rfl, rfl⟩ := h
        obtain ⟨rfl, hb⟩ := ih hs
        exact ⟨rfl, by simp [hb, Ne.symm hx]⟩
  · rintro ⟨rfl, h⟩
    exact splitFirst_append h r

/-- The text before and after the first occurrence of a pattern, as `find` and two `substr`
give it. -/
def splitOnce (pat : Bytes) : Bytes → Option (Bytes × Bytes)
  | [] => if pat = [] then some ([], []) else none
  | x :: xs =>
      if startsWith (x :: xs) pat then some ([], (x :: xs).drop pat.length)
      else (splitOnce pat xs).map fun lr => (x :: lr.1, lr.2)

/-- `s.find(pat) != npos`. -/
def contains (s pat : Bytes) : Bool := (splitOnce pat s).isSome

/-- The pieces that `std::getline` gives: none is left after a delimiter at the end. -/
def getlines (delimiter : UInt8) (s : Bytes) : List Bytes :=
  let parts := s.splitOn delimiter
  if parts.getLast? = some [] then parts.dropLast else parts

theorem startsWith_append_of_le (h : p.length ≤ s.length) (t : Bytes) :
    startsWith (s ++ t) p = startsWith s p := by
  rw [Bool.eq_iff_iff]
  unfold startsWith
  rw [List.isPrefixOf_iff_prefix, List.isPrefixOf_iff_prefix]
  exact ⟨fun hp => List.prefix_of_prefix_length_le hp (List.prefix_append s t) h,
    fun hp => hp.trans (List.prefix_append s t)⟩

theorem splitOnce_eq_some : ∀ {s l r : Bytes}, splitOnce pat s = some (l, r) → s = l ++ pat ++ r
  | [], l, r, h => by
    unfold splitOnce at h
    split at h
    · rename_i hp
      cases h
      simp [hp]
    · cases h
  | x :: xs, l, r, h => by
    unfold splitOnce at h
    split at h
    · rename_i hp
      cases h
      obtain ⟨t, ht⟩ := startsWith_iff.mp hp
      rw [ht]
      simp
    · obtain ⟨⟨l', r'⟩, hs, he⟩ := Option.map_eq_some_iff.mp h
      cases he
      rw [splitOnce_eq_some hs]
      simp

/-- A first occurrence stays the first when text is added behind it. -/
theorem splitOnce_append (t : Bytes) :
    ∀ {s l r : Bytes}, splitOnce pat s = some (l, r) → splitOnce pat (s ++ t) = some (l, r ++ t)
  | [], l, r, h => by
    unfold splitOnce at h
    split at h
    · rename_i hp
      cases h
      subst hp
      cases t with
      | nil => rfl
      | cons y t => simp [splitOnce, startsWith]
    · cases h
  | x :: xs, l, r, h => by
    have hlen : pat.length ≤ (x :: xs).length := by
      have := congrArg List.length (splitOnce_eq_some h)
      simp only [List.length_append] at this
      omega
    have hstart := startsWith_append_of_le hlen t
    rw [List.cons_append] at hstart ⊢
    unfold splitOnce at h ⊢
    rw [hstart]
    split at h
    · rename_i hp
      cases h
      rw [if_pos hp, ← List.cons_append, List.drop_append_of_le_length hlen]
    · rename_i hp
      obtain ⟨⟨l', r'⟩, hs, he⟩ := Option.map_eq_some_iff.mp h
      cases he
      rw [if_neg hp, splitOnce_append t hs]
      rfl

theorem splitOnce_first : ∀ {s l r : Bytes}, splitOnce pat s = some (l, r) →
      ∀ {l' r' : Bytes}, s = l' ++ pat ++ r' → l.length ≤ l'.length
  | [], l, r, h, l', r', _ => by
    unfold splitOnce at h
    split at h
    · cases h
      simp
    · cases h
  | x :: xs, l, r, h, l', r', hs => by
    unfold splitOnce at h
    split at h
    · cases h
      simp
    · rename_i hp
      obtain ⟨⟨l₁, r₁⟩, hs₁, he⟩ := Option.map_eq_some_iff.mp h
      cases he
      cases l' with
      | nil =>
        rw [List.nil_append] at hs
        exact absurd (hs ▸ startsWith_append pat r') hp
      | cons y l' =>
        have hxs : xs = l' ++ pat ++ r' := (List.cons.inj hs).2
        have := splitOnce_first hs₁ hxs
        simpa using this

theorem splitOnce_isSome_of_append : ∀ l : Bytes, (splitOnce pat (l ++ pat ++ r)).isSome = true
  | [] => by
    rw [List.nil_append]
    cases hs : pat ++ r with
    | nil =>
      obtain ⟨rfl, rfl⟩ := List.append_eq_nil_iff.mp hs
      rfl
    | cons x xs =>
      have hp : startsWith (x :: xs) pat = true := hs ▸ startsWith_append pat r
      simp [splitOnce, hp]
  | x :: l => by
    rw [List.cons_append, List.cons_append]
    unfold splitOnce
    split
    · rfl
    · simpa using splitOnce_isSome_of_append l

theorem contains_iff : contains s pat = true ↔ pat <:+: s := by
  constructor
  · intro h
    obtain ⟨⟨l, r⟩, hs⟩ := Option.isSome_iff_exists.mp h
    exact ⟨l, r, (splitOnce_eq_some hs).symm⟩
  · rintro ⟨l, r, rfl⟩
    exact splitOnce_isSome_of_append l

/-- A text that ends in the pattern is split there unless the pattern occurs before its last
byte. -/
theorem splitOnce_append_iff (hpat : pat ≠ []) :
    splitOnce pat (l ++ pat ++ r) = some (l, r) ↔ contains (l ++ pat.dropLast) pat = false := by
  have hlen : pat.dropLast.length + 1 = pat.length := by
    have := List.length_pos_of_ne_nil hpat
    rw [List.length_dropLast]
    omega
  have hprefix : l ++ pat.dropLast <+: l ++ pat ++ r := by
    rw [List.append_assoc]
    exact (List.prefix_append_right_inj l).mpr
      ((List.dropLast_prefix pat).trans (List.prefix_append pat r))
  constructor
  · intro h
    rw [Bool.eq_false_iff]
    intro hc
    obtain ⟨l₁, r₁, he⟩ := contains_iff.mp hc
    obtain ⟨t, ht⟩ := hprefix
    have hs : l ++ pat ++ r = l₁ ++ pat ++ (r₁ ++ t) := by
      rw [← ht, ← he]
      simp
    have := splitOnce_first h hs
    have := congrArg List.length he
    simp only [List.length_append] at this
    omega
  · intro h
    obtain ⟨⟨l₁, r₁⟩, hs⟩ := Option.isSome_iff_exists.mp (splitOnce_isSome_of_append (r := r) l)
    have hle := splitOnce_first hs rfl
    have he := splitOnce_eq_some hs
    rcases Nat.lt_or_ge l₁.length l.length with hlt | hge
    · -- an earlier occurrence ends before the last byte of the pattern
      have hpre : l₁ ++ pat <+: l ++ pat.dropLast := by
        refine List.prefix_of_prefix_length_le ⟨r₁, he.symm⟩ hprefix ?_
        simp only [List.length_append]
        omega
      have hc : contains (l ++ pat.dropLast) pat = true :=
        contains_iff.mpr ((List.suffix_append l₁ pat).isInfix.trans hpre.isInfix)
      rw [h] at hc
      cases hc
    · rw [List.append_assoc, List.append_assoc] at he
      obtain ⟨rfl, hr⟩ := List.append_inj he (by omega)
      rw [hs, List.append_cancel_left hr]

theorem contains_of_infix {t : Bytes} (h : contains s pat = true) (hst : s <:+: t) :
    contains t pat = true := contains_iff.mpr ((contains_iff.mp h).trans hst)

theorem contains_of_infix_pat {pat' : Bytes} (h : contains s pat = true) (hp : pat' <:+: pat) :
    contains s pat' = true :=
  contains_iff.mpr (hp.trans (contains_iff.mp h))

/-! ## Characters in the C locale -/

/-- `std::isdigit`. -/
def isDigit (b : UInt8) : Bool := 48 ≤ b && b ≤ 57

/-- `std::isspace`: space, and `\t \n \v \f \r`. -/
def isSpace (b : UInt8) : Bool := b == 32 || (9 ≤ b && b ≤ 13)

/-- `std::isalpha`. -/
def isAlpha (b : UInt8) : Bool := (65 ≤ b && b ≤ 90) || (97 ≤ b && b ≤ 122)

/-- `std::isalnum`. -/
def isAlnum (b : UInt8) : Bool := isAlpha b || isDigit b

/-- `std::ispunct`: printable, and neither a blank nor alphanumeric. -/
def isPunct (b : UInt8) : Bool := 33 ≤ b && b ≤ 126 && !isAlnum b

/-- `std::tolower`. -/
def toLowerByte (b : UInt8) : UInt8 := if 65 ≤ b && b ≤ 90 then b + 32 else b

def toLower (s : Bytes) : Bytes := s.map toLowerByte

/-- `std::toupper`. -/
def toUpperByte (b : UInt8) : UInt8 := if 97 ≤ b && b ≤ 122 then b - 32 else b

def toUpper (s : Bytes) : Bytes := s.map toUpperByte

/-! ## The lexicographic order -/

theorem compare_append_left (p s t : Bytes) : compare (p ++ s) (p ++ t) = compare s t := by
  induction p with
  | nil => rfl
  | cons a p ih =>
    show List.compareLex compare (a :: (p ++ s)) (a :: (p ++ t)) = _
    rw [List.compareLex_cons_cons, Std.compare_self]
    exact ih

theorem compare_cons_of_lt {a : UInt8} (h : a < b) (s t : Bytes) :
    compare (a :: s) (b :: t) = .lt := by
  show List.compareLex compare (a :: s) (b :: t) = .lt
  rw [List.compareLex_cons_cons, show compare a b = .lt from by
    simp [compare, compareOfLessAndEq, h]]
  rfl

theorem compare_nil_ne_gt (s : Bytes) : compare ([] : Bytes) s ≠ .gt := by
  cases s with
  | nil => decide
  | cons a s => show List.compareLex compare [] (a :: s) ≠ .gt; simp [List.compareLex_nil_cons]

theorem compare_prefix_ne_gt (p s : Bytes) : compare p (p ++ s) ≠ .gt := by
  have h := compare_append_left p [] s
  rw [List.append_nil] at h
  rw [h]
  exact compare_nil_ne_gt s

/-- **The strings with a given prefix are convex**: whatever lies between the prefix itself
and a string that carries it carries it as well. -/
theorem startsWith_of_between {k k' : Bytes} (hk' : startsWith k' p = true)
    (h₁ : compare p k ≠ .gt) (h₂ : compare k k' ≠ .gt) : startsWith k p = true := by
  obtain ⟨t, rfl⟩ := startsWith_iff.mp hk'
  clear hk'
  induction p generalizing k with
  | nil => simp [startsWith]
  | cons a p ih =>
    cases k with
    | nil =>
      exact absurd (show compare (a :: p) ([] : Bytes) = .gt from List.compareLex_cons_nil) h₁
    | cons b k =>
      change List.compareLex compare (a :: p) (b :: k) ≠ .gt at h₁
      change List.compareLex compare (b :: k) (a :: (p ++ t)) ≠ .gt at h₂
      rw [List.compareLex_cons_cons] at h₁ h₂
      have hab : a = b := by
        rcases lt_trichotomy a.toNat b.toNat with hlt | heq | hgt
        · have : compare b a = .gt := by
            simp only [compare, compareOfLessAndEq]
            rw [if_neg (by rw [UInt8.lt_iff_toNat_lt]; omega), if_neg (by rintro rfl; omega)]
          rw [this] at h₂
          exact absurd rfl h₂
        · exact UInt8.toNat_inj.mp heq
        have : compare a b = .gt := by
          simp only [compare, compareOfLessAndEq]
          rw [if_neg (by rw [UInt8.lt_iff_toNat_lt]; omega), if_neg (by rintro rfl; omega)]
        rw [this] at h₁
        exact absurd rfl h₁
      subst hab
      rw [Std.compare_self] at h₁ h₂
      have := ih h₁ h₂
      simpa [startsWith] using this

/-! ## Joined texts -/

theorem intercalate_cons_cons (sep l m : Bytes) (ls : List Bytes) :
    sep.intercalate (l :: m :: ls) = l ++ sep ++ sep.intercalate (m :: ls) := by
  simp [List.intercalate]

theorem count_intercalate (b : UInt8) :
    ∀ (l : Bytes) (ls : List Bytes), ([b].intercalate (l :: ls)).count b =
      ls.length + ((l :: ls).map (List.count b)).sum
  | l, [] => by simp [List.intercalate]
  | l, m :: ls => by
    rw [intercalate_cons_cons, List.count_append, List.count_append, count_intercalate b m ls]
    simp only [List.count_singleton_self, List.length_cons, List.map_cons, List.sum_cons]
    omega

/-- Texts without the separator can be read back from what they are joined to. -/
theorem intercalate_inj : ∀ {l l' : Bytes} {ls ls' : List Bytes},
    (∀ m ∈ l :: ls, b ∉ m) → (∀ m ∈ l' :: ls', b ∉ m) →
    [b].intercalate (l :: ls) = [b].intercalate (l' :: ls') → l :: ls = l' :: ls'
  | l, l', [], [], _, _, h => by simpa [List.intercalate] using h
  | l, l', [], m' :: ls', hl, _, h => by
    rw [intercalate_cons_cons] at h
    have hmem : b ∈ [b].intercalate [l] := by rw [h]; simp
    exact absurd (by simpa [List.intercalate] using hmem) (hl l (by simp))
  | l, l', m :: ls, [], _, hl', h => by
    rw [intercalate_cons_cons] at h
    have hmem : b ∈ [b].intercalate [l'] := by rw [← h]; simp
    exact absurd (by simpa [List.intercalate] using hmem) (hl' l' (by simp))
  | l, l', m :: ls, m' :: ls', hl, hl', h => by
    rw [intercalate_cons_cons, intercalate_cons_cons, List.append_assoc, List.append_assoc] at h
    obtain ⟨rfl, hrest⟩ := append_cons_inj (hl l (by simp)) (hl' l' (by simp)) h
    have ih := intercalate_inj (fun x hx => hl x (List.mem_cons_of_mem _ hx))
      (fun x hx => hl' x (List.mem_cons_of_mem _ hx)) hrest
    rw [ih]

/-- Of two joined texts with as many parts, it is enough that one has parts without the
separator. -/
theorem intercalate_inj_of_length {l' : Bytes} {ls ls' : List Bytes} (hl : ∀ m ∈ l :: ls, b ∉ m)
    (hlength : ls'.length = ls.length)
    (h : [b].intercalate (l' :: ls') = [b].intercalate (l :: ls)) : l' :: ls' = l :: ls := by
  have hcount := congrArg (List.count b) h
  rw [count_intercalate, count_intercalate, hlength, Nat.add_left_cancel_iff,
    show ((l :: ls).map (List.count b)).sum = 0 from
      List.sum_eq_zero_iff.mpr fun n hn => by
        obtain ⟨m, hm, rfl⟩ := List.mem_map.mp hn
        exact List.count_eq_zero.mpr (hl m hm)] at hcount
  refine intercalate_inj (fun m hm => ?_) hl h
  exact List.count_eq_zero.mp (List.sum_eq_zero_iff.mp hcount _ (List.mem_map_of_mem hm))

/-- A byte that is in every part is in the joined text as often as there are parts. -/
theorem length_le_count_intercalate {c : UInt8} (sep : Bytes) :
    ∀ {ls : List Bytes}, (∀ l ∈ ls, c ∈ l) → ls.length ≤ (sep.intercalate ls).count c
  | [], _ => Nat.zero_le _
  | [l], h => by
    have := List.count_pos_iff.mpr (h l (by simp))
    simpa [List.intercalate] using this
  | l :: m :: ls, h => by
    have hl := List.count_pos_iff.mpr (h l (by simp))
    have ih := length_le_count_intercalate sep
      (fun x hx => h x (List.mem_cons_of_mem l hx) : ∀ x ∈ m :: ls, c ∈ x)
    rw [intercalate_cons_cons, List.count_append, List.count_append]
    simp only [List.length_cons] at ih ⊢
    omega

end Bytes

end Hlquery
