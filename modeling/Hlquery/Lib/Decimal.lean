import Hlquery.Lib.Bytes

/-!
# Decimal numbers in byte strings

`std::to_string` of an unsigned number and `std::stoull`, the reader that undoes it. The reader
is the C library's: it skips leading white space, takes an optional sign and stops at the first
byte that is not a digit; no digits at all, or a magnitude above `2^64 - 1`, is an exception
(`none` here).
-/

set_option autoImplicit false

namespace Hlquery

/-- `std::to_string` of an unsigned number. -/
def decimal (n : Nat) : Bytes := (Nat.toDigits 10 n).map fun c => c.toNat.toUInt8

namespace Bytes

def digitsValue (ds : Bytes) : Nat := ds.foldl (fun acc b => 10 * acc + (b.toNat - 48)) 0

def splitSign : Bytes → Bool × Bytes
  | 43 :: r => (false, r)
  | 45 :: r => (true, r)
  | r => (false, r)

/-- `std::stoull`; `none` is the exception. -/
def stoull (s : Bytes) : Option UInt64 :=
  let (negative, u) := splitSign (s.dropWhile isSpace)
  let ds := u.takeWhile isDigit
  if ds.isEmpty then none
  else if 2 ^ 64 ≤ digitsValue ds then none
  else some (if negative then 0 - (digitsValue ds).toUInt64 else (digitsValue ds).toUInt64)

end Bytes

open Bytes

/-! ## Reading back what was written -/

theorem toNat_of_mem_toDigits {n : Nat} {c : Char} (h : c ∈ Nat.toDigits 10 n) :
    48 ≤ c.toNat ∧ c.toNat ≤ 57 := by
  have hd := Nat.isDigit_of_mem_toDigits (by decide) (by decide) h
  simp only [Char.isDigit, Bool.and_eq_true, decide_eq_true_eq, UInt32.le_iff_toNat_le] at hd
  exact hd

theorem toNat_toUInt8_of_lt {n : Nat} (h : n < 256) : n.toUInt8.toNat = n := by
  exact Nat.mod_eq_of_lt h

theorem isDigit_of_mem_decimal {n : Nat} {b : UInt8} (h : b ∈ decimal n) : isDigit b = true := by
  obtain ⟨c, hc, rfl⟩ := List.mem_map.mp h
  have hd := toNat_of_mem_toDigits hc
  simp only [isDigit, Bool.and_eq_true, decide_eq_true_eq, UInt8.le_iff_toNat_le,
    toNat_toUInt8_of_lt (show c.toNat < 256 by omega)]
  exact hd

theorem decimal_ne_nil (n : Nat) : decimal n ≠ [] := by
  unfold decimal
  simp [Nat.toDigits_ne_nil]

/-- The value of the digits is the number they were written from. -/
theorem digitsValue_decimal (n : Nat) : digitsValue (decimal n) = n := by
  have key : ∀ (cs : List Char) (acc : Nat), (∀ c ∈ cs, c.toNat < 256) →
      (cs.map fun c => c.toNat.toUInt8).foldl (fun a b => 10 * a + (b.toNat - 48)) acc
        = Nat.ofDigitChars 10 cs acc := by
    intro cs
    induction cs with
    | nil => intro acc _; rfl
    | cons c cs ih =>
      intro acc hcs
      rw [List.map_cons, List.foldl_cons, Nat.ofDigitChars_cons,
        toNat_toUInt8_of_lt (hcs c (List.mem_cons_self ..))]
      exact ih _ fun c' hc' => hcs c' (List.mem_cons_of_mem _ hc')
  unfold digitsValue decimal
  rw [key, Nat.ofDigitChars_ten_toDigits]
  intro c hc
  have hd := toNat_of_mem_toDigits hc
  omega

theorem digitsValue_replicate_zero_append (k : Nat) (ds : Bytes) :
    digitsValue (List.replicate k 48 ++ ds) = digitsValue ds := by
  unfold digitsValue
  rw [List.foldl_append]
  induction k with
  | zero => rfl
  | succ k ih => simpa [List.replicate_succ] using ih

theorem splitSign_of_digits {ds : Bytes} (hd : ∀ b ∈ ds, isDigit b = true) :
    splitSign (ds.dropWhile isSpace) = (false, ds) := by
  cases ds with
  | nil => rfl
  | cons d ds =>
    have hd0 := hd d (List.mem_cons_self ..)
    simp only [isDigit, Bool.and_eq_true, decide_eq_true_eq, UInt8.le_iff_toNat_le] at hd0
    have h48 : (48 : UInt8).toNat = 48 := rfl
    have hsp : isSpace d = false := by
      have h32 : d ≠ 32 := by rintro rfl; exact absurd hd0.1 (by decide)
      have h13 : ¬ d ≤ 13 := by
        rw [UInt8.le_iff_toNat_le]
        have : (13 : UInt8).toNat = 13 := rfl
        omega
      simp [isSpace, h32, h13]
    have h43 : d ≠ 43 := by rintro rfl; exact absurd hd0.1 (by decide)
    have h45 : d ≠ 45 := by rintro rfl; exact absurd hd0.1 (by decide)
    rw [List.dropWhile_cons_of_neg (by simp [hsp])]
    unfold splitSign
    split
    · rename_i heq; exact absurd (List.cons.inj heq).1 h43
    · rename_i heq; exact absurd (List.cons.inj heq).1 h45
    · rfl

/-- A non-empty run of digits that fits in 64 bits is read back whole. -/
theorem stoull_of_digits {ds : Bytes} (hne : ds ≠ []) (hd : ∀ b ∈ ds, isDigit b = true)
    (hlt : digitsValue ds < 2 ^ 64) : stoull ds = some (digitsValue ds).toUInt64 := by
  have htake : ds.takeWhile isDigit = ds := List.takeWhile_eq_self_iff.mpr hd
  have hempty : ds.isEmpty = false := by simpa using hne
  unfold stoull
  rw [splitSign_of_digits hd]
  simp only [htake, hempty, Bool.false_eq_true, if_false]
  rw [if_neg (by omega)]

end Hlquery
