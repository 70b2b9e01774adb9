import Hlquery.Lib.Bytes

/-!
# Numbers in a buffer

A scalar that is copied into a buffer with `memcpy` becomes as many bytes as its type has, least
significant byte first on the machines this is compiled for. `le w n` is that image, and `readLe`
is the bounds-checked copy back. A 32-bit value can also be written in groups of seven bits with a
continuation bit; `varint` is the writer's loop and `readVarint` the reader's, which stops at 32
bits so that a malformed buffer cannot shift for ever.

The round trips are stated with whatever follows in the buffer, since a reader always reads from
the middle of a longer one. A text is written behind its length, and a reader may refuse a length
that it finds too large; a list is written behind its number of elements.
-/

set_option autoImplicit false

namespace Hlquery.Wire

/-! ## Fixed width -/

/-- The image of a value of `w` bytes; a larger value is truncated. -/
def le : Nat → Nat → Bytes
  | 0, _ => []
  | w + 1, n => (n % 256).toUInt8 :: le w (n / 256)

def leValue : Bytes → Nat
  | [] => 0
  | b :: s => b.toNat + 256 * leValue s

@[simp] theorem length_le (w n : Nat) : (le w n).length = w := by
  induction w generalizing n with
  | zero => rfl
  | succ w ih => rw [le, List.length_cons, ih]

theorem leValue_le (w n : Nat) : leValue (le w n) = n % 256 ^ w := by
  induction w generalizing n with
  | zero => simp [le, leValue, Nat.mod_one]
  | succ w ih =>
    have hb : ((n % 256).toUInt8).toNat = n % 256 := by simp
    rw [le, leValue, ih, hb, pow_succ', Nat.mod_mul]

/-- `ReadValue`: the value at the head of the buffer and what follows, if there is room for it. -/
def readLe (w : Nat) (s : Bytes) : Option (Nat × Bytes) :=
  if w ≤ s.length then some (leValue (s.take w), s.drop w) else none

theorem readLe_append {w n : Nat} (h : n < 256 ^ w) (s : Bytes) :
    readLe w (le w n ++ s) = some (n, s) := by
  unfold readLe
  rw [if_pos (by simp), List.take_left' (length_le w n), List.drop_left' (length_le w n),
    leValue_le, Nat.mod_eq_of_lt h]

/-! ## Texts and lists -/

/-- A text behind its 32-bit length. Of a text whose length does not fit, as many bytes are written
as the truncated length says. -/
def text (s : Bytes) : Bytes := le 4 s.length ++ s.take (s.length % 256 ^ 4)

/-- A text of at most `max` bytes, and what follows. -/
def readText (max : Nat) (s : Bytes) : Option (Bytes × Bytes) :=
  match readLe 4 s with
  | none => none
  | some (len, s) =>
      if max < len then none
      else if len ≤ s.length then some (s.take len, s.drop len) else none

theorem text_eq {s : Bytes} (h : s.length < 256 ^ 4) : text s = le 4 s.length ++ s := by
  unfold text
  rw [Nat.mod_eq_of_lt h, List.take_length]

theorem length_text {s : Bytes} (h : s.length < 256 ^ 4) : (text s).length = 4 + s.length := by
  rw [text_eq h, List.length_append, length_le]

theorem readText_append {max : Nat} {s : Bytes} (h : s.length ≤ max) (hmax : max < 256 ^ 4)
    (rest : Bytes) : readText max (text s ++ rest) = some (s, rest) := by
  have hlt : s.length < 256 ^ 4 := Nat.lt_of_le_of_lt h hmax
  unfold readText
  rw [text_eq hlt, List.append_assoc, readLe_append hlt]
  simp only [Nat.not_lt.mpr h, if_false, List.length_append, Nat.le_add_right, if_true,
    List.take_left, List.drop_left]

theorem length_le_of_readText {max : Nat} {s t rest : Bytes}
    (h : readText max s = some (t, rest)) : t.length ≤ max := by
  unfold readText at h
  split at h
  · cases h
  split at h
  · cases h
  split at h
  · rw [← (Prod.mk.inj (Option.some.inj h)).1, List.length_take]
    omega
  · cases h

/-- `n` elements, one after the other. -/
def readMany {α : Type} (read : Bytes → Option (α × Bytes)) : Nat → Bytes → Option (List α × Bytes)
  | 0, s => some ([], s)
  | n + 1, s =>
      match read s with
      | none => none
      | some (a, s) =>
          match readMany read n s with
          | none => none
          | some (l, s) => some (a :: l, s)

theorem readMany_flatMap {α : Type} {read : Bytes → Option (α × Bytes)} {write : α → Bytes}
    (rest : Bytes) : ∀ {l : List α}, (∀ a ∈ l, ∀ s, read (write a ++ s) = some (a, s)) →
      readMany read l.length (l.flatMap write ++ rest) = some (l, rest)
  | [], _ => rfl
  | a :: l, h => by
    have ih := readMany_flatMap rest fun b hb => h b (List.mem_cons_of_mem a hb)
    rw [List.flatMap_cons, List.append_assoc, List.length_cons, readMany, h a (by simp)]
    simp [ih]

/-- What `n` readings give: a list of that length, of elements that were read. -/
theorem readMany_spec {α : Type} {read : Bytes → Option (α × Bytes)} :
    ∀ {n : Nat} {s rest : Bytes} {l : List α}, readMany read n s = some (l, rest) →
      l.length = n ∧ ∀ a ∈ l, ∃ s rest, read s = some (a, rest)
  | 0, s, rest, l, h => by
    cases h
    exact ⟨rfl, by simp⟩
  | n + 1, s, rest, l, h => by
    unfold readMany at h
    split at h
    · cases h
    rename_i a s₁ hread
    split at h
    · cases h
    rename_i l₁ s₂ hmany
    cases h
    obtain ⟨hlen, hmem⟩ := readMany_spec hmany
    refine ⟨by rw [List.length_cons, hlen], fun b hb => ?_⟩
    rcases List.mem_cons.mp hb with rfl | hb
    · exact ⟨s, s₁, hread⟩
    · exact hmem b hb

/-! ## Seven bits at a time -/

/-- The writer: while more than seven bits are left, the low seven with the continuation bit set.
`more` bounds the number of such bytes; a 32-bit value has at most four. -/
def varint : Nat → Nat → Bytes
  | 0, n => [n.toUInt8]
  | more + 1, n =>
      if 0x80 ≤ n then (n % 128 + 128).toUInt8 :: varint more (n / 128) else [n.toUInt8]

/-- The reader: bytes with the continuation bit are collected while the shift is below 32, and the
byte after them is the last. -/
def readVarint (shift value : Nat) : Bytes → Nat × Bytes
  | [] => (value, [])
  | b :: s =>
      let value := (value ||| ((b.toNat % 128) <<< shift)) % 2 ^ 32
      if b.toNat < 0x80 then (value, s)
      else if 32 ≤ shift + 7 then (value, s)
      else readVarint (shift + 7) value s

theorem varint_ne_nil (more n : Nat) : varint more n ≠ [] := by
  cases more with
  | zero => simp [varint]
  | succ more => unfold varint; split <;> simp

/-- Collecting a group of bits above the bits already there adds it at its place. -/
theorem or_group {value bits shift : Nat} (hv : value < 2 ^ shift)
    (hb : value + bits * 2 ^ shift < 2 ^ 32) :
    (value ||| (bits <<< shift)) % 2 ^ 32 = value + bits * 2 ^ shift := by
  have hor : value ||| (bits <<< shift) = value + bits * 2 ^ shift := by
    rw [Nat.or_comm, ← Nat.shiftLeft_add_eq_or_of_lt hv, Nat.shiftLeft_eq, Nat.add_comm]
  rw [hor, Nat.mod_eq_of_lt hb]

/-- **The reader undoes the writer**, from any shift at which the value still fits. -/
theorem readVarint_varint (s : Bytes) :
    ∀ {more n shift value : Nat}, n < 128 ^ (more + 1) → value < 2 ^ shift →
      value + n * 2 ^ shift < 2 ^ 32 → shift + 7 * more < 32 →
      readVarint shift value (varint more n ++ s) = (value + n * 2 ^ shift, s)
  | 0, n, shift, value, hn, hv, hfit, _ => by
    have hb : (n.toUInt8).toNat = n := by simp; omega
    have hmod : n % 128 = n := Nat.mod_eq_of_lt (by omega)
    simp only [varint, List.cons_append, List.nil_append, readVarint, hb, hmod, or_group hv hfit]
    rw [if_pos (by omega)]
  | more + 1, n, shift, value, hn, hv, hfit, hs => by
    by_cases hbig : 0x80 ≤ n
    · have hb : ((n % 128 + 128).toUInt8).toNat = n % 128 + 128 := by simp; omega
      have hsplit : n % 128 + 128 * (n / 128) = n := Nat.mod_add_div n 128
      have hpow : 2 ^ (shift + 7) = 2 ^ shift * 128 := by rw [Nat.pow_add]
      -- what is collected after this byte, and what is left to collect
      have hsum : value + n % 128 * 2 ^ shift + n / 128 * 2 ^ (shift + 7) =
          value + n * 2 ^ shift := by
        calc value + n % 128 * 2 ^ shift + n / 128 * 2 ^ (shift + 7)
            = value + (n % 128 + 128 * (n / 128)) * 2 ^ shift := by rw [hpow]; ring
          _ = value + n * 2 ^ shift := by rw [hsplit]
      have hlow : value + n % 128 * 2 ^ shift < 2 ^ (shift + 7) := by
        have : n % 128 * 2 ^ shift ≤ 127 * 2 ^ shift :=
          Nat.mul_le_mul_right _ (by omega)
        rw [hpow]
        omega
      have hgroup := or_group hv (show value + n % 128 * 2 ^ shift < 2 ^ 32 by omega)
      rw [varint, if_pos hbig, List.cons_append, readVarint]
      simp only [hb, Nat.add_mod_right, Nat.mod_mod, hgroup]
      rw [if_neg (by omega), if_neg (by omega),
        readVarint_varint s (by rw [pow_succ] at hn; omega) hlow (by omega) (by omega), hsum]
    · have hb : (n.toUInt8).toNat = n := by simp; omega
      have hmod : n % 128 = n := Nat.mod_eq_of_lt (by omega)
      rw [varint, if_neg hbig, List.cons_append, List.nil_append, readVarint]
      simp only [hb, hmod, or_group hv hfit]
      rw [if_pos (by omega)]

end Hlquery.Wire
