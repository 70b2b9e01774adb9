import Hlquery.Index.MappedFormat

/-!
# The optimized posting decoder

`DecodePostingsOptimized` takes a distance of one byte without a loop, and its loop for longer ones stops
before the fifth byte, which it reads outside. **It reads every text as `DecodePostings` does**
(`decodePostingsOptimized_eq`), also where a distance is cut off or goes on after five bytes.
-/

set_option autoImplicit false

namespace Hlquery.Index

open Bytes Wire

/-- The bytes with the continuation bit, while the shift is below 28: shift, value and what is left. -/
def readContinued (shift value : Nat) : Bytes → Nat × Nat × Bytes
  | [] => (shift, value, [])
  | b :: s =>
      if 0x80 ≤ b.toNat ∧ shift < 28 then
        readContinued (shift + 7) ((value ||| ((b.toNat % 128) <<< shift)) % 2 ^ 32) s
      else (shift, value, b :: s)

/-- The byte behind those. -/
def readLast : Nat × Nat × Bytes → Nat × Bytes
  | (_, value, []) => (value, [])
  | (shift, value, b :: s) =>
      if shift < 32 then ((value ||| ((b.toNat % 128) <<< shift)) % 2 ^ 32, s) else (value, b :: s)

def readVarintOptimized : Bytes → Nat × Bytes
  | [] => (0, [])
  | b :: s => if b.toNat < 0x80 then (b.toNat, s) else readLast (readContinued 0 0 (b :: s))

section

variable {S : Type} (single : SinglePrecision S)

def decodeEntriesOptimized : Nat → Nat → Bytes → List (Posting S)
  | 0, _, _ => []
  | docs + 1, prevDocHash, s =>
      if s = [] then []
      else
        let (deltaValue, s) := readVarintOptimized s
        let docHash := if prevDocHash = 0 then deltaValue else (prevDocHash + deltaValue) % 2 ^ 32
        match readLe 4 s with
        | none => []
        | some (scoreValue, s) =>
            match readLe 2 s with
            | none => []
            | some (docIdLen, s) =>
                if s.length < docIdLen then []
                else
                  { documentId := s.take docIdLen, collection := []
                    score := single.ofFloat (UInt32.ofNat scoreValue), positions := [] } ::
                  decodeEntriesOptimized docs docHash (s.drop docIdLen)

def decodePostingsOptimized (data : Bytes) : List (Posting S) :=
  match readLe 4 data with
  | none => []
  | some (docCount, s) => decodeEntriesOptimized single docCount 0 s

end

/-- The two loops in step: `left` bytes are left before the fifth. -/
theorem readLast_readContinued (s : Bytes) : ∀ {left shift value : Nat}, shift + 7 * left = 28 →
    readLast (readContinued shift value s) = readVarint shift value s := by
  induction s with
  | nil => intros; rfl
  | cons b s ih =>
    intro left shift value hshift
    unfold readContinued readVarint
    by_cases hmore : 0x80 ≤ b.toNat ∧ shift < 28
    · obtain ⟨left, rfl⟩ : ∃ n, left = n + 1 := ⟨left - 1, by omega⟩
      rw [if_pos hmore, ih (show shift + 7 + 7 * left = 28 by omega)]
      simp only [if_neg (show ¬ b.toNat < 0x80 by omega), if_neg (show ¬ 32 ≤ shift + 7 by omega)]
    · rw [if_neg hmore, readLast, if_pos (by omega)]
      -- the byte is the last, or it is the fifth
      by_cases hlast : b.toNat < 0x80
      · simp only [if_pos hlast]
      · simp only [if_neg hlast, if_pos (show 32 ≤ shift + 7 by omega)]

theorem readVarintOptimized_eq (s : Bytes) : readVarintOptimized s = readVarint 0 0 s := by
  cases s with
  | nil => rfl
  | cons b s =>
    rw [readVarintOptimized]
    split
    · rename_i hb
      simp [readVarint, hb, Nat.mod_eq_of_lt hb]
    · exact readLast_readContinued (b :: s) (show 0 + 7 * 4 = 28 from rfl)

/-- **The two decoders read the same postings.** -/
theorem decodePostingsOptimized_eq {S : Type} (single : SinglePrecision S) (data : Bytes) :
    decodePostingsOptimized single data = decodePostings single data := by
  have hentries : ∀ docs prevDocHash s, decodeEntriesOptimized single docs prevDocHash s =
      decodeEntries single docs prevDocHash s := by
    intro docs
    induction docs with
    | zero => intros; rfl
    | succ docs ih =>
      intro prevDocHash s
      simp only [decodeEntriesOptimized, decodeEntries, readVarintOptimized_eq, ih] <;> rfl
  simp only [decodePostingsOptimized, decodePostings, hentries] <;> rfl

end Hlquery.Index
