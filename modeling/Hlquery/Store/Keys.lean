import Hlquery.Lib.ByteMap
import Hlquery.Lib.Decimal

/-!
# Keys and records of the segmented document store

A document lives under the key `doc:<collection>:<id>`, where the collection is what stands
before the first colon. Beside the segments there is one *system* database, which holds for each
document at most one location record, `__hlq_docloc:<collection>:<id>`, and at most one tombstone,
`__hlq_tombstone:<collection>:<id>`; a third, fixed key holds the manifest generation. The value
of a location record is `<segment id>:<milliseconds>`.

The functions are those of `segmented_document_router.cpp`, with the same names. `DocKey` is the
type of the keys that `ParseDocKey` accepts: the three conditions that it tests are fields, so
that the refinement proof never has to carry them.
-/

set_option autoImplicit false

namespace Hlquery.Store

open Hlquery.Bytes

def docLocationPrefix : Bytes := lit "__hlq_docloc:"
def tombstonePrefix : Bytes := lit "__hlq_tombstone:"
def manifestGenerationKey : Bytes := lit "__hlq_segment_manifest_generation"

/-- `ParseDocKey`: the collection and the document id of a document key. -/
def parseDocKey (key : Bytes) : Option (Bytes × Bytes) :=
  match stripPrefix (lit "doc:") key with
  | none => none
  | some rest =>
    match splitFirst 58 rest with
    | none => none
    | some (collection, docId) =>
      if collection = [] ∨ docId = [] then none else some (collection, docId)

/-- `DocLocationKey`. -/
def docLocationKey (collection docId : Bytes) : Bytes :=
  docLocationPrefix ++ (collection ++ 58 :: docId)

/-- `TombstoneKey`. -/
def tombstoneKey (collection docId : Bytes) : Bytes :=
  tombstonePrefix ++ (collection ++ 58 :: docId)

/-- `DocKeyFromLocationKey`; the empty string when it is not a location key. -/
def docKeyFromLocationKey (locKey : Bytes) : Bytes :=
  match stripPrefix docLocationPrefix locKey with
  | none => []
  | some rest => lit "doc:" ++ rest

/-- `LocationPrefixFromDocPrefix`; the empty string when it is not a document prefix. -/
def locationPrefixFromDocPrefix (docPrefix : Bytes) : Bytes :=
  match stripPrefix (lit "doc:") docPrefix with
  | none => []
  | some rest => docLocationPrefix ++ rest

def locationRecord (segmentId : Bytes) (timestampMs : UInt64) : Bytes :=
  segmentId ++ 58 :: decimal timestampMs.toNat

/-- The segment id of a location record: what stands before the first colon, or all of it. -/
def segmentIdOfRecord (docloc : Bytes) : Bytes :=
  match splitFirst 58 docloc with
  | none => docloc
  | some (segmentId, _) => segmentId

/-- `FormatSegmentId`: `seg_` and the number, zero-padded to twelve places. -/
def formatSegmentId (value : UInt64) : Bytes :=
  let digits := decimal value.toNat
  lit "seg_" ++ (List.replicate (12 - digits.length) 48 ++ digits)

/-- `SegmentOrdinal`. -/
def segmentOrdinal (segmentId : Bytes) : UInt64 :=
  match stripPrefix (lit "seg_") segmentId with
  | none => 0
  | some rest => (stoull rest).getD 0

/-! ## Segment ids -/

theorem isDigit_ne_colon {b : UInt8} (h : isDigit b = true) : b ≠ 58 := by
  rintro rfl
  exact absurd h (by decide)

theorem isDigit_of_mem_padding {k n : Nat} {b : UInt8}
    (h : b ∈ List.replicate k 48 ++ decimal n) : isDigit b = true := by
  rcases List.mem_append.mp h with h | h
  · rw [(List.mem_replicate.mp h).2]; decide
  · exact isDigit_of_mem_decimal h

theorem colon_not_mem_formatSegmentId (value : UInt64) : 58 ∉ formatSegmentId value := by
  intro h
  rcases List.mem_append.mp h with h | h
  · exact absurd h (by decide)
  · exact isDigit_ne_colon (isDigit_of_mem_padding h) rfl

theorem segmentOrdinal_formatSegmentId (value : UInt64) :
    segmentOrdinal (formatSegmentId value) = value := by
  have hval : ∀ k, digitsValue (List.replicate k 48 ++ decimal value.toNat) = value.toNat :=
    fun k => by rw [digitsValue_replicate_zero_append, digitsValue_decimal]
  unfold segmentOrdinal formatSegmentId
  simp only [stripPrefix_eq_some.mpr rfl]
  rw [stoull_of_digits (by simp [decimal_ne_nil]) (fun b => isDigit_of_mem_padding)
    (by rw [hval]; exact value.toNat_lt), hval]
  simp

theorem formatSegmentId_injective : Function.Injective formatSegmentId := fun a b h => by
  rw [← segmentOrdinal_formatSegmentId a, h, segmentOrdinal_formatSegmentId]

theorem segmentIdOfRecord_locationRecord {segmentId : Bytes} (h : 58 ∉ segmentId)
    (timestampMs : UInt64) :
    segmentIdOfRecord (locationRecord segmentId timestampMs) = segmentId := by
  unfold segmentIdOfRecord locationRecord
  rw [splitFirst_append h]

/-! ## The keys that are accepted -/

/-- A document key that `ParseDocKey` accepts. -/
@[ext] structure DocKey where
  collection : Bytes
  docId : Bytes
  collection_ne_nil : collection ≠ []
  colon_not_mem : 58 ∉ collection
  docId_ne_nil : docId ≠ []
  deriving DecidableEq

namespace DocKey

/-- What stands after `doc:`, and after the prefix of the two records. -/
def rest (k : DocKey) : Bytes := k.collection ++ 58 :: k.docId

def toBytes (k : DocKey) : Bytes := lit "doc:" ++ k.rest

theorem rest_injective : Function.Injective rest := fun a b h => by
  have hs : splitFirst 58 a.rest = splitFirst 58 b.rest := by rw [h]
  unfold rest at hs
  rw [splitFirst_append a.colon_not_mem, splitFirst_append b.colon_not_mem] at hs
  obtain ⟨h₁, h₂⟩ := Prod.mk.inj (Option.some.inj hs)
  exact DocKey.ext h₁ h₂

@[simp] theorem rest_inj {a b : DocKey} : a.rest = b.rest ↔ a = b := rest_injective.eq_iff

@[simp] theorem toBytes_inj {a b : DocKey} : a.toBytes = b.toBytes ↔ a = b := by
  unfold toBytes
  rw [List.append_right_inj, rest_inj]

end DocKey

theorem parseDocKey_toBytes (k : DocKey) :
    parseDocKey k.toBytes = some (k.collection, k.docId) := by
  unfold parseDocKey
  simp only [stripPrefix_eq_some.mpr (show k.toBytes = lit "doc:" ++ k.rest from rfl),
    DocKey.rest, splitFirst_append k.colon_not_mem]
  rw [if_neg (by simp [k.collection_ne_nil, k.docId_ne_nil])]

/-- **`ParseDocKey` accepts exactly the document keys.** -/
theorem parseDocKey_eq_some {key collection docId : Bytes}
    (h : parseDocKey key = some (collection, docId)) :
    ∃ k : DocKey, k.collection = collection ∧ k.docId = docId ∧ key = k.toBytes := by
  unfold parseDocKey at h
  cases hs : stripPrefix (lit "doc:") key with
  | none => rw [hs] at h; cases h
  | some rest =>
    cases hf : splitFirst 58 rest with
    | none => simp [hs, hf] at h
    | some cd =>
      obtain ⟨c, d⟩ := cd
      simp only [hs, hf] at h
      split at h
      · cases h
      rename_i hne
      obtain ⟨rfl, rfl⟩ := Prod.mk.inj (Option.some.inj h)
      obtain ⟨rfl, hc⟩ := splitFirst_eq_some.mp hf
      exact ⟨⟨c, d, fun e => hne (.inl e), hc, fun e => hne (.inr e)⟩, rfl, rfl,
        stripPrefix_eq_some.mp hs⟩

theorem parseDocKey_isSome_iff {key : Bytes} :
    (parseDocKey key).isSome = true ↔ ∃ k : DocKey, key = k.toBytes := by
  constructor
  · intro h
    obtain ⟨⟨c, d⟩, hcd⟩ := Option.isSome_iff_exists.mp h
    obtain ⟨k, -, -, hk⟩ := parseDocKey_eq_some hcd
    exact ⟨k, hk⟩
  · rintro ⟨k, rfl⟩
    rw [parseDocKey_toBytes]; rfl

/-! ## The regions of the system database -/

theorem docLocationKey_eq (k : DocKey) :
    docLocationKey k.collection k.docId = docLocationPrefix ++ k.rest := rfl

theorem tombstoneKey_eq (k : DocKey) :
    tombstoneKey k.collection k.docId = tombstonePrefix ++ k.rest := rfl

theorem location_ne_tombstone (s t : Bytes) : docLocationPrefix ++ s ≠ tombstonePrefix ++ t := by
  simp [docLocationPrefix, tombstonePrefix, lit]

theorem location_ne_generation (s : Bytes) : docLocationPrefix ++ s ≠ manifestGenerationKey := by
  simp [docLocationPrefix, manifestGenerationKey, lit]

theorem tombstone_ne_generation (s : Bytes) : tombstonePrefix ++ s ≠ manifestGenerationKey := by
  simp [tombstonePrefix, manifestGenerationKey, lit]

theorem docKeyFromLocationKey_append (rest : Bytes) :
    docKeyFromLocationKey (docLocationPrefix ++ rest) = lit "doc:" ++ rest := by
  unfold docKeyFromLocationKey
  rw [stripPrefix_eq_some.mpr rfl]

/-- A key that is recovered from a location key and accepted has the same tail. -/
theorem docKeyFromLocationKey_of_parse {locKey : Bytes}
    (h : (parseDocKey (docKeyFromLocationKey locKey)).isSome = true) :
    ∃ s, locKey = docLocationPrefix ++ s ∧ docKeyFromLocationKey locKey = lit "doc:" ++ s := by
  cases hs : stripPrefix docLocationPrefix locKey with
  | none =>
    have hnil : docKeyFromLocationKey locKey = [] := by simp [docKeyFromLocationKey, hs]
    rw [hnil] at h
    exact absurd h (by decide)
  | some s =>
    obtain rfl := stripPrefix_eq_some.mp hs
    exact ⟨s, rfl, docKeyFromLocationKey_append s⟩

theorem locationPrefixFromDocPrefix_append (rest : Bytes) :
    locationPrefixFromDocPrefix (lit "doc:" ++ rest) = docLocationPrefix ++ rest := by
  unfold locationPrefixFromDocPrefix
  rw [stripPrefix_eq_some.mpr rfl]

end Hlquery.Store
