import Hlquery.Store.Segments

/-!
# The document operations of the segment manager

The calls that the storage engine makes: `SetDocument`, `BatchSetDocuments`, `GetDocument`,
`DeleteDocument`, `DeleteDocumentRange`, `ClearAllDocuments` and `PrefixKeys`, translated from
`segmented_document_router.cpp`. Reads of a database cannot fail here; writes can, and where the
source looks at the status so does the model (`DeleteDocument` is the one call that does not look
at the status of the write to the active segment).

The two writers run the same loop — reserve room in the active segment, or rotate and try again —
on one document and on a batch; it is `writeDocuments` for both. The loop is given two rounds, and
`writeDocuments_eq` says that it never needs a third.
-/

set_option autoImplicit false

namespace Hlquery.Store.SegmentManager

open Hlquery.Bytes

/-! ## Writing -/

def documentBytes (keyValues : List (Bytes × Bytes)) : UInt64 :=
  keyValues.foldl (fun bytes kv => bytes + (kv.1.length + kv.2.length).toUInt64) 0

variable (m : SegmentManager)

def reserve (documents bytes : UInt64) : SegmentManager :=
  { m with
    activeReservedDocuments := m.activeReservedDocuments + documents
    activeReservedBytes := m.activeReservedBytes + bytes }

def unreserve (documents bytes : UInt64) : SegmentManager :=
  { m with
    activeReservedDocuments := m.activeReservedDocuments - documents
    activeReservedBytes := m.activeReservedBytes - bytes }

def countWritten (active : Bytes) (documents bytes : UInt64) :
    SegmentManager :=
  let md := m.metadata active
  { m.setMetadata active { md with
      docCountEstimate := md.docCountEstimate + documents
      bytesEstimate := md.bytesEstimate + bytes } with
    activeMetadataDirtyDocuments := m.activeMetadataDirtyDocuments + documents
    activeMetadataDirtyBytes := m.activeMetadataDirtyBytes + bytes }

/-- The batch of `PutDocLocation`: the record is written and the tombstone lifted. -/
def locationUpdates (segmentId : Bytes) (timestampMs : UInt64) (key : Bytes) :
    List ByteMap.Update :=
  let (collection, docId) := (parseDocKey key).getD ([], [])
  [.put (docLocationKey collection docId) (locationRecord segmentId timestampMs),
    .delete (tombstoneKey collection docId)]

/-- `SystemDB->Write`. -/
def writeSystem (batch : List ByteMap.Update) : SegmentManager :=
  { m with systemDB := m.systemDB.write batch }

def writeToActive (env : Env) (keyValues : List (Bytes × Bytes)) (documents bytes : UInt64)
    (m : SegmentManager) (active : Bytes) : Bool × SegmentManager :=
  andThenOr (attempt env m fun m => m.setDatabase active
      ((m.database active).write (keyValues.map fun kv => .put kv.1 kv.2)))
    (fun m => m.unreserve documents bytes) fun m =>
  let (timestampMs, m) := readClock env m
  andThenOr (attempt env m fun m => m.writeSystem
      (keyValues.flatMap fun kv => locationUpdates active timestampMs kv.1))
    (fun m => m.unreserve documents bytes) fun m =>
  let m := (m.unreserve documents bytes).countWritten active documents bytes
  andThen (persistActiveMetadataIfNeededLocked env m) fun m =>
  if m.shouldRotateActiveLocked then rotateActiveSegmentIfNeeded env m else (true, m)

/-- The `for (;;)` loop of the two writers. -/
def writeDocuments (env : Env) (keyValues : List (Bytes × Bytes)) :
    Nat → SegmentManager → Bool × SegmentManager
  | 0, m => (false, m)
  | rounds + 1, m =>
    let documents := keyValues.length.toUInt64
    let bytes := documentBytes keyValues
    match m.activeSegment, m.activeSegmentHasCapacityLocked documents bytes with
    | some active, true =>
      writeToActive env keyValues documents bytes (m.reserve documents bytes) active
    | _, _ =>
      andThen (ensureActiveSegmentCapacity env m documents bytes) fun m =>
      writeDocuments env keyValues rounds m

/-- `SetDocument`. -/
def setDocument (env : Env) (m : SegmentManager) (key value : Bytes) :
    Bool × SegmentManager :=
  match parseDocKey key with
  | none => (false, m)
  | some _ => writeDocuments env [(key, value)] 2 m

/-- `BatchSetDocuments`: the number of documents written, all of them or none. -/
def batchSetDocuments (env : Env) (m : SegmentManager) (keyValues : List (Bytes × Bytes)) :
    Nat × SegmentManager :=
  if keyValues.isEmpty then (0, m)
  else if keyValues.any fun kv => (parseDocKey kv.1).isNone then (0, m)
  else match writeDocuments env keyValues 2 m with
    | (false, m) => (0, m)
    | (true, m) => (keyValues.length, m)

/-! ## Reading -/

/-- `IsTombstoned`. -/
def isTombstoned (collection docId : Bytes) : Bool :=
  (m.systemDB[tombstoneKey collection docId]?).isSome

/-- `FindSegment` in the current snapshot. -/
def findSegment (segmentId : Bytes) : Option Bytes :=
  m.live.find? fun s => s == segmentId

/-- `RepairDocLocation`. -/
def repairDocLocation (env : Env) (m : SegmentManager) (key segmentId : Bytes) :
    Bool × SegmentManager :=
  match parseDocKey key with
  | none => (false, m)
  | some _ =>
    let (timestampMs, m) := readClock env m
    attempt env m fun m => m.writeSystem (locationUpdates segmentId timestampMs key)

def readLocated (key collection docId : Bytes) : Option Bytes :=
  (m.systemDB[docLocationKey collection docId]?).bind fun docloc =>
  (m.findSegment (segmentIdOfRecord docloc)).bind fun segment =>
  (m.database segment)[key]?

def readNewest (key : Bytes) : Option (Bytes × Bytes) :=
  m.live.findSome? fun segment => ((m.database segment)[key]?).map fun value => (segment, value)

/-- `GetDocument`. A value found by the newest-first search is written back as the location. -/
def getDocument (env : Env) (m : SegmentManager) (key : Bytes) : Bytes × SegmentManager :=
  match parseDocKey key with
  | none => ([], m)
  | some (collection, docId) =>
    if m.isTombstoned collection docId then ([], m)
    else match m.readLocated key collection docId with
      | some value => (value, m)
      | none => match m.readNewest key with
        | some (segment, value) => (value, (repairDocLocation env m key segment).2)
        | none => ([], m)

/-- `PrefixKeys`; a `limit` of zero is no limit. -/
def prefixKeys (docPrefix : Bytes) (offset limit : Nat) : List Bytes :=
  let locPrefix := locationPrefixFromDocPrefix docPrefix
  if locPrefix = [] then []
  else
    let keys := (m.systemDB.scanPrefix locPrefix).filterMap fun kv =>
      let docKey := docKeyFromLocationKey kv.1
      match parseDocKey docKey with
      | none => none
      | some (collection, docId) =>
        if m.isTombstoned collection docId then none else some docKey
    let page := keys.drop offset
    if limit = 0 then page else page.take limit

/-! ## Deleting -/

def tombstoneUpdates (collection docId : Bytes) (nowMs : UInt64) : List ByteMap.Update :=
  [.put (tombstoneKey collection docId) (decimal nowMs.toNat),
    .delete (docLocationKey collection docId)]

/-- The write to the active segment whose status `DeleteDocument` does not look at. -/
def eraseFromActive (env : Env) (m : SegmentManager) (key : Bytes) : SegmentManager :=
  match m.activeSegment with
  | none => m
  | some active =>
    (attempt env m fun m => m.setDatabase active ((m.database active).erase key)).2

/-- `DeleteDocument`. -/
def deleteDocument (env : Env) (m : SegmentManager) (key : Bytes) : Nat × SegmentManager :=
  match parseDocKey key with
  | none => (0, m)
  | some (collection, docId) =>
    let (nowMs, m) := readClock env m
    match attempt env m fun m => m.writeSystem (tombstoneUpdates collection docId nowMs) with
    | (false, m) => (0, m)
    | (true, m) => (1, m.eraseFromActive env key)

/-- The documents that `DeleteDocumentRange` visits: the location records below the prefix whose
key lies in `[startKey, endKey)`. -/
def documentsInRange (startKey endKey : Bytes) : List (Bytes × Bytes) :=
  (m.systemDB.scanPrefix (locationPrefixFromDocPrefix startKey)).filterMap fun kv =>
    let docKey := docKeyFromLocationKey kv.1
    if docKey = [] ∨ compare docKey startKey = .lt ∨ compare docKey endKey ≠ .lt then none
    else parseDocKey docKey

/-- One tombstone for each document, each with its own reading of the clock. -/
def tombstoneBatch (env : Env) :
    List (Bytes × Bytes) → SegmentManager → List ByteMap.Update × SegmentManager
  | [], m => ([], m)
  | (collection, docId) :: docs, m =>
    let (nowMs, m) := readClock env m
    let (batch, m) := tombstoneBatch env docs m
    (tombstoneUpdates collection docId nowMs ++ batch, m)

/-- `DeleteDocumentRange`: one when something was deleted. -/
def deleteDocumentRange (env : Env) (m : SegmentManager) (startKey endKey : Bytes) :
    Nat × SegmentManager :=
  if startsWith startKey (lit "doc:") then
    let docs := m.documentsInRange startKey endKey
    let (batch, m) := tombstoneBatch env docs m
    if docs.isEmpty then (0, m)
    else match attempt env m fun m => m.writeSystem batch with
      | (false, m) => (0, m)
      | (true, m) => (1, m)
  else (0, m)

/-- The loop of `ClearAllDocuments` over the live segments. -/
def clearSegments (env : Env) : List Bytes → SegmentManager → Bool × SegmentManager
  | [], m => (true, m)
  | segment :: segments, m =>
    andThen (attempt env m fun m => m.setDatabase segment
      ((m.database segment).eraseRange (lit "doc:") (lit "doc;"))) fun m =>
    let m := m.setMetadata segment
      { m.metadata segment with docCountEstimate := 0, bytesEstimate := 0 }
    andThen (persistSegmentMetadata env m segment) fun m =>
    clearSegments env segments m

/-- The batch of `ClearAllDocuments` on the system database. -/
def clearUpdates (generation : UInt64) : List ByteMap.Update :=
  [.deleteRange docLocationPrefix (docLocationPrefix ++ lit "\xff"),
    .deleteRange tombstonePrefix (tombstonePrefix ++ lit "\xff"),
    .put manifestGenerationKey (decimal generation.toNat)]

/-- `ClearAllDocuments`. -/
def clearAllDocuments (env : Env) (m : SegmentManager) : Bool × SegmentManager :=
  match m.currentSnapshot with
  | none => (false, m)
  | some snapshot =>
    andThen (clearSegments env snapshot.liveNewestFirst m) fun m =>
    let (nowMs, m) := readClock env m
    let m := { m with
      activeMetadataDirtyDocuments := 0, activeMetadataDirtyBytes := 0
      lastMetadataPersistMs := nowMs }
    attempt env m fun m => m.writeSystem (clearUpdates snapshot.generation)

/-! ## Runs -/

/-- The key range of one whole collection, as the callers of `DeleteDocumentRange` pass it. -/
def collectionStart (collection : Bytes) : Bytes := lit "doc:" ++ (collection ++ [58])
def collectionEnd (collection : Bytes) : Bytes := lit "doc:" ++ (collection ++ [59])

inductive Op where
  | setDocument (key value : Bytes)
  | batchSetDocuments (keyValues : List (Bytes × Bytes))
  | deleteDocument (key : Bytes)
  | deleteCollection (collection : Bytes)
  | clearAllDocuments
  deriving DecidableEq

/-- One call; `none` when it does not report success. A range deletion that finds nothing to
delete returns zero as a failed one does, but is not a failure. -/
def step (env : Env) (m : SegmentManager) : Op → Option SegmentManager
  | .setDocument key value =>
    match m.setDocument env key value with
    | (true, m) => some m
    | (false, _) => none
  | .batchSetDocuments keyValues =>
    let r := m.batchSetDocuments env keyValues
    if r.1 = keyValues.length then some r.2 else none
  | .deleteDocument key =>
    let r := m.deleteDocument env key
    if r.1 = 1 then some r.2 else none
  | .deleteCollection collection =>
    let found := m.documentsInRange (collectionStart collection) (collectionEnd collection)
    let r := m.deleteDocumentRange env (collectionStart collection) (collectionEnd collection)
    if r.1 = 1 ∨ found = [] then some r.2 else none
  | .clearAllDocuments =>
    match m.clearAllDocuments env with
    | (true, m) => some m
    | (false, _) => none

/-- What a call that reports success has done. -/
theorem step_eq_some {env : Env} {m m' : SegmentManager} {op : Op} (hs : step env m op = some m') :
    match op with
    | .setDocument key value =>
      (∃ k : DocKey, key = k.toBytes) ∧ writeDocuments env [(key, value)] 2 m = (true, m')
    | .batchSetDocuments keyValues => keyValues = [] ∧ m = m' ∨
      (∀ kv ∈ keyValues, ∃ k : DocKey, kv.1 = k.toBytes) ∧
        writeDocuments env keyValues 2 m = (true, m')
    | .deleteDocument key => (m.deleteDocument env key).1 = 1 ∧ (m.deleteDocument env key).2 = m'
    | .deleteCollection collection =>
      ((m.deleteDocumentRange env (collectionStart collection) (collectionEnd collection)).1 = 1 ∨
        m.documentsInRange (collectionStart collection) (collectionEnd collection) = []) ∧
      (m.deleteDocumentRange env (collectionStart collection) (collectionEnd collection)).2 = m'
    | .clearAllDocuments => clearAllDocuments env m = (true, m') := by
  cases op with
  | setDocument key value =>
    simp only [step, setDocument] at hs
    cases hp : parseDocKey key with
    | none => simp [hp] at hs
    | some cd =>
      simp only [hp] at hs
      split at hs
      · rename_i h₁
        rw [Option.some.inj hs] at h₁
        exact ⟨parseDocKey_isSome_iff.mp (by rw [hp]; rfl), h₁⟩
      · cases hs
  | batchSetDocuments keyValues =>
    simp only [step, Option.ite_none_right_eq_some, Option.some.injEq] at hs
    obtain ⟨hn, rfl⟩ := hs
    dsimp only
    revert hn
    unfold batchSetDocuments
    split
    · rename_i hnil
      exact fun _ => .inl ⟨List.isEmpty_iff.mp hnil, rfl⟩
    · rename_i hne
      have hlen : keyValues.length ≠ 0 := by simpa using hne
      split
      · exact fun hn => absurd hn.symm hlen
      · rename_i hkeys
        split
        · exact fun hn => absurd hn.symm hlen
        · rename_i m₁ h₁
          refine fun _ => .inr ⟨fun kv hkv => parseDocKey_isSome_iff.mp ?_, h₁⟩
          by_contra hnone
          exact hkeys (List.any_eq_true.mpr ⟨kv, hkv, by simpa using hnone⟩)
  | deleteDocument key => simpa [step] using hs
  | deleteCollection collection => simpa only [step, Option.ite_none_right_eq_some,
      Option.some.injEq] using hs
  | clearAllDocuments =>
    simp only [step] at hs
    split at hs
    · rename_i h₁
      rw [h₁, Option.some.inj hs]
    · cases hs

def run (env : Env) (m : SegmentManager) (ops : List Op) : Option SegmentManager :=
  ops.foldlM (step env) m

end Hlquery.Store.SegmentManager
