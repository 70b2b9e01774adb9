import Hlquery.Store.Keys

/-!
# Segments: the state of the segment manager

`SegmentManager` keeps one *active* segment that takes the writes and a list of *sealed* ones
that are only read. A segment is sealed, and a new active one created, when its estimates reach
the configured limits. Readers do not look at the two pointers; they look at a *snapshot*, the
list of the live segments newest first, which is published after each rotation.

A segment handle is shared by pointer in the source (the active pointer, the sealed list and the
snapshots refer to the same object). Here a handle is named by its segment id, and the objects
themselves are the maps `handles` (the metadata in memory) and `databases` (the contents of the
segment's RocksDB directory, which survives the handle).

Everything outside the process that can fail is an entry of `Env`: the `n`-th call to the file
system or to a database succeeds or not as `env.ok n` says, and a failed call has no effect. Time
and directory sizes are read from `Env` in the same way, so nothing below assumes that a clock
moves forward. A function that reports success by a `bool` returns the pair of it and of the
state it leaves.
-/

set_option autoImplicit false

namespace Hlquery.Store

/-- The values of `State` that the manager writes. -/
inductive SegmentState where
  | active
  | sealed
  deriving DecidableEq, Repr

structure SegmentMetadata where
  id : Bytes
  state : SegmentState := .active
  createdAtMs : UInt64 := 0
  sealedAtMs : UInt64 := 0
  docCountEstimate : UInt64 := 0
  bytesEstimate : UInt64 := 0
  deriving DecidableEq

structure SegmentManifest where
  generation : UInt64 := 0
  active : Bytes := []
  sealed : List Bytes := []
  createdAtMs : UInt64 := 0
  deriving DecidableEq

structure SegmentSnapshot where
  generation : UInt64
  activeId : Bytes
  liveNewestFirst : List Bytes
  deriving DecidableEq

/-- The two limits of `RocksDBOptions` that rotation reads; zero means no limit. -/
structure StorageOptions where
  segmentMaxDocs : UInt64
  segmentMaxBytes : UInt64

structure SegmentManager where
  storageOptions : StorageOptions
  systemDB : ByteMap Bytes := ∅
  /-- The RocksDB directory of each segment. -/
  databases : ByteMap (ByteMap Bytes) := ∅
  /-- The metadata of each open handle. -/
  handles : ByteMap SegmentMetadata := ∅
  /-- `segment.json` of each segment. -/
  segmentFiles : ByteMap SegmentMetadata := ∅
  /-- `manifest.json`. -/
  manifestFile : Option SegmentManifest := none
  activeSegment : Option Bytes := none
  sealedSegments : List Bytes := []
  manifest : SegmentManifest := {}
  currentSnapshot : Option SegmentSnapshot := none
  activeReservedDocuments : UInt64 := 0
  activeReservedBytes : UInt64 := 0
  activeMetadataDirtyDocuments : UInt64 := 0
  activeMetadataDirtyBytes : UInt64 := 0
  lastMetadataPersistMs : UInt64 := 0
  /-- How many times the world outside was asked for something. -/
  calls : Nat := 0

/-- What the world outside answers to the `n`-th call. -/
structure Env where
  ok : Nat → Bool
  nowMs : Nat → UInt64
  directorySize : Nat → UInt64

namespace SegmentManager

/-! ## Calls that can fail -/

/-- A call that can fail, and its effect when it does not. -/
def attempt (env : Env) (m : SegmentManager) (effect : SegmentManager → SegmentManager) :
    Bool × SegmentManager :=
  let m' := { m with calls := m.calls + 1 }
  if env.ok m.calls then (true, effect m') else (false, m')

/-- `if (!call) return false;` and on with the rest. -/
def andThen (r : Bool × SegmentManager) (next : SegmentManager → Bool × SegmentManager) :
    Bool × SegmentManager :=
  if r.1 then next r.2 else (false, r.2)

/-- `if (!call) { undo; return false; }` and on with the rest. -/
def andThenOr (r : Bool × SegmentManager) (undo : SegmentManager → SegmentManager)
    (next : SegmentManager → Bool × SegmentManager) : Bool × SegmentManager :=
  if r.1 then next r.2 else (false, undo r.2)

/-- `NowMs()`. -/
def readClock (env : Env) (m : SegmentManager) : UInt64 × SegmentManager :=
  (env.nowMs m.calls, { m with calls := m.calls + 1 })

variable {m' m : SegmentManager} {env : Env}

theorem attempt_failed {effect : SegmentManager → SegmentManager}
    (h : attempt env m effect = (false, m')) : m' = { m with calls := m.calls + 1 } := by
  unfold attempt at h
  split at h
  · cases h
  · exact (Prod.mk.inj h).2.symm

theorem attempt_ok {effect : SegmentManager → SegmentManager}
    (h : attempt env m effect = (true, m')) : m' = effect { m with calls := m.calls + 1 } := by
  unfold attempt at h
  split at h
  · exact (Prod.mk.inj h).2.symm
  · cases h

theorem andThen_ok {r : Bool × SegmentManager} {next : SegmentManager → Bool × SegmentManager}
    (h : andThen r next = (true, m')) : ∃ m, r = (true, m) ∧ next m = (true, m') := by
  obtain ⟨b, m⟩ := r
  cases b with
  | true => exact ⟨m, rfl, by simpa [andThen] using h⟩
  | false => simp [andThen] at h

theorem andThenOr_ok {r : Bool × SegmentManager} {undo : SegmentManager → SegmentManager}
    {next : SegmentManager → Bool × SegmentManager} (h : andThenOr r undo next = (true, m')) :
    ∃ m, r = (true, m) ∧ next m = (true, m') := by
  obtain ⟨b, m⟩ := r
  cases b with
  | true => exact ⟨m, rfl, by simpa [andThenOr] using h⟩
  | false => simp [andThenOr] at h

/-! ## Segments -/

def metadata (m : SegmentManager) (id : Bytes) : SegmentMetadata :=
  (m.handles[id]?).getD { id := id }

def setMetadata (m : SegmentManager) (id : Bytes) (md : SegmentMetadata) : SegmentManager :=
  { m with handles := m.handles.insert id md }

def database (m : SegmentManager) (id : Bytes) : ByteMap Bytes := (m.databases[id]?).getD ∅

def setDatabase (m : SegmentManager) (id : Bytes) (db : ByteMap Bytes) : SegmentManager :=
  { m with databases := m.databases.insert id db }

/-- `PublishSnapshotLocked`. -/
def publishSnapshotLocked (m : SegmentManager) : SegmentManager :=
  { m with currentSnapshot := some {
      generation := m.manifest.generation
      activeId := m.activeSegment.getD []
      liveNewestFirst := m.activeSegment.toList ++ m.sealedSegments.reverse } }

/-- `SegmentMetadata::SaveAtomic`. -/
def saveAtomic (env : Env) (m : SegmentManager) (md : SegmentMetadata) : Bool × SegmentManager :=
  if md.id = [] then (false, m)
  else attempt env m fun m => { m with segmentFiles := m.segmentFiles.insert md.id md }

/-- `PersistSegmentMetadata`. -/
def persistSegmentMetadata (env : Env) (m : SegmentManager) (id : Bytes) :
    Bool × SegmentManager :=
  saveAtomic env m (m.metadata id)

/-- `OpenSegment` with `create_if_missing`: an existing directory is opened with its contents. -/
def openSegment (env : Env) (m : SegmentManager) (md : SegmentMetadata) : Bool × SegmentManager :=
  andThen (attempt env m id) fun m =>
  attempt env m fun m => (m.setDatabase md.id (m.database md.id)).setMetadata md.id md

/-- `PersistManifestLocked`: the generation marker first, then the manifest. -/
def persistManifestLocked (env : Env) (m : SegmentManager) : Bool × SegmentManager :=
  andThen (attempt env m fun m => { m with
    systemDB := m.systemDB.insert manifestGenerationKey (decimal m.manifest.generation.toNat) })
  fun m => attempt env m fun m => { m with manifestFile := some m.manifest }

/-- The `do … while (used.count(segment_id) > 0)` loop of `CreateActiveSegmentLocked`. -/
def nextSegmentId (used : List Bytes) : Nat → UInt64 → Bytes
  | 0, nextId => formatSegmentId nextId
  | fuel + 1, nextId =>
    if formatSegmentId nextId ∈ used then nextSegmentId used fuel (nextId + 1)
    else formatSegmentId nextId

def usedSegmentIds (m : SegmentManager) : List Bytes :=
  m.manifest.sealed ++ (if m.manifest.active = [] then [] else [m.manifest.active])

/-- `CreateActiveSegmentLocked`. -/
def createActiveSegmentLocked (env : Env) (m : SegmentManager) : Bool × SegmentManager :=
  let previousManifest := m.manifest
  let previousActive := m.activeSegment
  let segmentId :=
    nextSegmentId m.usedSegmentIds m.usedSegmentIds.length (m.manifest.generation + 1)
  let (createdAtMs, m) := readClock env m
  let md : SegmentMetadata := { id := segmentId, createdAtMs := createdAtMs }
  andThen (attempt env m id) fun m =>
  andThen (saveAtomic env m md) fun m =>
  andThen (openSegment env m md) fun m =>
  let m := { m with
    activeSegment := some segmentId
    manifest := { m.manifest with active := segmentId, generation := segmentOrdinal segmentId } }
  andThenOr (persistManifestLocked env m)
    (fun m => { m with activeSegment := previousActive, manifest := previousManifest }) fun m =>
  let (now, m) := readClock env m
  (true, { m with
    activeMetadataDirtyDocuments := 0, activeMetadataDirtyBytes := 0
    activeReservedDocuments := 0, activeReservedBytes := 0, lastMetadataPersistMs := now })

def metadataPersistDocumentThreshold : UInt64 := 100000
def metadataPersistBytesThreshold : UInt64 := 256 * 1024 * 1024
def metadataPersistIntervalMs : UInt64 := 5000

/-- Whether the estimates that are not on disk yet can wait: few, small and recent. -/
def metadataCanWait (m : SegmentManager) (nowMs : UInt64) : Bool :=
  let intervalElapsed := m.lastMetadataPersistMs == 0 || nowMs < m.lastMetadataPersistMs ||
    metadataPersistIntervalMs ≤ nowMs - m.lastMetadataPersistMs
  m.activeMetadataDirtyDocuments < metadataPersistDocumentThreshold &&
    m.activeMetadataDirtyBytes < metadataPersistBytesThreshold && !intervalElapsed

/-- Write the estimates to `segment.json`, unless they can wait. -/
def persistMetadataAt (env : Env) (m : SegmentManager) (active : Bytes) (nowMs : UInt64) :
    Bool × SegmentManager :=
  if m.metadataCanWait nowMs then (true, m)
  else
    andThen (persistSegmentMetadata env m active) fun m =>
    (true, { m with
      activeMetadataDirtyDocuments := 0, activeMetadataDirtyBytes := 0
      lastMetadataPersistMs := nowMs })

/-- `PersistActiveMetadataIfNeededLocked(false)`. -/
def persistActiveMetadataIfNeededLocked (env : Env) (m : SegmentManager) :
    Bool × SegmentManager :=
  match m.activeSegment with
  | none => (true, m)
  | some active =>
    if m.activeMetadataDirtyDocuments = 0 ∧ m.activeMetadataDirtyBytes = 0 then (true, m)
    else
      let (nowMs, m) := readClock env m
      persistMetadataAt env m active nowMs

/-- `ActiveSegmentHasCapacityLocked`. -/
def activeSegmentHasCapacityLocked (m : SegmentManager) (documents bytes : UInt64) : Bool :=
  match m.activeSegment with
  | none => false
  | some active =>
    let currentDocuments := (m.metadata active).docCountEstimate + m.activeReservedDocuments
    let currentBytes := (m.metadata active).bytesEstimate + m.activeReservedBytes
    let maxDocs := m.storageOptions.segmentMaxDocs
    let maxBytes := m.storageOptions.segmentMaxBytes
    -- a single oversized document or batch must still be writable
    if currentDocuments = 0 ∧ currentBytes = 0 then true
    else if 0 < maxDocs ∧ maxDocs - min currentDocuments maxDocs < documents then false
    else if 0 < maxBytes ∧ maxBytes - min currentBytes maxBytes < bytes then false
    else true

/-- `ShouldRotateActiveLocked`. -/
def shouldRotateActiveLocked (m : SegmentManager) : Bool :=
  match m.activeSegment with
  | none => true
  | some active =>
    (0 < m.storageOptions.segmentMaxDocs &&
      m.storageOptions.segmentMaxDocs ≤ (m.metadata active).docCountEstimate) ||
    (0 < m.storageOptions.segmentMaxBytes &&
      m.storageOptions.segmentMaxBytes ≤ (m.metadata active).bytesEstimate)

/-- `SealActiveSegmentAndCreateNewLocked`. -/
def sealActiveSegmentAndCreateNewLocked (env : Env) (m : SegmentManager) :
    Bool × SegmentManager :=
  match m.activeSegment with
  | none => createActiveSegmentLocked env m
  | some active =>
    andThen (attempt env m id) fun m =>
    andThen (attempt env m id) fun m =>
    let previousManifest := m.manifest
    let previousMetadata := m.metadata active
    let previousSealedCount := m.sealedSegments.length
    let (now, m) := readClock env m
    let m := m.setMetadata active { previousMetadata with
      state := .sealed, sealedAtMs := now, bytesEstimate := env.directorySize m.calls }
    andThenOr (persistSegmentMetadata env m active)
      (fun m => m.setMetadata active previousMetadata) fun m =>
    let m := { m with
      manifest := { m.manifest with sealed := m.manifest.sealed ++ [active], active := [] }
      sealedSegments := m.sealedSegments ++ [active], activeSegment := none }
    andThenOr (createActiveSegmentLocked env m)
      (fun m =>
        let m := { m with
          manifest := previousManifest, activeSegment := some active
          sealedSegments := m.sealedSegments.take previousSealedCount }
        (persistSegmentMetadata env (m.setMetadata active previousMetadata) active).2) fun m =>
    (true, m.publishSnapshotLocked)

/-- `EnsureActiveSegmentCapacity`. -/
def ensureActiveSegmentCapacity (env : Env) (m : SegmentManager) (documents bytes : UInt64) :
    Bool × SegmentManager :=
  andThen (if m.activeSegment.isSome then (true, m) else createActiveSegmentLocked env m) fun m =>
  if m.activeSegmentHasCapacityLocked documents bytes then (true, m)
  else sealActiveSegmentAndCreateNewLocked env m

/-- `RotateActiveSegmentIfNeeded`. -/
def rotateActiveSegmentIfNeeded (env : Env) (m : SegmentManager) : Bool × SegmentManager :=
  if m.shouldRotateActiveLocked then sealActiveSegmentAndCreateNewLocked env m else (true, m)

/-- `Initialize` on an empty data directory and an empty system database: no manifest and no
segment is found, so a manifest of generation 0 is written and a first segment created. The
generation marker then matches, and no location map has to be rebuilt. -/
def initializeEmpty (env : Env) (storageOptions : StorageOptions) : Bool × SegmentManager :=
  andThen (attempt env { storageOptions } id) fun m =>
  let (now, m) := readClock env m
  andThen (persistManifestLocked env { m with manifest := { createdAtMs := now } }) fun m =>
  let (now, m) := readClock env m
  andThen (createActiveSegmentLocked env { m with lastMetadataPersistMs := now }) fun m =>
  (true, m.publishSnapshotLocked)

/-! ## The fresh segment id

The loop is given as many rounds as there are ids in use, and by `formatSegmentId_injective` that
is enough: the candidates are pairwise different, so one of them is not in use. -/

theorem nextSegmentId_eq (used : List Bytes) (fuel : Nat) (n : UInt64) :
    ∃ v, nextSegmentId used fuel n = formatSegmentId v := by
  induction fuel generalizing n with
  | zero => exact ⟨n, rfl⟩
  | succ fuel ih =>
    unfold nextSegmentId
    split
    · exact ih (n + 1)
    · exact ⟨n, rfl⟩

theorem nextSegmentId_not_mem_of_exists {used : List Bytes} :
    ∀ {fuel : Nat} {n : UInt64}, (∃ i ≤ fuel, formatSegmentId (n + UInt64.ofNat i) ∉ used) →
      nextSegmentId used fuel n ∉ used
  | 0, n, ⟨i, hi, h⟩ => by
    obtain rfl : i = 0 := by omega
    simpa [nextSegmentId] using h
  | fuel + 1, n, ⟨i, hi, h⟩ => by
    unfold nextSegmentId
    split
    · rename_i hmem
      cases i with
      | zero => exact absurd hmem (by simpa using h)
      | succ i =>
        refine nextSegmentId_not_mem_of_exists ⟨i, by omega, ?_⟩
        rw [UInt64.ofNat_add] at h
        rwa [UInt64.add_assoc, UInt64.add_comm 1]
    · assumption

theorem nextSegmentId_not_mem (used : List Bytes) (n : UInt64) (hlen : used.length < 2 ^ 64) :
    nextSegmentId used used.length n ∉ used := by
  refine nextSegmentId_not_mem_of_exists ?_
  by_contra hall
  push Not at hall
  let candidates := (List.range (used.length + 1)).map fun i => formatSegmentId (n + UInt64.ofNat i)
  have hnd : candidates.Nodup := by
    refine List.Nodup.map_on ?_ List.nodup_range
    intro i hi j hj he
    have hij := (UInt64.add_right_inj n).mp (formatSegmentId_injective he)
    have := congrArg UInt64.toNat hij
    rw [List.mem_range] at hi hj
    simp only [UInt64.toNat_ofNat'] at this
    omega
  have hsub : candidates ⊆ used := by
    intro c hc
    obtain ⟨i, hi, rfl⟩ := List.mem_map.mp hc
    exact hall i (by rw [List.mem_range] at hi; omega)
  have hle := (hnd.subperm hsub).length_le
  simp only [candidates, List.length_map, List.length_range] at hle
  omega

/-! ## What the management of segments leaves alone

Creating, sealing and persisting touch files, counters, the generation marker and the pointers
to segments. No document, location record or tombstone changes, and that is all the document
operations need to know (`SameDocuments`); `Quiet` adds that the pointers stay as they were. -/

structure SameDocuments (m m' : SegmentManager) : Prop where
  location : ∀ s, m'.systemDB[docLocationPrefix ++ s]? = m.systemDB[docLocationPrefix ++ s]?
  tombstone : ∀ s, m'.systemDB[tombstonePrefix ++ s]? = m.systemDB[tombstonePrefix ++ s]?
  database : ∀ id, m'.database id = m.database id

structure Quiet (m m' : SegmentManager) : Prop extends SameDocuments m m' where
  activeSegment : m'.activeSegment = m.activeSegment
  sealedSegments : m'.sealedSegments = m.sealedSegments
  currentSnapshot : m'.currentSnapshot = m.currentSnapshot

variable {m₁ m₂ m₃ : SegmentManager}

theorem SameDocuments.trans (h : SameDocuments m₁ m₂)
    (h' : SameDocuments m₂ m₃) : SameDocuments m₁ m₃ where
  location s := (h'.location s).trans (h.location s)
  tombstone s := (h'.tombstone s).trans (h.tombstone s)
  database id := (h'.database id).trans (h.database id)

theorem Quiet.of_eq (hs : m'.systemDB = m.systemDB) (hd : m'.databases = m.databases)
    (ha : m'.activeSegment = m.activeSegment) (hl : m'.sealedSegments = m.sealedSegments)
    (hc : m'.currentSnapshot = m.currentSnapshot) : Quiet m m' :=
  ⟨⟨fun s => by rw [hs], fun s => by rw [hs], fun id => by unfold database; rw [hd]⟩, ha, hl, hc⟩

theorem Quiet.refl (m : SegmentManager) : Quiet m m := .of_eq rfl rfl rfl rfl rfl

theorem Quiet.trans (h : Quiet m₁ m₂) (h' : Quiet m₂ m₃) :
    Quiet m₁ m₃ :=
  ⟨h.toSameDocuments.trans h'.toSameDocuments, h'.activeSegment.trans h.activeSegment,
    h'.sealedSegments.trans h.sealedSegments, h'.currentSnapshot.trans h.currentSnapshot⟩

/-- The manifest stays as well. -/
structure Still (m m' : SegmentManager) : Prop extends Quiet m m' where
  manifest : m'.manifest = m.manifest

theorem Still.refl (m : SegmentManager) : Still m m := ⟨.refl m, rfl⟩

theorem Still.trans (h : Still m₁ m₂) (h' : Still m₂ m₃) :
    Still m₁ m₃ :=
  ⟨h.toQuiet.trans h'.toQuiet, h'.manifest.trans h.manifest⟩

theorem database_setDatabase (m : SegmentManager) (id id' : Bytes) (db : ByteMap Bytes) :
    (m.setDatabase id db).database id' = if id' = id then db else m.database id' := by
  unfold database setDatabase
  rw [ByteMap.get_insert]
  split <;> rfl

theorem saveAtomic_ok {md : SegmentMetadata} (h : saveAtomic env m md = (true, m')) :
    Still m m' := by
  unfold saveAtomic at h
  split at h
  · cases h
  · rw [attempt_ok h]
    exact ⟨.of_eq rfl rfl rfl rfl rfl, rfl⟩

theorem persistSegmentMetadata_ok {id : Bytes} (h : persistSegmentMetadata env m id = (true, m')) :
    Still m m' := saveAtomic_ok h

theorem openSegment_ok {md : SegmentMetadata} (h : openSegment env m md = (true, m')) :
    Still m m' := by
  obtain ⟨m₁, h₁, h⟩ := andThen_ok h
  rw [attempt_ok h₁] at h
  rw [attempt_ok h]
  refine ⟨⟨⟨fun _ => rfl, fun _ => rfl, fun id => ?_⟩, rfl, rfl, rfl⟩, rfl⟩
  refine (database_setDatabase _ md.id id _).trans ?_
  split
  · subst id; rfl
  · rfl

theorem insert_generation_location (db : ByteMap Bytes) (v s : Bytes) :
    (db.insert manifestGenerationKey v)[docLocationPrefix ++ s]? = db[docLocationPrefix ++ s]? := by
  rw [ByteMap.get_insert, if_neg (location_ne_generation s)]

theorem insert_generation_tombstone (db : ByteMap Bytes) (v s : Bytes) :
    (db.insert manifestGenerationKey v)[tombstonePrefix ++ s]? = db[tombstonePrefix ++ s]? := by
  rw [ByteMap.get_insert, if_neg (tombstone_ne_generation s)]

theorem persistManifestLocked_ok (h : persistManifestLocked env m = (true, m')) : Still m m' := by
  obtain ⟨m₁, h₁, h⟩ := andThen_ok h
  rw [attempt_ok h₁] at h
  rw [attempt_ok h]
  exact ⟨⟨⟨fun s => insert_generation_location .., fun s => insert_generation_tombstone ..,
    fun _ => rfl⟩, rfl, rfl, rfl⟩, rfl⟩

theorem formatSegmentId_ne_nil (value : UInt64) : formatSegmentId value ≠ [] := by
  unfold formatSegmentId
  simp [lit]

/-- What has become of the store when there is a new active segment: the sealed list and the
published snapshot stay, the manifest names the segment, and it did not name it before. -/
structure Created (m m' : SegmentManager) (s : Bytes) : Prop extends SameDocuments m m' where
  sealedSegments : m'.sealedSegments = m.sealedSegments
  currentSnapshot : m'.currentSnapshot = m.currentSnapshot
  activeSegment : m'.activeSegment = some s
  ne_nil : s ≠ []
  colon_not_mem : 58 ∉ s
  manifest_sealed : m'.manifest.sealed = m.manifest.sealed
  manifest_active : m'.manifest.active = s
  fresh : m.usedSegmentIds.length < 2 ^ 64 → s ∉ m.usedSegmentIds

/-- **A new active segment.** -/
theorem createActiveSegmentLocked_ok (h : createActiveSegmentLocked env m = (true, m')) :
    ∃ s, Created m m' s := by
  unfold createActiveSegmentLocked at h
  obtain ⟨m₁, h₁, h⟩ := andThen_ok h
  obtain ⟨m₂, h₂, h⟩ := andThen_ok h
  obtain ⟨m₃, h₃, h⟩ := andThen_ok h
  have q₁ : Still m m₁ := by rw [attempt_ok h₁]; exact ⟨.of_eq rfl rfl rfl rfl rfl, rfl⟩
  have q₃ := (q₁.trans (saveAtomic_ok h₂)).trans (openSegment_ok h₃)
  obtain ⟨m₄, h₄, h⟩ := andThenOr_ok h
  have q₄ := persistManifestLocked_ok h₄
  obtain ⟨v, hv⟩ := nextSegmentId_eq m.usedSegmentIds m.usedSegmentIds.length
    (m.manifest.generation + 1)
  cases h
  refine ⟨_, q₃.toSameDocuments.trans ⟨q₄.location, q₄.tombstone, q₄.database⟩,
    q₄.sealedSegments.trans q₃.sealedSegments, q₄.currentSnapshot.trans q₃.currentSnapshot,
    q₄.activeSegment, by rw [hv]; exact formatSegmentId_ne_nil v,
    by rw [hv]; exact colon_not_mem_formatSegmentId v, ?_, ?_, fun hfew => nextSegmentId_not_mem _ _ hfew⟩
  · rw [q₄.manifest, q₃.manifest]
  · rw [q₄.manifest]

theorem persistMetadataAt_ok {active : Bytes} {nowMs : UInt64}
    (h : persistMetadataAt env m active nowMs = (true, m')) : Still m m' := by
  unfold persistMetadataAt at h
  split at h
  · rw [← (Prod.mk.inj h).2]; exact .refl m
  obtain ⟨m₁, h₁, h⟩ := andThen_ok h
  cases h
  exact (persistSegmentMetadata_ok h₁).trans ⟨.of_eq rfl rfl rfl rfl rfl, rfl⟩

theorem persistActiveMetadataIfNeededLocked_ok
    (h : persistActiveMetadataIfNeededLocked env m = (true, m')) : Still m m' := by
  unfold persistActiveMetadataIfNeededLocked at h
  split at h
  · rw [← (Prod.mk.inj h).2]; exact .refl m
  split at h
  · rw [← (Prod.mk.inj h).2]; exact .refl m
  · refine Still.trans ?_ (persistMetadataAt_ok h)
    exact ⟨.of_eq rfl rfl rfl rfl rfl, rfl⟩

/-! ## Rotation -/

def live (m : SegmentManager) : List Bytes :=
  match m.currentSnapshot with
  | none => []
  | some snapshot => snapshot.liveNewestFirst

theorem live_congr (h : m'.currentSnapshot = m.currentSnapshot) : m'.live = m.live := by
  unfold live
  rw [h]

theorem live_publishSnapshotLocked (m : SegmentManager) :
    m.publishSnapshotLocked.live = m.activeSegment.toList ++ m.sealedSegments.reverse := rfl

/-- The published snapshot is the active segment and the sealed ones, newest first. -/
structure WellFormed (m : SegmentManager) : Prop where
  snapshot : m.currentSnapshot.isSome = true
  live_eq : ∃ active, m.activeSegment = some active ∧ m.live = active :: m.sealedSegments.reverse
  colon_not_mem : ∀ s ∈ m.live, 58 ∉ s

/-- Only the pointers moved, and no segment went away. -/
structure Rotated (m m' : SegmentManager) : Prop extends SameDocuments m m' where
  wellFormed : m'.WellFormed
  live_subset : ∀ s ∈ m.live, s ∈ m'.live

theorem WellFormed.same (h : m.WellFormed) (ha : m'.activeSegment = m.activeSegment)
    (hl : m'.sealedSegments = m.sealedSegments) (hc : m'.currentSnapshot = m.currentSnapshot) :
    m'.WellFormed := by
  have hlive := live_congr hc
  refine ⟨by rw [hc]; exact h.snapshot, ?_, by rw [hlive]; exact h.colon_not_mem⟩
  rw [hlive, ha, hl]
  exact h.live_eq

theorem WellFormed.of_quiet (h : m.WellFormed) (q : Quiet m m') : m'.WellFormed :=
  h.same q.activeSegment q.sealedSegments q.currentSnapshot

theorem Rotated.of_quiet (h : m.WellFormed) (q : Quiet m m') : Rotated m m' :=
  ⟨q.toSameDocuments, h.of_quiet q, fun s hs => by rwa [live_congr q.currentSnapshot]⟩

/-- What has become of the store when the active segment was sealed: it is at the head of the sealed
ones, and a new segment stands in front of it. -/
structure Resealed (m m' : SegmentManager) (active s : Bytes) : Prop extends SameDocuments m m' where
  activeSegment : m'.activeSegment = some s
  sealedSegments : m'.sealedSegments = m.sealedSegments ++ [active]
  snapshot : m'.currentSnapshot.isSome = true
  live : m'.live = s :: active :: m.sealedSegments.reverse
  ne_nil : s ≠ []
  colon_not_mem : 58 ∉ s
  manifest_sealed : m'.manifest.sealed = m.manifest.sealed ++ [active]
  manifest_active : m'.manifest.active = s
  fresh : (m.manifest.sealed ++ [active]).length < 2 ^ 64 → s ∉ m.manifest.sealed ++ [active]

theorem sealActiveSegmentAndCreateNewLocked_spec {active : Bytes}
    (hactive : m.activeSegment = some active)
    (h : sealActiveSegmentAndCreateNewLocked env m = (true, m')) : ∃ s, Resealed m m' active s := by
  unfold sealActiveSegmentAndCreateNewLocked at h
  simp only [hactive] at h
  obtain ⟨m₁, h₁, h⟩ := andThen_ok h
  obtain ⟨m₂, h₂, h⟩ := andThen_ok h
  obtain ⟨m₃, h₃, h⟩ := andThenOr_ok h
  obtain ⟨m₄, h₄, h⟩ := andThenOr_ok h
  have q₃ : Still m m₃ := by
    refine Still.trans ?_ (persistSegmentMetadata_ok h₃)
    rw [attempt_ok h₂, attempt_ok h₁]
    exact ⟨.of_eq rfl rfl rfl rfl rfl, rfl⟩
  obtain ⟨s, c⟩ := createActiveSegmentLocked_ok h₄
  cases h
  have hsealed : m₄.sealedSegments = m.sealedSegments ++ [active] := by
    rw [c.sealedSegments, q₃.sealedSegments]
  have hused : m₄.manifest.sealed = m.manifest.sealed ++ [active] := by
    rw [c.manifest_sealed]
    rw [q₃.manifest]
  have hfresh := c.fresh
  simp only [usedSegmentIds, q₃.manifest, if_true, List.append_nil] at hfresh
  refine ⟨s, q₃.toSameDocuments.trans ⟨c.location, c.tombstone, c.database⟩, c.activeSegment,
    hsealed, rfl, ?_, c.ne_nil, c.colon_not_mem, hused, c.manifest_active, hfresh⟩
  rw [live_publishSnapshotLocked, c.activeSegment, hsealed]
  simp

theorem sealActiveSegmentAndCreateNewLocked_ok (hm : m.WellFormed)
    (h : sealActiveSegmentAndCreateNewLocked env m = (true, m')) : Rotated m m' := by
  obtain ⟨active, hactive, hlive⟩ := hm.live_eq
  obtain ⟨s, r⟩ := sealActiveSegmentAndCreateNewLocked_spec hactive h
  have hlive' : m'.live = s :: m.live := by rw [r.live, hlive]
  refine ⟨r.toSameDocuments, ⟨r.snapshot, ⟨s, r.activeSegment, ?_⟩, ?_⟩, ?_⟩
  · rw [hlive', hlive, r.sealedSegments]
    simp
  · rw [hlive']
    exact List.forall_mem_cons.mpr ⟨r.colon_not_mem, hm.colon_not_mem⟩
  · rw [hlive']
    exact fun t ht => List.mem_cons_of_mem _ ht

theorem ensureActiveSegmentCapacity_ok {documents bytes : UInt64} (hm : m.WellFormed)
    (h : ensureActiveSegmentCapacity env m documents bytes = (true, m')) : Rotated m m' := by
  obtain ⟨active, hactive, -⟩ := hm.live_eq
  obtain ⟨m₁, h₁, h⟩ := andThen_ok h
  obtain rfl : m = m₁ := by simpa [hactive] using h₁
  split at h
  · rw [← (Prod.mk.inj h).2]; exact .of_quiet hm (.refl m)
  · exact sealActiveSegmentAndCreateNewLocked_ok hm h

theorem rotateActiveSegmentIfNeeded_ok (hm : m.WellFormed)
    (h : rotateActiveSegmentIfNeeded env m = (true, m')) : Rotated m m' := by
  unfold rotateActiveSegmentIfNeeded at h
  split at h
  · exact sealActiveSegmentAndCreateNewLocked_ok hm h
  · rw [← (Prod.mk.inj h).2]; exact .of_quiet hm (.refl m)

/-- A store that was just created has one segment, which the manifest names. -/
theorem initializeEmpty_spec {options : StorageOptions}
    (h : initializeEmpty env options = (true, m)) :
    ∃ m' s, Created { storageOptions := options } m' s ∧ m = m'.publishSnapshotLocked := by
  obtain ⟨m₁, h₁, h⟩ := andThen_ok h
  obtain ⟨m₂, h₂, h⟩ := andThen_ok h
  obtain ⟨m₃, h₃, h⟩ := andThen_ok h
  rw [attempt_ok h₁] at h₂
  have q := persistManifestLocked_ok h₂
  obtain ⟨s, c⟩ := createActiveSegmentLocked_ok h₃
  have d₂ : SameDocuments { storageOptions := options } m₂ := ⟨q.location, q.tombstone, q.database⟩
  have d₃ : SameDocuments m₂ m₃ := ⟨c.location, c.tombstone, c.database⟩
  exact ⟨m₃, s, ⟨d₂.trans d₃, c.sealedSegments.trans q.sealedSegments,
    c.currentSnapshot.trans q.currentSnapshot, c.activeSegment, c.ne_nil, c.colon_not_mem,
    c.manifest_sealed.trans (congrArg (·.sealed) q.manifest), c.manifest_active,
    fun _ => by simp [usedSegmentIds]⟩, (Prod.mk.inj h).2.symm⟩

/-- It holds nothing. -/
theorem initializeEmpty_ok {options : StorageOptions}
    (h : initializeEmpty env options = (true, m)) :
    SameDocuments { storageOptions := options } m ∧ m.sealedSegments = [] ∧ m.WellFormed := by
  obtain ⟨m', s, c, rfl⟩ := initializeEmpty_spec h
  have hsealed : m'.publishSnapshotLocked.sealedSegments = [] := c.sealedSegments
  have hlive : m'.publishSnapshotLocked.live = [s] := by
    rw [live_publishSnapshotLocked, c.activeSegment, c.sealedSegments]
    rfl
  refine ⟨⟨c.location, c.tombstone, c.database⟩, hsealed, rfl, ⟨s, c.activeSegment, ?_⟩, ?_⟩
  · rw [hlive, hsealed]
    rfl
  · rw [hlive]
    exact List.forall_mem_singleton.mpr c.colon_not_mem

end SegmentManager

end Hlquery.Store
