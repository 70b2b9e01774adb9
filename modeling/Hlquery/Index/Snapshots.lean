import Hlquery.Index.InvertedIndex

/-!
# Flushing and loading

`FlushToDisk` writes the postings that are in memory into the directory of their collection and maps
the files it has written; `LoadFromDisk` maps the files of every directory. The mapped snapshot of a
collection is replaced as a whole in both cases. While a collection is being written the database
has a mark for it, so that a later load removes the directory if the flush did not end.

A collection with a mapped snapshot that has not been flushed by this process is not written: only
what was added since the load is in memory then, and it would take the place of the whole snapshot.

The clock is in nanoseconds. The surroundings of a call say what the file system and the database do
in it: a file that is written may fail, a directory that is removed may be left in some state, and a
mark may not be set or not go away. The name of a collection is the name of its directory.
-/

set_option autoImplicit false

namespace Hlquery.Index

open Bytes

/-- The index and what is kept outside of it: the directories, and the marks of the flushes that
have not ended (`flush_pending:` and the name). -/
structure IndexStore (S : Type) where
  index : InvertedIndex S
  directories : ByteMap Directory
  pending : ByteSet

/-! ## Flushing -/

structure FlushSurroundings (S : Type) where
  /-- The order of the hash set of dirty collections. -/
  order : List Bytes → List Bytes
  order_perm : ∀ names, (order names).Perm names
  now : Nat
  disk : Bytes → IndexFile → WriteResult
  setsMark : Bytes → Bool
  deletesMark : Bytes → Bool
  flushTime : Bytes → Nat
  estimateMemory : Bytes → CollectionIndex S → Nat

/-- The postings of a collection as they were when the flush began. -/
structure FlushWorkItem (S : Type) where
  collection : Bytes
  mutationTime : Nat
  indexSnapshot : ByteMap (List (Posting S))

def nanosecondsPerSecond : Nat := 1000000000

namespace CollectionIndex

variable {S : Type}

/-- Dirty, with postings in memory, and dirty for long enough. -/
def isFlushable (now minDirtyAgeSeconds : Nat) (c : CollectionIndex S) : Bool :=
  c.dirty && !(c.index.getD ∅).isEmpty &&
    (minDirtyAgeSeconds == 0 || c.lastMutation.all fun mutation =>
      minDirtyAgeSeconds ≤ (now - mutation) / nanosecondsPerSecond)

/-- A snapshot is mapped that this process has not written. -/
def isDeferred (c : CollectionIndex S) : Bool := c.mmapIndex.isSome && c.lastFlush.isNone

end CollectionIndex

namespace InvertedIndex

variable {S : Type}

def dirtyCollections (ix : InvertedIndex S) : List Bytes :=
  (ix.toList.filter fun entry => entry.2.dirty).map Prod.fst

/-- `SelectFlushCollectionsLocked`. -/
def selectFlushCollections (env : FlushSurroundings S) (minDirtyAgeSeconds maxCollections : Nat)
    (ix : InvertedIndex S) : List Bytes :=
  let selected := (env.order ix.dirtyCollections).filter fun name =>
    (ix.collection name).isFlushable env.now minDirtyAgeSeconds
  if 0 < maxCollections then selected.take maxCollections else selected

/-- The first part of `FlushToDisk`, under the lock. A collection that is selected has postings, so
that the second test for them never fails. -/
def flushWorkItems (env : FlushSurroundings S) (minDirtyAgeSeconds maxCollections : Nat)
    (ix : InvertedIndex S) : List (FlushWorkItem S) :=
  (ix.selectFlushCollections env minDirtyAgeSeconds maxCollections).filterMap fun name =>
    let c := ix.collection name
    if c.isDeferred then none
    else some ⟨name, c.lastMutation.getD 0, c.index.getD ∅⟩

end InvertedIndex

namespace IndexStore

variable {S : Type} (single : SinglePrecision S) (order : PostingSort S)

def directory (store : IndexStore S) (name : Bytes) : Directory :=
  store.directories[name]?.getD fun _ => none

/-- What `WriteIndex` does with a work item. -/
def writeItem (env : FlushSurroundings S) (item : FlushWorkItem S) (store : IndexStore S) :
    Directory × Bool :=
  writeIndex single order (env.disk item.collection) item.collection
    ((∅ : ByteMap (ByteMap (List (Posting S)))).insert item.collection item.indexSnapshot)
    (store.directory item.collection)

def flushItem (env : FlushSurroundings S) (item : FlushWorkItem S) (store : IndexStore S) :
    IndexStore S × Bool :=
  let name := item.collection
  let pending := if env.setsMark name then store.pending.insert name else store.pending
  let written := store.writeItem single order env item
  let directories := store.directories.insert name written.1
  if written.2 then
    ({ index := store.index.finishFlush name (loadIndex written.1) item.mutationTime
        (env.flushTime name)
       directories
       pending := if env.deletesMark name then pending.erase name else pending }, true)
  else ({ store with directories, pending }, false)

def flushItems (env : FlushSurroundings S) :
    List (FlushWorkItem S) → IndexStore S → IndexStore S × List Bytes
  | [], store => (store, [])
  | item :: items, store =>
      let (store, flushed) := store.flushItem single order env item
      let (store, names) := flushItems env items store
      (store, if flushed then item.collection :: names else names)

/-- `FlushToDisk`: the store afterwards, and the collections that were flushed. The source returns
their number. -/
def flushToDisk (env : FlushSurroundings S) (minDirtyAgeSeconds maxCollections : Nat)
    (store : IndexStore S) : IndexStore S × List Bytes :=
  let items := store.index.flushWorkItems env minDirtyAgeSeconds maxCollections
  let (store, flushed) := flushItems single order env items store
  if flushed = [] then (store, flushed)
  else ({ store with
    index := store.index.evictLoadedCollections env.estimateMemory maxMemoryBytes }, flushed)

end IndexStore

/-! ## Loading -/

structure LoadSurroundings (S : Type) where
  /-- What is left of a directory that is removed. -/
  remove : Bytes → Option Directory
  deletesMark : Bytes → Bool
  indexDirExists : Bool
  estimateMemory : Bytes → CollectionIndex S → Nat

def isSafeCollection (name : Bytes) : Bool :=
  !name.isEmpty && name.all fun b => isAlnum b || b == chr '_' || b == chr '-' || b == chr '.'

namespace IndexStore

variable {S : Type}

variable (env : LoadSurroundings S)

/-- A directory is removed, or what is left of it stays. -/
def removeDirectory (name : Bytes) (store : IndexStore S) :
    IndexStore S × Bool :=
  match store.directories[name]?, env.remove name with
  | some _, some left => ({ store with directories := store.directories.insert name left }, false)
  | _, _ => ({ store with directories := store.directories.erase name }, true)

variable (store : IndexStore S)

/-- A mark of an interrupted flush is resolved. -/
def repairFlush (name : Bytes) : IndexStore S :=
  if isSafeCollection name then
    let (store, removed) := store.removeDirectory env name
    if removed && env.deletesMark name then { store with pending := store.pending.erase name }
    else store
  else store

def repairFlushes : IndexStore S :=
  store.pending.toList.foldl (repairFlush env) store

def openable : List (Bytes × MMapIndex) :=
  store.directories.toList.filterMap fun entry =>
    if store.pending.contains entry.1 then none
    else (loadIndex entry.2).map fun index => (entry.1, index)

/-- The directories that still have a mark are removed in the scan. -/
def removeMarked : IndexStore S :=
  (store.directories.keys.filter fun name => store.pending.contains name).foldl
    (fun store name => (store.removeDirectory env name).1) store

/-- What `LoadFromDisk` opens. -/
def opened : List (Bytes × MMapIndex) :=
  (store.repairFlushes env).openable

/-- `LoadFromDisk`. -/
def loadFromDisk : IndexStore S :=
  let repaired := store.repairFlushes env
  if repaired.directories.isEmpty ∧ env.indexDirExists = false then repaired
  else
    let scanned := repaired.removeMarked env
    let index := scanned.index.installLoaded ⟨0, 0, env.estimateMemory⟩ repaired.openable
    { scanned with index }

end IndexStore

/-! ## Runs -/

/-- A call. A search of a collection only moves its time of access. -/
inductive Call (S : Type) where
  | addDocument (env : Surroundings S) (name : Bytes) (doc : Document)
  | updateDocument (env : Surroundings S) (name : Bytes) (oldDoc newDoc : Document)
      (sameId : oldDoc.id = newDoc.id)
  | deleteDocument (env : Surroundings S) (name docId : Bytes)
  | deleteCollection (name : Bytes) (deletesMark : Bool)
  | clear
  | search (name : Bytes) (now : Nat)
  | evict (estimateMemory : Bytes → CollectionIndex S → Nat) (maxBytes : Nat)
  | flushToDisk (env : FlushSurroundings S) (minDirtyAgeSeconds maxCollections : Nat)
  | loadFromDisk (env : LoadSurroundings S)

/-- What the history says of a document: what the last call that changed it has done. -/
inductive Status where
  | unknown
  | live (doc : Document)
  | deleted

abbrev Ledger := Bytes → Bytes → Status

def Ledger.record (ledger : Ledger) (name docId : Bytes) (status : Status) : Ledger :=
  fun name' docId' => if name' = name ∧ docId' = docId then status else ledger name' docId'

structure Traced (S : Type) where
  store : IndexStore S
  ledger : Ledger

namespace Traced

variable {S : Type} (single : SinglePrecision S) (order : PostingSort S) (ranking : Ranking S)

def onIndex (t : Traced S) (f : InvertedIndex S → InvertedIndex S) : Traced S :=
  { t with store := { t.store with index := f t.store.index } }

/-- One call. A document that is not taken keeps its status, and a collection that is dropped takes
its documents out of the history. -/
def step (t : Traced S) : Call S → Traced S
  | .addDocument env name doc =>
      let t' := t.onIndex fun ix => (ix.addDocument ranking env name doc).1
      if (t.store.index.addDocument ranking env name doc).2 then
        { t' with ledger := t.ledger.record name doc.id (.live doc) }
      else t'
  | .updateDocument env name oldDoc newDoc _ =>
      { t.onIndex (·.updateDocument ranking env name oldDoc newDoc) with
        ledger := t.ledger.record name newDoc.id (.live newDoc) }
  | .deleteDocument env name docId =>
      { t.onIndex (·.deleteDocument env name docId) with
        ledger := t.ledger.record name docId .deleted }
  | .deleteCollection name deletesMark =>
      { store := { t.store with
          index := t.store.index.deleteCollection name
          pending := if deletesMark then t.store.pending.erase name else t.store.pending }
        ledger := fun name' docId => if name' = name then .unknown else t.ledger name' docId }
  | .clear => t.onIndex (·.clear)
  | .search name now => t.onIndex (·.modify name (.touch name now))
  | .evict estimateMemory maxBytes => t.onIndex (·.evictLoadedCollections estimateMemory maxBytes)
  | .flushToDisk env minDirtyAgeSeconds maxCollections =>
      { t with store :=
          (t.store.flushToDisk single order env minDirtyAgeSeconds maxCollections).1 }
  | .loadFromDisk env => { t with store := t.store.loadFromDisk env }

/-- Nothing in memory and no history, over directories that may be left from before. -/
def start (directories : ByteMap Directory) (pending : ByteSet) : Traced S :=
  ⟨⟨∅, directories, pending⟩, fun _ _ => .unknown⟩

def run (t : Traced S) (calls : List (Call S)) : Traced S :=
  calls.foldl (step single order ranking) t

def AllMeet (condition : Traced S → Call S → Prop) : Traced S → List (Call S) → Prop
  | _, [] => True
  | t, call :: calls =>
      condition t call ∧ AllMeet condition (t.step single order ranking call) calls

variable {single order ranking}

/-- **What every call keeps that meets a condition, a run of such calls keeps.** -/
theorem run_keeps {condition : Traced S → Call S → Prop} {P : Traced S → Prop}
    (hstep : ∀ t call, P t → condition t call → P (t.step single order ranking call)) :
    ∀ (calls : List (Call S)) (t : Traced S), P t →
      AllMeet single order ranking condition t calls → P (t.run single order ranking calls) := by
  intro calls
  induction calls with
  | nil => intro t h _; exact h
  | cons call calls ih => intro t h hmeet; exact ih _ (hstep t call h hmeet.1) hmeet.2

end Traced

end Hlquery.Index
