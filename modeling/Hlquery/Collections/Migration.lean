import Hlquery.Lib.Decimal
import Hlquery.Lib.Locks
import Hlquery.Lib.Runs

/-!
# The migration of old documents

`GetDocument` gives a document of an old format, which has no timestamp, the time of the first read, and
writes it back. It reads the record without a lock, then takes the lock of the key and looks again. That
second look knows the old formats only: it takes a record as done when a positive number stands behind
its last bar. The records that are written now are JSON, and a deleted one is empty. So the record of the
first read goes over both of them, and `UpdateDocument`, which calls `GetDocument` under the lock of
the key, waits for itself.
-/

set_option autoImplicit false

namespace Hlquery.Collections

open Bytes Locks Runs

/-! ## Records -/

/-- What `DeserializeDocumentJSON` does with a text that begins with a brace: it throws, it reads a
document, or it reads one without an id, with a timestamp. -/
inductive JsonReading where
  | throws
  | document
  | unnamed (timestamp : Nat)

/-- What is outside: the limits of records, the JSON library, and the record that is written for one of
an old format at a time. -/
structure Format where
  valid : Bytes → Bool
  json : Bytes → JsonReading
  migrated : Bytes → Nat → Bytes

def bar : UInt8 := chr '|'

/-- The timestamp of the parts behind the id; `timestamp` is what the JSON reader left. -/
def legacyTimestamp (timestamp : Nat) : List Bytes → Nat
  | _ :: _ :: _ :: text :: _ =>
    if text = [] then timestamp else ((stoull text).map UInt64.toNat).getD 0
  | [_] => timestamp
  | _ => 0

/-- `GetDocument` found a document without a timestamp in the record. -/
def needsMigration (f : Format) (record : Bytes) : Bool :=
  let legacy (timestamp : Nat) := match record.splitOn bar with
    | id :: part :: parts => id ≠ [] && legacyTimestamp timestamp (part :: parts) = 0
    | _ => false
  record ≠ [] && f.valid record &&
    if record.head? = some (chr '\x7b') then
      match f.json record with
      | .throws | .document => false
      | .unnamed timestamp => legacy timestamp
    else legacy 0

/-- The second look of `GetDocument`: a positive number stands behind the last bar. -/
def showsTimestamp (record : Bytes) : Bool :=
  bar ∈ record && ((stoull ((record.splitOn bar).getLastD [])).any (0 < ·))

/-! ## The locks of the operations -/

/-- The locks of the keys: those of `HybridStorageManager` and those of `SegmentManager`. -/
inductive KeyLock where
  | document (stripe : Nat)
  | segment (stripe : Nat)
  deriving DecidableEq

def KeyLock.rank : KeyLock → Nat
  | .document _ => 0
  | .segment _ => 1

/-- How keys are spread over the locks, and whether documents are kept in segments. -/
structure Stripes where
  document : Bytes → Nat
  segment : Bytes → Nat
  segmented : Bool

/-- A call for one document. `stores` is how often it writes, and `found` the record that is there. -/
inductive Operation where
  | get (key found : Bytes) (stores : Nat)
  | add (key : Bytes) (stores : Nat)
  | delete (key : Bytes) (stores : Nat)
  | update (key found : Bytes) (absent : Bool) (stores : Nat)

variable (f : Format) (stripes : Stripes)

/-- `Set` and `Del` of the database. -/
def storeLocks (key : Bytes) (stores : Nat) : List (Action KeyLock) :=
  if stripes.segmented then
    (List.replicate stores [.acquire (.segment (stripes.segment key)),
      .release (.segment (stripes.segment key))]).flatten
  else []

/-- A call that writes under the lock of the key: `AddDocument`, `DeleteDocument`. -/
def lockedStore (key : Bytes) (stores : Nat) : List (Action KeyLock) :=
  .acquire (.document (stripes.document key)) ::
    (storeLocks stripes key stores ++ [.release (.document (stripes.document key))])

def getLocks (key found : Bytes) (stores : Nat) : List (Action KeyLock) :=
  if needsMigration f found then lockedStore stripes key stores else []

/-- The locks that a call takes and releases. `UpdateDocument` of a document that is not there releases
its lock and goes on as `AddDocument`. -/
def Operation.locks : Operation → List (Action KeyLock)
  | .get key found stores => getLocks f stripes key found stores
  | .add key stores | .delete key stores => lockedStore stripes key stores
  | .update key found absent stores =>
    .acquire (.document (stripes.document key)) :: (getLocks f stripes key found stores ++
      if absent then
        .release (.document (stripes.document key)) :: lockedStore stripes key stores
      else storeLocks stripes key stores ++ [.release (.document (stripes.document key))])

def Operation.updatesLegacy : Operation → Bool
  | .update _ found _ _ => needsMigration f found
  | _ => false

theorem ranked_storeLocks {key : Bytes} {stripe : Nat} {rest : List (Action KeyLock)}
    (hrest : Ranked KeyLock.rank [.document stripe] rest) (stores : Nat) :
    Ranked KeyLock.rank [.document stripe] (storeLocks stripes key stores ++ rest) := by
  unfold storeLocks
  split
  · induction stores with
    | zero => exact hrest
    | succ n ih =>
      exact ⟨by simp [KeyLock.rank], by simpa [Ranked] using ih⟩
  · exact hrest

theorem ranked_lockedStore (key : Bytes) (stores : Nat) :
    Ranked KeyLock.rank [] (lockedStore stripes key stores) :=
  ⟨fun _ h => (nomatch h), ranked_storeLocks stripes (by simp [Ranked]) stores⟩

theorem Operation.ranked {op : Operation} (h : op.updatesLegacy f = false) :
    Ranked KeyLock.rank [] (op.locks f stripes) := by
  cases op with
  | get key found stores =>
    show Ranked _ _ (if needsMigration f found then lockedStore stripes key stores else [])
    split
    · exact ranked_lockedStore stripes key stores
    · trivial
  | add key stores => exact ranked_lockedStore stripes key stores
  | delete key stores => exact ranked_lockedStore stripes key stores
  | update key found absent stores =>
    have hget : getLocks f stripes key found stores = [] :=
      if_neg (by simpa [Operation.updatesLegacy] using h)
    simp only [Operation.locks, hget]
    refine ⟨by simp, ?_⟩
    cases absent with
    | true => simpa [Ranked] using ranked_lockedStore stripes key stores
    | false => exact ranked_storeLocks stripes (by simp [Ranked]) stores

/-- **The calls of the threads come to no deadlock, however they are scheduled, exactly when none of
them is an update of a record of an old format.** -/
theorem not_deadlocked_iff (operations : Nat → Operation) :
    (∀ schedule : List Nat, ¬ (schedule.foldl Threads.step
      { rest := fun i => (operations i).locks f stripes }).Deadlocked) ↔
      ∀ i, (operations i).updatesLegacy f = false := by
  constructor
  · intro hfree i
    by_contra hlegacy
    cases hop : operations i with
    | update key found absent stores =>
      have hneeds : needsMigration f found = true := by
        simpa [hop, Operation.updatesLegacy] using hlegacy
      refine hfree [i] (deadlocked_of_reacquire (l := .document (stripes.document key)) ⟨?_, ?_⟩)
      rotate_left
      · simp only [hop, Operation.locks, getLocks, if_pos hneeds, lockedStore, List.cons_append]
        rfl
    | _ => simp [hop, Operation.updatesLegacy] at hlegacy
  · intro hnone schedule
    exact not_deadlocked_run (fun i => Operation.ranked f stripes (hnone i)) schedule

/-- Records of any size, and every text with a brace in front is a document. -/
def sampleFormat : Format where
  valid := fun _ => true
  json := fun _ => .document
  migrated := fun _ now => lit "\x7b\"timestamp\":" ++ decimal now ++ lit "\x7d"

/-- The update of `a|title|text` waits for the lock that it holds. -/
theorem update_waits_for_itself : ([0].foldl Threads.step
      ⟨fun _ => (Operation.update (lit "doc:c:a") (lit "a|title|text") false 1).locks sampleFormat
        ⟨fun _ => 7, fun _ => 7, false⟩, fun _ => none⟩).Deadlocked :=
  deadlocked_of_reacquire (l := .document 7) ⟨_, rfl⟩

/-! ## The write-back

The record of one document. `AddDocument`, `UpdateDocument` and `DeleteDocument` change it under the lock
of the key, and so does the second look of `GetDocument`, so each of these is one step. -/

/-- The record, empty when there is none, and what the calls of `GetDocument` have read that are about
to migrate it. -/
structure Migrating where
  record : Bytes
  readers : Nat → Option Bytes := fun _ => none

inductive RecordEvent where
  | read (i : Nat)
  | migrate (i : Nat) (now : Nat)
  | put (record : Bytes)
  | delete

variable (s : Migrating)

def Migrating.step : RecordEvent → Migrating
  | .read i =>
    { s with readers :=
        Function.update s.readers i (if needsMigration f s.record then some s.record else none) }
  | .migrate i now =>
    { record := match s.readers i with
        | some record => if showsTimestamp s.record then s.record else f.migrated record now
        | none => s.record
      readers := Function.update s.readers i none }
  | .put record => { s with record }
  | .delete => { s with record := [] }

/-- What a write-back goes over is the record that it was made from. -/
def Migrating.Faithful : RecordEvent → Prop
  | .migrate i _ => ∀ record, s.readers i = some record → showsTimestamp s.record = false →
      s.record = record
  | _ => True

/-- The record is changed while no other call is between its two looks. -/
def Migrating.Meets : RecordEvent → Prop
  | .read _ => True
  | .migrate i _ => ∀ j, j ≠ i → s.readers j = none
  | .put _ | .delete => ∀ j, s.readers j = none

def Migrating.Fresh : Prop := ∀ i record, s.readers i = some record → s.record = record

theorem Migrating.Fresh.step {s : Migrating} (h : s.Fresh) {e : RecordEvent} (he : s.Meets e) :
    (s.step f e).Fresh := by
  intro j record hj
  cases e with
  | read i =>
    simp only [Migrating.step, Function.update_apply] at hj ⊢
    split_ifs at hj
    · exact Option.some.inj hj
    · exact h j record hj
  | migrate i now =>
    simp only [Migrating.step, Function.update_apply] at hj
    split_ifs at hj with hji
    simp [he j hji] at hj
  | put new => simp [Migrating.step, he j] at hj
  | delete => simp [Migrating.step, he j] at hj

/-- **In a run whose events meet the condition every write-back goes over the record that it was made
from**, never over a newer one or a deleted one. -/
theorem writeBack_faithful (record : Bytes) (events : List RecordEvent)
    (hmeet : Along (Migrating.step f) Migrating.Meets { record } events) :
    Along (Migrating.step f) Migrating.Faithful { record } events := by
  refine hmeet.imp (I := Migrating.Fresh) (fun hs he => hs.step f he) ?_ (fun _ _ h => nomatch h)
  intro s e hs _
  cases e with
  | migrate i now => exact fun old hold _ => hs i old hold
  | _ => trivial

theorem writeBack_faithful_alone :
    Along (Migrating.step sampleFormat) Migrating.Faithful { record := lit "a|title|text" }
      [.read 0, .migrate 0 5, .delete] := by
  refine writeBack_faithful _ _ _ ⟨trivial, ?_, ?_, trivial⟩
  · intro j hj
    simp [Migrating.step, hj]
  · intro j
    simp [Migrating.step]

/-- The record of the first read goes over a newer one, and over nothing: the document is back. -/
theorem writeBack_over_newer :
    let s : Migrating := { record := lit "a|title|text" }
    ([.read 0, .put (lit "\x7b\"id\":\"a\"\x7d"), .migrate 0 5].foldl (Migrating.step sampleFormat)
        s).record = sampleFormat.migrated (lit "a|title|text") 5 ∧
      ([.read 0, .delete, .migrate 0 5].foldl (Migrating.step sampleFormat) s).record =
        sampleFormat.migrated (lit "a|title|text") 5 := by
  decide +kernel

end Hlquery.Collections
