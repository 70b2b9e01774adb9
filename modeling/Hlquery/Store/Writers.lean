import Hlquery.Store.Moves
import Hlquery.Store.Runs

/-!
# Writers at the same time

`SetDocument` and `DeleteDocument` hold the mutex of their key while they work;
`BatchSetDocuments` holds none. All three keep the segment where it is by holding `WriteMutex`
shared over their two writes, and rotation takes it exclusively. Here the calls are cut into the steps
between which other threads run, and any number of calls are interleaved in any way.

A batch that has written to the segment but not yet to the system database can meet a deletion of one
of its keys: the deletion hides the document and erases it from the segment, then the batch lifts the
tombstone and points the location record at a segment that has nothing. A reader goes on to the older
segments, and may find an old version there. `writers_serial` says that this meeting is all that can
go wrong: in every run in which no such batch and no such deletion are under way together, the
documents after the last call are those of the calls one after another, in the order in which they
wrote to the segment or put the tombstone.
-/

set_option autoImplicit false

namespace Hlquery.Store.SegmentManager

open Hlquery.Bytes

/-! ## The calls in steps -/

inductive WriteCall where
  | set (key value : Bytes)
  | batch (keyValues : List (Bytes × Bytes))
  | delete (key : Bytes)
  deriving DecidableEq

namespace WriteCall

def op : WriteCall → Op
  | .set key value => .setDocument key value
  | .batch keyValues => .batchSetDocuments keyValues
  | .delete key => .deleteDocument key

def writes : WriteCall → List (Bytes × Bytes)
  | .set key value => [(key, value)]
  | .batch keyValues => keyValues
  | .delete _ => []

def locks : WriteCall → Option Bytes
  | .set key _ => some key
  | .batch _ => none
  | .delete key => some key

def keys : WriteCall → List Bytes
  | .set key _ => [key]
  | .batch keyValues => keyValues.map Prod.fst
  | .delete key => [key]

end WriteCall

inductive Phase where
  | start
  /-- At the head of the loop, the mutex of the key taken. -/
  | trying
  /-- Before `EnsureActiveSegmentCapacity`. -/
  | waiting
  /-- Room is reserved in the active segment; `WriteMutex` is held shared from here on. -/
  | reserved (active : Bytes)
  /-- The documents are in the segment. -/
  | written (active : Bytes)
  /-- The location records are written. -/
  | located (active : Bytes)
  /-- Before `RotateActiveSegmentIfNeeded`. -/
  | rotating
  /-- The tombstone is written and the location record gone; `WriteMutex` is held shared. -/
  | buried
  | done
  deriving DecidableEq

/-- Whether `WriteMutex` is held shared. -/
def Phase.shares : Phase → Bool
  | .reserved _ | .written _ | .located _ | .buried => true
  | _ => false

def Phase.locks : Phase → Bool
  | .start | .done => false
  | _ => true

abbrev Thread := WriteCall × Phase

/-- The mutex that a thread holds, as an index into `KeyMutexes`. -/
def Thread.mutex (stripe : Bytes → Nat) (t : Thread) : Option Nat :=
  if t.2.locks then t.1.locks.map stripe else none

/-- A batch between its two writes, and a deletion of one of its keys between its own. -/
def Thread.meets : Thread → Thread → Bool
  | (.batch keyValues, .written _), (.delete key, .buried) =>
    (keyValues.map Prod.fst).contains key
  | _, _ => false

structure Writers where
  m : SegmentManager
  threads : List Thread

namespace Writers

def begin (m : SegmentManager) (calls : List WriteCall) : Writers :=
  { m, threads := calls.map fun call => (call, .start) }

/-- Whether some thread keeps `WriteMutex` from being taken exclusively. -/
def shared (w : Writers) : Bool := w.threads.any fun t => t.2.shares

def mutexTaken (stripe : Bytes → Nat) (w : Writers) (key : Bytes) : Bool :=
  w.threads.any fun t => t.mutex stripe == some (stripe key)

/-- The thread `i` goes on to `phase`, with the store `m`. -/
def goOn (w : Writers) (i : Nat) (call : WriteCall) (m : SegmentManager) (phase : Phase) : Writers :=
  { m, threads := w.threads.set i (call, phase) }

/-- The first step: the keys are parsed and the mutex of the key is taken. A thread that finds the
mutex taken stays where it is. -/
def enter (stripe : Bytes → Nat) (w : Writers) (i : Nat) (call : WriteCall) : Option Writers :=
  if call.keys.any fun key => (parseDocKey key).isNone then none
  else match call with
    | .batch [] => some (w.goOn i call w.m .done)
    | .batch (_ :: _) => some (w.goOn i call w.m .trying)
    | .set key _ | .delete key =>
      if w.mutexTaken stripe key then some w else some (w.goOn i call w.m .trying)

/-- The head of the loop of the two writers, or the first write of `DeleteDocument`. -/
def attemptWrite (env : Env) (w : Writers) (i : Nat) (call : WriteCall) : Option Writers :=
  let documents := call.writes.length.toUInt64
  let bytes := documentBytes call.writes
  match call with
  | .delete key =>
    let (collection, docId) := (parseDocKey key).getD ([], [])
    let (nowMs, m) := readClock env w.m
    match attempt env m fun m => m.writeSystem (tombstoneUpdates collection docId nowMs) with
    | (false, _) => none
    | (true, m) => some (w.goOn i call m .buried)
  | .set .. | .batch _ =>
    match w.m.activeSegment, w.m.activeSegmentHasCapacityLocked documents bytes with
    | some active, true => some (w.goOn i call (w.m.reserve documents bytes) (.reserved active))
    | _, _ => some (w.goOn i call w.m .waiting)

/-- One step of thread `i`; `none` when the call does not report success. -/
def turn (env : Env) (stripe : Bytes → Nat) (w : Writers) (i : Nat) : Option Writers :=
  match w.threads[i]? with
  | none => some w
  | some (call, phase) =>
    let documents := call.writes.length.toUInt64
    let bytes := documentBytes call.writes
    match phase with
    | .start => w.enter stripe i call
    | .trying => w.attemptWrite env i call
    | .waiting =>
      if w.shared then some w
      else match ensureActiveSegmentCapacity env w.m documents bytes with
        | (false, _) => none
        | (true, m) => some (w.goOn i call m .trying)
    | .reserved active =>
      match attempt env w.m fun m => m.setDatabase active
          ((m.database active).write (call.writes.map fun kv => .put kv.1 kv.2)) with
      | (false, _) => none
      | (true, m) => some (w.goOn i call m (.written active))
    | .written active =>
      let (timestampMs, m) := readClock env w.m
      match attempt env m fun m => m.writeSystem
          (call.writes.flatMap fun kv => locationUpdates active timestampMs kv.1) with
      | (false, _) => none
      | (true, m) => some (w.goOn i call m (.located active))
    | .located active =>
      match persistActiveMetadataIfNeededLocked env
          ((w.m.unreserve documents bytes).countWritten active documents bytes) with
      | (false, _) => none
      | (true, m) => some (w.goOn i call m
          (if m.shouldRotateActiveLocked then .rotating else .done))
    | .rotating =>
      if w.shared then some w
      else match rotateActiveSegmentIfNeeded env w.m with
        | (false, _) => none
        | (true, m) => some (w.goOn i call m .done)
    | .buried =>
      match call with
      | .delete key => some (w.goOn i call (w.m.eraseFromActive env key) .done)
      | .set .. | .batch _ => some w
    | .done => some w

def run (env : Env) (stripe : Bytes → Nat) (w : Writers) (schedule : List Nat) : Option Writers :=
  schedule.foldlM (turn env stripe) w

/-- No batch is between its two writes while a deletion of one of its keys is between its own. -/
def Apart (w : Writers) : Prop := ∀ t ∈ w.threads, ∀ u ∈ w.threads, t.meets u = false

instance (w : Writers) : Decidable w.Apart :=
  inferInstanceAs (Decidable (∀ t ∈ w.threads, ∀ u ∈ w.threads, t.meets u = false))

theorem Apart.not_mem {w : Writers} (h : w.Apart) {keyValues : List (Bytes × Bytes)}
    {active key : Bytes} (hbatch : (WriteCall.batch keyValues, Phase.written active) ∈ w.threads)
    (hdelete : (WriteCall.delete key, Phase.buried) ∈ w.threads) :
    key ∉ keyValues.map Prod.fst := by
  have hmeets := h _ hbatch _ hdelete
  simpa [Thread.meets] using hmeets

end Writers

/-! ## One after another -/

/-- **The calls as if one after another**: each key reads as the last call in some order left it. -/
def Serial (env : Env) (docs : ByteMap Bytes) (calls : List WriteCall) (m : SegmentManager) : Prop :=
  ∃ order : List WriteCall, order.Perm calls ∧
    ∀ key, (m.getDocument env key).1 =
      (((order.map WriteCall.op).foldl specStep docs)[key]?).getD []

/-! ## Threads -/

def Thread.pending (t : Thread) (k : DocKey) : Bool :=
  match t.2 with
  | .written _ => (t.1.writes.map Prod.fst).contains k.toBytes
  | _ => false

def Phase.counts : Phase → Bool
  | .start | .trying | .waiting | .reserved _ => false
  | _ => true

def Phase.segment : Phase → Option Bytes
  | .reserved active | .written active | .located active => some active
  | _ => none

def Thread.hides : Thread → Option Bytes
  | (.delete key, .buried) => some key
  | _ => none

namespace Writers

def pending (w : Writers) (k : DocKey) : Bool := w.threads.any fun t => t.pending k

def counted (w : Writers) : List WriteCall := (w.threads.filter fun t => t.2.counts).map Prod.fst

theorem split_at {w : Writers} {i : Nat} {t : Thread} (h : w.threads[i]? = some t) :
    ∃ before after, w.threads = before ++ t :: after ∧
      ∀ t', w.threads.set i t' = before ++ t' :: after := by
  obtain ⟨hlt, rfl⟩ := List.getElem?_eq_some_iff.mp h
  refine ⟨w.threads.take i, w.threads.drop (i + 1), ?_,
    fun t' => List.set_eq_take_append_cons_drop.trans (if_pos hlt)⟩
  rw [← List.drop_eq_getElem_cons hlt, List.take_append_drop]

section GoOn

variable {w : Writers} {i : Nat} {call : WriteCall} {phase phase' : Phase} {m : SegmentManager}

section

variable (h : w.threads[i]? = some (call, phase))
include h

theorem mem_goOn {t : Thread}
    (ht : t ∈ (w.goOn i call m phase').threads) : t = (call, phase') ∨ t ∈ w.threads := by
  obtain ⟨before, after, hw, hset⟩ := split_at h
  rw [goOn, hset, List.mem_append, List.mem_cons] at ht
  rw [hw, List.mem_append, List.mem_cons]
  rcases ht with ht | ht | ht
  · exact .inr (.inl ht)
  · exact .inl ht
  · exact .inr (.inr (.inr ht))

theorem perm_goOn (hc : phase'.counts = phase.counts)
    {order : List WriteCall} (hperm : order.Perm w.counted) :
    order.Perm (w.goOn i call m phase').counted := by
  obtain ⟨before, after, hw, hset⟩ := split_at h
  unfold counted at hperm
  unfold counted goOn
  rw [hset]
  rw [hw] at hperm
  cases hp : phase.counts <;> simpa [hc, hp] using hperm

theorem perm_goOn_new (hold : phase.counts = false)
    (hnew : phase'.counts = true) {order : List WriteCall} (hperm : order.Perm w.counted) :
    (order ++ [call]).Perm (w.goOn i call m phase').counted := by
  obtain ⟨before, after, hw, hset⟩ := split_at h
  refine (hperm.append_right [call]).trans ?_
  unfold counted goOn
  rw [hset, hw]
  simp only [List.filter_append, List.filter_cons, hold, hnew, if_true, Bool.false_eq_true, if_false,
    List.map_append, List.map_cons, List.append_assoc]
  exact List.Perm.append_left _ (List.perm_append_singleton _ _)

end

theorem pending_goOn (m : SegmentManager) (phase' : Phase)
    (h : w.threads[i]? = some (call, phase)) (k : DocKey) :
    ∃ others, w.pending k = (Thread.pending (call, phase) k || others) ∧
      (w.goOn i call m phase').pending k = (Thread.pending (call, phase') k || others) := by
  obtain ⟨before, after, hw, hset⟩ := split_at h
  refine ⟨before.any (fun t => t.pending k) || after.any fun t => t.pending k, ?_, ?_⟩
  · rw [pending, hw, List.any_append, List.any_cons, Bool.or_left_comm]
  · rw [pending, goOn, hset, List.any_append, List.any_cons, Bool.or_left_comm]

/-- A step that leaves no write on its way behind, and finds none. -/
theorem pending_goOn_same (h : w.threads[i]? = some (call, phase))
    (hold : ∀ k, Thread.pending (call, phase) k = false)
    (hnew : ∀ k, Thread.pending (call, phase') k = false) :
    (w.goOn i call m phase').pending = w.pending := by
  funext k
  obtain ⟨others, h₁, h₂⟩ := pending_goOn m phase' h k
  rw [h₁, h₂, hold, hnew]

theorem calls_goOn (h : w.threads[i]? = some (call, phase)) :
    (w.goOn i call m phase').threads.map Prod.fst = w.threads.map Prod.fst := by
  obtain ⟨before, after, hw, hset⟩ := split_at h
  show (w.threads.set i (call, phase')).map Prod.fst = _
  rw [hset, hw]
  simp

end GoOn

/-! ## The invariant -/

/-- **The calls that have taken effect have done so in some order**, and nothing keeps the others
from following. -/
structure Inv (stripe : Bytes → Nat) (docs : ByteMap Bytes) (calls : List WriteCall) (w : Writers) :
    Prop where
  calls : w.threads.map Prod.fst = calls
  serial : ∃ order : List WriteCall, order.Perm w.counted ∧
    w.m.Settling w.pending ((order.map WriteCall.op).foldl specStep docs)
  segment : ∀ t ∈ w.threads, ∀ s, t.2.segment = some s → w.m.activeSegment = some s
  keys : ∀ t ∈ w.threads, t.2 ≠ .start → ∀ key ∈ t.1.keys, ∃ k : DocKey, key = k.toBytes
  deletes : ∀ key phase, (WriteCall.delete key, phase) ∈ w.threads → phase.segment = none
  hidden : ∀ t ∈ w.threads, ∀ k : DocKey, t.hides = some k.toBytes → w.m.view.location k = none
  mutex : w.threads.Pairwise fun a b => ∀ n, a.mutex stripe = some n → b.mutex stripe ≠ some n

variable {docs : ByteMap Bytes} {stripe : Bytes → Nat} {calls : List WriteCall} {w : Writers}
  {m : SegmentManager} {call : WriteCall} {phase : Phase} {i : Nat} {phase' : Phase}

theorem inv_begin (stripe : Bytes → Nat) (h : m.Represented docs) (calls : List WriteCall) :
    Inv stripe docs calls (begin m calls) := by
  have hstart : ∀ t ∈ (begin m calls).threads, t.2 = .start := by
    intro t ht
    obtain ⟨call, -, rfl⟩ := List.mem_map.mp ht
    rfl
  refine ⟨?_, ⟨[], ?_, h.settling fun k => ?_⟩, ?_, ?_, ?_, ?_, ?_⟩
  · rw [begin, List.map_map]
    exact List.map_id _
  · rw [counted, List.filter_eq_nil_iff.mpr fun t ht => by simp [hstart t ht, Phase.counts]]
    exact .refl _
  · refine List.any_eq_false.mpr fun t ht => ?_
    simp [Thread.pending, hstart t ht]
  · intro t ht s hs
    simp [hstart t ht, Phase.segment] at hs
  · intro t ht hne
    exact absurd (hstart t ht) hne
  · intro key phase ht
    rw [show phase = .start from hstart _ ht]
    rfl
  · intro t ht k hk
    obtain ⟨call, -, rfl⟩ := List.mem_map.mp ht
    cases call <;> simp [Thread.hides] at hk
  · refine List.pairwise_iff_getElem.mpr fun a b ha hb _ n hn => ?_
    simp [Thread.mutex, hstart _ (List.getElem_mem ha), Phase.locks] at hn

/-- What has to be known of a step. -/
theorem Inv.goOn (h : Inv stripe docs calls w) (ht : w.threads[i]? = some (call, phase))
    (hserial : ∃ order : List WriteCall, order.Perm (w.goOn i call m phase').counted ∧
      m.Settling (w.goOn i call m phase').pending ((order.map WriteCall.op).foldl specStep docs))
    (hactive : w.shared = false ∨ m.activeSegment = w.m.activeSegment)
    (hsegment : ∀ s, phase'.segment = some s → m.activeSegment = some s)
    (hkeys : ∀ key ∈ call.keys, ∃ k : DocKey, key = k.toBytes)
    (hdelete : ∀ key, call = .delete key → phase'.segment = none)
    (hhidden : ∀ k : DocKey, w.m.view.location k = none →
      (∃ t ∈ w.threads, t.hides = some k.toBytes) → m.view.location k = none)
    (hhides : ∀ k : DocKey, Thread.hides (call, phase') = some k.toBytes → m.view.location k = none)
    (hmutex : ∀ n, Thread.mutex stripe (call, phase') = some n →
      Thread.mutex stripe (call, phase) = some n ∨ ∀ t ∈ w.threads, t.mutex stripe ≠ some n) :
    Inv stripe docs calls (w.goOn i call m phase') := by
  refine ⟨(calls_goOn ht).trans h.calls, hserial, fun t hmem s hs => ?_, fun t hmem hne key hkey => ?_, fun key p hmem => ?_,
    fun t hmem k hk => ?_, ?_⟩
  · rcases mem_goOn ht hmem with rfl | hmem
    · exact hsegment s hs
    · rcases hactive with hshared | hsame
      · have hno := List.any_eq_false.mp hshared t hmem
        obtain ⟨c, p⟩ := t
        cases p <;> simp_all [Phase.segment, Phase.shares]
      · exact hsame.trans (h.segment t hmem s hs)
  · rcases mem_goOn ht hmem with rfl | hmem
    · exact hkeys key hkey
    · exact h.keys t hmem hne key hkey
  · rcases mem_goOn ht hmem with heq | hmem
    · rw [(Prod.mk.inj heq).2]
      exact hdelete key (Prod.mk.inj heq).1.symm
    · exact h.deletes key p hmem
  · rcases mem_goOn ht hmem with rfl | hmem
    · exact hhides k hk
    · exact hhidden k (h.hidden t hmem k hk) ⟨t, hmem, hk⟩
  · obtain ⟨before, after, hw, hset⟩ := split_at ht
    have hpw := h.mutex
    rw [hw, List.pairwise_append, List.pairwise_cons] at hpw
    show (w.threads.set i (call, phase')).Pairwise _
    rw [hset, List.pairwise_append, List.pairwise_cons]
    obtain ⟨hbefore, ⟨hcur, hafter⟩, hcross⟩ := hpw
    refine ⟨hbefore, ⟨fun b hb n hn => ?_, hafter⟩, fun a ha b hb n hn => ?_⟩
    · rcases hmutex n hn with hold | hfree
      · exact hcur b hb n hold
      · exact hfree b (by rw [hw]; simp [hb])
    · rcases List.mem_cons.mp hb with rfl | hb
      · intro hn'
        rcases hmutex n hn' with hold | hfree
        · exact hcross a ha _ (List.mem_cons_self ..) n hn hold
        · exact hfree a (by rw [hw]; simp [ha]) hn
      · exact hcross a ha b (List.mem_cons_of_mem _ hb) n hn

/-- A `SetDocument` under way keeps a `DeleteDocument` of its key out. -/
theorem Inv.set_delete (h : Inv stripe docs calls w) {key value : Bytes} {p q : Phase}
    (hset : (WriteCall.set key value, p) ∈ w.threads) (hp : p.locks = true)
    (hdelete : (WriteCall.delete key, q) ∈ w.threads) (hq : q.locks = true) : False := by
  have : Std.Symm fun a b : Thread => ∀ n, a.mutex stripe = some n → b.mutex stripe ≠ some n :=
    ⟨fun a b hab n hb ha => hab n ha hb⟩
  refine h.mutex.forall hset hdelete (by simp) (stripe key) ?_ ?_
  · simp [Thread.mutex, hp, WriteCall.locks]
  · simp [Thread.mutex, hq, WriteCall.locks]

theorem pending_iff {k : DocKey} : Thread.pending (call, phase) k = true ↔
      (∃ active, phase = .written active) ∧ k.toBytes ∈ call.writes.map Prod.fst := by
  unfold Thread.pending
  cases phase <;> simp

section

variable (h : Inv stripe docs calls w)
include h

/-- While nothing is hidden that is on its way, the two kinds of writes do not meet. -/
theorem Inv.pending_false {k : DocKey} {q : Phase}
    (hdelete : (WriteCall.delete k.toBytes, q) ∈ w.threads) (hq : q.locks = true)
    (hbatch : ∀ keyValues active, (WriteCall.batch keyValues, Phase.written active) ∈ w.threads →
      k.toBytes ∉ keyValues.map Prod.fst) : w.pending k = false := by
  refine List.any_eq_false.mpr fun t ht hpending => ?_
  obtain ⟨call, phase⟩ := t
  obtain ⟨⟨active, rfl⟩, hmem⟩ := pending_iff.mp hpending
  cases call with
  | set key value =>
    obtain rfl : k.toBytes = key := by simpa [WriteCall.writes] using hmem
    exact h.set_delete ht rfl hdelete hq
  | batch keyValues => exact hbatch keyValues active ht hmem
  | delete key => simp [WriteCall.writes] at hmem

/-- What a step without any write does: the call stays where it was in the order. -/
theorem Inv.step_quiet (ht : w.threads[i]? = some (call, phase))
    (q : Quiet w.m m) (hcounts : phase'.counts = phase.counts)
    (hold : ∀ k, Thread.pending (call, phase) k = false)
    (hnew : ∀ k, Thread.pending (call, phase') k = false)
    (hsegment : ∀ s, phase'.segment = some s → w.m.activeSegment = some s)
    (hkeys : ∀ key ∈ call.keys, ∃ k : DocKey, key = k.toBytes)
    (hdelete : ∀ key, call = .delete key → phase'.segment = none)
    (hhides : Thread.hides (call, phase') = none)
    (hmutex : ∀ n, Thread.mutex stripe (call, phase') = some n →
      Thread.mutex stripe (call, phase) = some n ∨ ∀ t ∈ w.threads, t.mutex stripe ≠ some n) :
    Inv stripe docs calls (w.goOn i call m phase') := by
  obtain ⟨order, hperm, hsettling⟩ := h.serial
  refine h.goOn ht ⟨order, ?_, ?_⟩ (.inr q.activeSegment)
    (fun s hs => q.activeSegment.trans (hsegment s hs)) hkeys hdelete
    (fun k hk _ => by rw [q.view_eq]; exact hk)
    (fun k hk => absurd hk (by rw [hhides]; simp)) hmutex
  · exact perm_goOn ht hcounts hperm
  · rw [pending_goOn_same ht hold hnew]; exact hsettling.quiet q

theorem Inv.step_rotated (ht : w.threads[i]? = some (call, phase))
    (hshared : w.shared = false) (hr : Rotated w.m m) (hcounts : phase'.counts = phase.counts)
    (hlocks : phase.locks = true) (hnew : ∀ k, Thread.pending (call, phase') k = false)
    (hsegment : phase'.segment = none) (hkeys : ∀ key ∈ call.keys, ∃ k : DocKey, key = k.toBytes)
    (hhides : Thread.hides (call, phase') = none) :
    Inv stripe docs calls (w.goOn i call m phase') := by
  have hidle : ∀ t ∈ w.threads, ∀ k, t.pending k = false := by
    intro t hmem k
    have hno := List.any_eq_false.mp hshared t hmem
    obtain ⟨c, p⟩ := t
    cases p <;> simp_all [Thread.pending, Phase.shares]
  have hnone : ∀ k, w.pending k = false := fun k =>
    List.any_eq_false.mpr fun t hmem => by simp [hidle t hmem k]
  obtain ⟨order, hperm, hsettling⟩ := h.serial
  refine h.goOn ht ⟨order, ?_, ?_⟩ (.inl hshared) (fun s hs => absurd hs (by rw [hsegment]; simp))
    hkeys (fun _ _ => hsegment) (fun k hk _ => ?_) (fun k hk => absurd hk (by rw [hhides]; simp))
    (fun n hn => .inl ?_)
  · exact perm_goOn ht hcounts hperm
  · rw [pending_goOn_same ht (hidle _ (List.mem_of_getElem? ht)) hnew]
    exact hsettling.rotated hnone hr
  · show (m.systemDB[docLocationPrefix ++ k.rest]?).map segmentIdOfRecord = none
    rw [hr.location]
    exact hk
  · have hlocks' : phase'.locks = true ∨ phase'.locks = false := by cases phase'.locks <;> simp
    rcases hlocks' with h' | h'
    · simpa [Thread.mutex, h', hlocks] using hn
    · simp [Thread.mutex, h'] at hn

end

section Turns

variable {env : Env} {stripe : Bytes → Nat} {docs : ByteMap Bytes} {calls : List WriteCall}
  {w w' : Writers} {i : Nat} {call : WriteCall}

theorem Inv.enter (h : Inv stripe docs calls w) (ht : w.threads[i]? = some (call, .start))
    (hturn : w.enter stripe i call = some w') : Inv stripe docs calls w' := by
  unfold Writers.enter at hturn
  split at hturn
  · cases hturn
  rename_i hparse
  have hkeys : ∀ key ∈ call.keys, ∃ k : DocKey, key = k.toBytes := by
    intro key hkey
    rw [← parseDocKey_isSome_iff]
    by_contra hnone
    refine hparse (List.any_eq_true.mpr ⟨key, hkey, ?_⟩)
    simpa using hnone
  have hlock : ∀ {key}, call.locks = some key → ¬ w.mutexTaken stripe key = true →
      Inv stripe docs calls (w.goOn i call w.m .trying) := by
    intro key hcall hfree
    refine h.step_quiet ht (.refl _) rfl (fun _ => rfl) (fun _ => rfl) nofun hkeys (fun _ _ => rfl)
      (by cases call <;> rfl) fun n hn => ?_
    refine .inr fun t hmem hn' => hfree (List.any_eq_true.mpr ⟨t, hmem, ?_⟩)
    have : n = stripe key := by simpa [Thread.mutex, Phase.locks, hcall, eq_comm] using hn
    rw [hn', this, beq_self_eq_true]
  split at hturn
  · -- an empty batch has nothing to do
    cases hturn
    obtain ⟨order, hperm, hsettling⟩ := h.serial
    refine h.goOn ht ⟨order ++ [.batch []], ?_, ?_⟩ (.inr rfl)
      nofun hkeys (fun _ _ => rfl) (fun _ hk _ => hk)
      nofun (fun n hn => by
        simp [Thread.mutex, Phase.locks] at hn)
    · exact perm_goOn_new ht rfl rfl hperm
    · rw [pending_goOn_same ht (fun _ => rfl) (fun _ => rfl), List.map_append, List.foldl_append]
      exact hsettling
  · cases hturn
    refine h.step_quiet ht (.refl _) rfl (fun _ => rfl) (fun _ => rfl)
      nofun hkeys (fun _ _ => rfl) rfl fun n hn => ?_
    simp [Thread.mutex, Phase.locks, WriteCall.locks] at hn
  all_goals
    split at hturn
    · cases hturn; exact h
    rename_i hfree
    cases hturn
    exact hlock rfl hfree

/-- A call that writes documents and holds the mutex of its key keeps it. -/
theorem mutex_of_locks {phase phase' : Phase} (hlocks : phase.locks = true) (n : Nat)
    (hn : Thread.mutex stripe (call, phase') = some n) :
    Thread.mutex stripe (call, phase) = some n ∨ ∀ t ∈ w.threads, t.mutex stripe ≠ some n := by
  unfold Thread.mutex at hn ⊢
  split at hn
  · exact .inl (by rw [if_pos hlocks]; exact hn)
  · cases hn

theorem Inv.attemptWrite (h : Inv stripe docs calls w) (ht : w.threads[i]? = some (call, .trying))
    (hapart' : w'.Apart) (hturn : w.attemptWrite env i call = some w') : Inv stripe docs calls w' := by
  have hmem := List.mem_of_getElem? ht
  have hkeys := h.keys _ hmem (by simp)
  unfold Writers.attemptWrite at hturn
  dsimp only at hturn
  split at hturn
  · rename_i key
    obtain ⟨k, rfl⟩ := hkeys key (by simp [WriteCall.keys])
    rw [parseDocKey_toBytes] at hturn
    split at hturn
    · cases hturn
    · rename_i m hattempt
      rw [← Option.some.inj hturn] at hapart' ⊢
      have hbury : Quiet (w.m.writeSystem (tombstoneUpdates k.collection k.docId
          (readClock env w.m).1)) m := by
        rw [attempt_ok hattempt]
        exact .of_eq rfl rfl rfl rfl rfl
      obtain ⟨before, after, hw, hset⟩ := split_at ht
      -- a batch that is under way now is so after the step too
      have hpending : w.pending k = false := by
        refine h.pending_false hmem rfl fun keyValues active hbatch => ?_
        refine @Apart.not_mem _ hapart' keyValues active _ ?_ ?_
        · show _ ∈ w.threads.set i _
          rw [hset]
          rw [hw] at hbatch
          simpa using hbatch
        · show _ ∈ w.threads.set i _
          rw [hset]
          simp
      obtain ⟨order, hperm, hsettling⟩ := h.serial
      refine h.goOn ht ⟨order ++ [.delete k.toBytes], ?_, ?_⟩ (.inr hbury.activeSegment)
        (by rintro _ ⟨⟩) hkeys (fun _ _ => rfl) (fun k' hk' _ => ?_) (fun k' hk' => ?_) (mutex_of_locks rfl)
      · exact perm_goOn_new ht rfl rfl hperm
      · rw [pending_goOn_same ht (fun _ => rfl) (fun _ => rfl), List.map_append, List.foldl_append]
        exact (hsettling.bury hpending _).quiet hbury
      · rw [hbury.view_eq, tombstoneUpdates_view]
        simp [RoutedStore.bury, hk']
      · obtain rfl : k = k' := by simpa [Thread.hides] using hk'
        rw [hbury.view_eq]
        exact buryOne_location ..
  all_goals
    split at hturn
    · rename_i active hactive _
      cases hturn
      refine h.step_quiet ht (.of_eq rfl rfl rfl rfl rfl) rfl (fun _ => rfl) (fun _ => rfl)
        (fun s hs => ?_) hkeys (by rintro _ ⟨⟩) rfl (mutex_of_locks rfl)
      rw [hactive]
      exact hs
    · cases hturn
      exact h.step_quiet ht (.refl _) rfl (fun _ => rfl) (fun _ => rfl)
        (by rintro _ ⟨⟩) hkeys (fun _ _ => rfl) rfl (mutex_of_locks rfl)

/-- A call that writes documents puts them all into the map. -/
theorem specStep_writes {call : WriteCall} (h : ∀ key, call ≠ .delete key) (docs : ByteMap Bytes) :
    specStep docs call.op = docs.insertAll call.writes := by
  cases call with
  | set key value => rfl
  | batch keyValues => rfl
  | delete key => exact absurd rfl (h key)

theorem keys_of_writes {call : WriteCall} {key : Bytes} (h : key ∈ call.writes.map Prod.fst) :
    key ∈ call.keys := by
  cases call with
  | set k v => simpa [WriteCall.writes, WriteCall.keys] using h
  | batch keyValues => exact h
  | delete k => simp [WriteCall.writes] at h

section

variable (h : Inv stripe docs calls w)
include h

/-- The write to the segment gives the call its place in the order. -/
theorem Inv.write_segment {active : Bytes} {m : SegmentManager}
    (ht : w.threads[i]? = some (call, .reserved active))
    (hattempt : attempt env w.m (fun m => m.setDatabase active
      ((m.database active).write (call.writes.map fun kv => .put kv.1 kv.2))) = (true, m)) :
    Inv stripe docs calls (w.goOn i call m (.written active)) := by
  have hmem := List.mem_of_getElem? ht
  have hkeys := h.keys _ hmem (by simp)
  have hactive := h.segment _ hmem active rfl
  have hnodelete : ∀ key, call ≠ .delete key := by
    rintro key rfl
    exact absurd (h.deletes key _ hmem) (by simp [Phase.segment])
  have q : Quiet (w.m.setDatabase active
      ((w.m.database active).write (call.writes.map fun kv => .put kv.1 kv.2))) m := by
    rw [attempt_ok hattempt]
    exact .of_eq rfl rfl rfl rfl rfl
  have hmactive : m.activeSegment = some active := q.activeSegment.trans hactive
  obtain ⟨order, hperm, hsettling⟩ := h.serial
  refine h.goOn ht ⟨order ++ [call], ?_, ?_⟩ (.inr q.activeSegment)
    (fun s hs => by rw [hmactive]; exact hs) hkeys (fun key hc => absurd hc (hnodelete key))
    (fun k hk _ => by rw [q.view_eq]; exact hk)
    (fun k hk => absurd hk (by cases call <;> simp [Thread.hides])) (mutex_of_locks rfl)
  · exact perm_goOn_new ht rfl rfl hperm
  · rw [List.map_append, List.foldl_append, List.map_singleton, List.foldl_cons, List.foldl_nil,
      specStep_writes hnodelete]
    refine (hsettling.store hactive (fun key hkey => hkeys key (keys_of_writes hkey))
      fun k => ?_).quiet q
    obtain ⟨others, hw, hw'⟩ := pending_goOn m (.written active) ht k
    rw [hw, hw', Bool.or_eq_true, Bool.or_eq_true, pending_iff, pending_iff]
    simp [or_comm]

theorem Inv.write_locations {active : Bytes} {m : SegmentManager}
    (hapart : w.Apart) (ht : w.threads[i]? = some (call, .written active)) (timestampMs : UInt64)
    (q : Quiet (w.m.writeSystem
      (call.writes.flatMap fun kv => locationUpdates active timestampMs kv.1)) m) :
    Inv stripe docs calls (w.goOn i call m (.located active)) := by
  have hmem := List.mem_of_getElem? ht
  have hkeys := h.keys _ hmem (by simp)
  have hwritten := fun key hkey => hkeys key (keys_of_writes hkey)
  have hactive := h.segment _ hmem active rfl
  obtain ⟨order, hperm, hsettling⟩ := h.serial
  refine h.goOn ht ⟨order, ?_, ?_⟩ (.inr q.activeSegment)
    (fun s hs => by rw [q.activeSegment]; exact hactive.trans hs) hkeys
    (fun key hc => absurd (h.deletes key _ (hc ▸ hmem)) (by simp [Phase.segment])) ?_
    (fun k hk => absurd hk (by cases call <;> simp [Thread.hides])) (mutex_of_locks rfl)
  · exact perm_goOn ht (by rfl) hperm
  · refine (hsettling.index hactive hwritten (fun k => ?_) timestampMs).quiet q
    obtain ⟨others, hw, hw'⟩ := pending_goOn m (.located active) ht k
    rw [hw, hw', Bool.or_eq_true, Bool.or_eq_true, pending_iff, pending_iff]
    simp [or_comm]
  · -- the keys of the call are not hidden by anybody
    rintro k hk ⟨t, htm, hhides⟩
    obtain ⟨c, p⟩ := t
    obtain ⟨rfl, rfl⟩ : c = .delete k.toBytes ∧ p = .buried := by
      unfold Thread.hides at hhides
      split at hhides
      · rename_i key heq
        rw [Option.some.inj hhides] at heq
        exact ⟨(Prod.mk.inj heq).1, (Prod.mk.inj heq).2⟩
      · cases hhides
    have hnot : k.toBytes ∉ call.writes.map Prod.fst := by
      intro hin
      have hfalse := h.pending_false htm rfl fun keyValues a hb => hapart.not_mem hb htm
      obtain ⟨others, hw, -⟩ := pending_goOn m (.located active) ht k
      rw [hw, (pending_iff.mpr ⟨⟨active, rfl⟩, hin⟩)] at hfalse
      cases hfalse
    have hloc := ((writeSystem_locations active timestampMs k.rest w.m.systemDB hwritten).2 hnot).1
    rw [q.view_eq]
    exact (congrArg (Option.map segmentIdOfRecord) hloc).trans hk

theorem Inv.erase {key : Bytes} (hapart : w.Apart)
    (ht : w.threads[i]? = some (.delete key, .buried)) :
    Inv stripe docs calls (w.goOn i (.delete key) (w.m.eraseFromActive env key) .done) := by
  have hmem := List.mem_of_getElem? ht
  have hkeys := h.keys _ hmem (by simp)
  obtain ⟨k, rfl⟩ := hkeys key (by simp [WriteCall.keys])
  have hpending := h.pending_false hmem rfl fun keyValues a hb => hapart.not_mem hb hmem
  have hloc := h.hidden _ hmem k rfl
  obtain ⟨-, hactive, hsystem⟩ := eraseFromActive_frame env w.m k.toBytes
  obtain ⟨order, hperm, hsettling⟩ := h.serial
  refine h.goOn ht ⟨order, ?_, ?_⟩ (.inr hactive) nofun
    hkeys (fun _ _ => rfl) (fun k' hk' _ => ?_) nofun
    (mutex_of_locks rfl)
  · exact perm_goOn ht (by rfl) hperm
  · rw [pending_goOn_same ht (fun _ => rfl) (fun _ => rfl)]
    exact hsettling.eraseFromActive env hpending hloc
  · show (SegmentManager.systemDB _)[docLocationPrefix ++ k'.rest]?.map segmentIdOfRecord = none
    rw [hsystem]
    exact hk'

/-- **One step keeps the invariant**, if no batch and deletion of the same key are under way. -/
theorem Inv.turn (hapart : w.Apart) (hapart' : w'.Apart)
    (hturn : w.turn env stripe i = some w') : Inv stripe docs calls w' := by
  unfold Writers.turn at hturn
  split at hturn
  · cases hturn; exact h
  rename_i call phase ht
  have hmem := List.mem_of_getElem? ht
  dsimp only at hturn
  split at hturn
  · exact h.enter ht hturn
  · exact h.attemptWrite ht hapart' hturn
  · -- waiting
    split at hturn
    · cases hturn; exact h
    rename_i hshared
    split at hturn
    · cases hturn
    · rename_i m hensure
      cases hturn
      obtain ⟨_, -, hsettling⟩ := h.serial
      exact h.step_rotated ht (by simpa using hshared)
        (ensureActiveSegmentCapacity_ok hsettling.wellFormed hensure) rfl rfl (fun _ => rfl) rfl
        (h.keys _ hmem (by simp)) (by cases call <;> rfl)
  · split at hturn
    · cases hturn
    · rename_i hattempt
      cases hturn
      exact h.write_segment ht hattempt
  · split at hturn
    · cases hturn
    · rename_i hattempt
      cases hturn
      refine h.write_locations hapart ht (readClock env w.m).1 ?_
      rw [attempt_ok hattempt]
      exact .of_eq rfl rfl rfl rfl rfl
  · -- located
    split at hturn
    · cases hturn
    · rename_i m hpersist
      cases hturn
      have q : Quiet w.m m := by
        refine Quiet.trans ?_ (persistActiveMetadataIfNeededLocked_ok hpersist).toQuiet
        exact .of_eq rfl rfl rfl rfl rfl
      have hkeys := h.keys _ hmem (by simp)
      -- a full segment is left to the next lock, and that is all the difference
      split <;>
        exact h.step_quiet ht q rfl (fun _ => rfl) (fun _ => rfl) nofun hkeys (fun _ _ => rfl)
          (by cases call <;> rfl) (mutex_of_locks rfl)
  · -- rotating
    split at hturn
    · cases hturn; exact h
    rename_i hshared
    split at hturn
    · cases hturn
    · rename_i m hrotate
      cases hturn
      obtain ⟨_, -, hsettling⟩ := h.serial
      exact h.step_rotated ht (by simpa using hshared)
        (rotateActiveSegmentIfNeeded_ok hsettling.wellFormed hrotate) rfl rfl (fun _ => rfl) rfl
        (h.keys _ hmem (by simp)) (by cases call <;> rfl)
  · split at hturn
    · cases hturn; exact h.erase hapart ht
    · cases hturn; exact h
    · cases hturn; exact h
  · cases hturn; exact h

end

end Turns

/-! ## Schedules -/

/-- **Every schedule keeps the invariant** as long as no batch and deletion meet. -/
theorem run_inv {env : Env} {stripe : Bytes → Nat} {docs : ByteMap Bytes} {calls : List WriteCall} :
    ∀ {schedule : List Nat} {w w' : Writers}, Inv stripe docs calls w →
      (∀ pre v, pre <+: schedule → w.run env stripe pre = some v → v.Apart) →
      w.run env stripe schedule = some w' → Inv stripe docs calls w'
  | [], w, w', h, _, hrun => by
    cases hrun
    exact h
  | i :: schedule, w, w', h, hapart, hrun => by
    have hw : w.Apart := hapart [] w (List.nil_prefix) rfl
    cases hturn : w.turn env stripe i with
    | none => simp [run, hturn] at hrun
    | some w₁ =>
      have hstep : ∀ rest, w.run env stripe (i :: rest) = w₁.run env stripe rest := by
        intro rest
        simp [run, hturn]
      have h₁ : w₁.Apart := by
        refine hapart [i] w₁ (List.prefix_iff_eq_append.mpr rfl) ?_
        rw [hstep]
        rfl
      refine run_inv (h.turn hw h₁ hturn) (fun pre v hpre hv => ?_) (hstep schedule ▸ hrun)
      exact hapart (i :: pre) v (List.prefix_cons_inj i |>.mpr hpre) (by rw [hstep]; exact hv)

end Writers

/-- **The calls are as if one after another** in every run in which no batch is between its two
writes while a deletion of one of its keys is between its own. -/
theorem writers_serial {env : Env} {stripe : Bytes → Nat} {m : SegmentManager}
    {docs : ByteMap Bytes} {calls : List WriteCall} {schedule : List Nat} {w : Writers}
    (hm : m.Represented docs)
    (hrun : (Writers.begin m calls).run env stripe schedule = some w)
    (hdone : ∀ t ∈ w.threads, t.2 = .done)
    (hapart : ∀ pre v, pre <+: schedule → (Writers.begin m calls).run env stripe pre = some v →
      v.Apart) :
    Serial env docs calls w.m := by
  have hinv := Writers.run_inv (Writers.inv_begin stripe hm calls) hapart hrun
  obtain ⟨order, hperm, hsettling⟩ := hinv.serial
  have hcounted : w.counted = w.threads.map Prod.fst := by
    rw [Writers.counted, List.filter_eq_self.mpr fun t ht => by rw [hdone t ht]; rfl]
  have hpending : ∀ k, w.pending k = false := fun k =>
    List.any_eq_false.mpr fun t ht => by simp [Thread.pending, hdone t ht]
  refine ⟨order, ?_, fun key => ?_⟩
  · rw [← hinv.calls, ← hcounted]; exact hperm
  · exact (hsettling.represented hpending).getDocument env key

/-! ## Two schedules

Segments take two documents; the two `SetDocument` calls fill the first one, which is sealed, and
leave an old version of `doc:c:1` in it. -/

def filledRun : List Op :=
  [.setDocument (lit "doc:c:1") (lit "old"), .setDocument (lit "doc:c:2") (lit "x")]

def racingCalls : List WriteCall :=
  [.batch [(lit "doc:c:1", lit "new")], .delete (lit "doc:c:1")]

/-- The batch reserves room and writes; the deletion runs to its end; then the batch goes on. -/
def meetingSchedule : List Nat := [0, 0, 0, 1, 1, 1, 0, 0]

/-- The deletion starts when the batch has written the locations. -/
def apartSchedule : List Nat := [0, 0, 0, 1, 0, 1, 0, 1]

theorem writers_serial_apartSchedule : ∃ m w, run calmEnv emptyStore filledRun = some m ∧
      (Writers.begin m racingCalls).run calmEnv List.length apartSchedule = some w ∧
      Serial calmEnv (specRun filledRun) racingCalls w.m := by
  have hcheck : (run calmEnv emptyStore filledRun).map (fun m =>
      (((Writers.begin m racingCalls).run calmEnv List.length apartSchedule).map fun w =>
          w.threads.all fun t => decide (t.2 = .done),
        apartSchedule.inits.all fun pre =>
          ((Writers.begin m racingCalls).run calmEnv List.length pre).all fun w =>
            decide w.Apart)) = some (some true, true) := by
    decide +kernel
  obtain ⟨m, hm, hpair⟩ := Option.map_eq_some_iff.mp hcheck
  obtain ⟨hend, hapart⟩ := Prod.mk.inj hpair
  obtain ⟨w, hw, hdone⟩ := Option.map_eq_some_iff.mp hend
  have hrep : m.Represented (specRun filledRun) := by
    refine run_represented (initializeEmpty_represented emptyStore_eq) ?_ filledRun (List.prefix_refl _) hm
    intro pre _ _ hpre
    have hmem : Op.clearAllDocuments ∈ filledRun := hpre.subset (by simp)
    exact absurd hmem (by decide)
  refine ⟨m, w, hm, hw, writers_serial hrep hw (fun t ht => ?_) fun pre v hpre hv => ?_⟩
  · exact of_decide_eq_true (List.all_eq_true.mp hdone t ht)
  have hall := List.all_eq_true.mp hapart pre ((List.mem_inits _ _).mpr hpre)
  rw [hv] at hall
  exact of_decide_eq_true hall

theorem perm_racingCalls {order : List WriteCall} (h : order.Perm racingCalls) :
    order = racingCalls ∨ order = racingCalls.reverse := by
  obtain ⟨x, y, rfl⟩ := List.length_eq_two.mp h.length_eq
  have hx : x ∈ racingCalls := h.subset (by simp)
  rcases List.mem_pair.mp hx with rfl | rfl
  · left
    rw [racingCalls, List.singleton_perm_singleton.mp (List.Perm.cons_inv h)]
  · right
    have hy := List.Perm.cons_inv (h.trans (List.Perm.swap _ _ []))
    rw [List.singleton_perm_singleton.mp hy]
    rfl

/-- Both calls have returned success, and the document reads as it did before the two. -/
theorem old_version_returns : ∃ m w, run calmEnv emptyStore filledRun = some m ∧
      (Writers.begin m racingCalls).run calmEnv List.length meetingSchedule = some w ∧
      (∀ t ∈ w.threads, t.2 = .done) ∧
      (w.m.getDocument calmEnv (lit "doc:c:1")).1 = lit "old" ∧
      ¬ Serial calmEnv (specRun filledRun) racingCalls w.m := by
  have hcheck : (run calmEnv emptyStore filledRun).map (fun m =>
      ((Writers.begin m racingCalls).run calmEnv List.length meetingSchedule).map fun w =>
        (w.threads.all fun t => decide (t.2 = .done),
          (w.m.getDocument calmEnv (lit "doc:c:1")).1)) = some (some (true, lit "old")) := by
    decide +kernel
  obtain ⟨m, hm, hend⟩ := Option.map_eq_some_iff.mp hcheck
  obtain ⟨w, hw, hpair⟩ := Option.map_eq_some_iff.mp hend
  obtain ⟨hdone, hread⟩ := Prod.mk.inj hpair
  refine ⟨m, w, hm, hw, fun t ht => of_decide_eq_true (List.all_eq_true.mp hdone t ht), hread, ?_⟩
  rintro ⟨order, hperm, hserial⟩
  have hkey := hserial (lit "doc:c:1")
  rw [hread] at hkey
  rcases perm_racingCalls hperm with rfl | rfl <;> exact absurd hkey (by decide +kernel)

end Hlquery.Store.SegmentManager
