import Mathlib.Logic.Function.Basic
import Mathlib.Tactic.Common
import Mathlib.Tactic.Simps.Basic

/-!
# The primary and its journal

A write on the primary goes through five steps. A record is put into the outbox (`prepared`), the
document is written, the record is marked `committed`, the request is sent to the replicas one after
the other, and the record is cleared if that went well enough. Only what is in the database survives
a restart: the documents, the outbox, the requests that were queued for a replica that failed, and
the state of each replica as it was persisted last. `ReplayCommittedReplicationOutbox` takes up the
records that are left.

Meanwhile the monitor marks replicas that do not answer, and brings marked ones up to date with a
full resync. A lock keeps a resync and the sending of a write to a replica apart, so both are one
step here. A mark in memory and its copy in the database are written in one step, too.

Writes and monitor take their steps in any order. What documents are, and what a node makes of the
body of a request, is left to a `Codec`.
-/

set_option autoImplicit false

namespace Hlquery.Replication

/-! ## Documents and requests -/

/-- What the handlers do with the bodies of requests. A clock is the time of the node. -/
structure Codec (Doc Payload : Type) where
  /-- `BuildDocumentJSON`. -/
  build : Doc → Payload
  /-- `ParseDocumentFromJSON`, with the time filled in where the body has none. -/
  parse : Nat → Payload → Doc
  /-- The merge of `HandleUpdateDocument`. -/
  revise : Nat → Doc → Payload → Doc
  /-- What `AddDocument` stores of a document. -/
  store : Nat → Doc → Doc

abbrev Docs (Id Doc : Type) := Id → Option Doc

/-- A write of a client. The documents of a deletion by filter are those that a search finds. -/
inductive Write (Id Doc Payload : Type) where
  | add (id : Id) (body : Payload)
  | update (id : Id) (body : Payload)
  | delete (id : Id)
  | importDocuments (bodies : List (Id × Payload))
  | deleteWhere (select : Docs Id Doc → List Id)

inductive Effect (Id Doc : Type) where
  | put (docs : List (Id × Doc))
  | erase (ids : List Id)

inductive Request (Id Doc Payload : Type) where
  | put (id : Id) (body : Payload)
  | revise (id : Id) (body : Payload)
  | erase (id : Id)
  | putAll (bodies : List (Id × Payload))
  | eraseWhere (select : Docs Id Doc → List Id)

section Documents

variable {Id Doc Payload : Type} [DecidableEq Id] (codec : Codec Doc Payload)

def assignAll (docs : Docs Id Doc) (entries : List (Id × Option Doc)) : Docs Id Doc :=
  entries.foldl (fun docs entry => Function.update docs entry.1 entry.2) docs

/-- The local write. A deletion that finds none of its documents fails. -/
def applyEffect (docs : Docs Id Doc) : Effect Id Doc → Option (Docs Id Doc)
  | .put entries => some (assignAll docs (entries.map fun e => (e.1, some e.2)))
  | .erase ids =>
      if ids.any fun id => (docs id).isSome then some (assignAll docs (ids.map fun id => (id, none)))
      else none

/-- The handlers of the primary up to the journal: the local write and the request for the replicas.
`none` is a request that is refused or has nothing to do. -/
def resolve (clock : Nat) (docs : Docs Id Doc) :
    Write Id Doc Payload → Option (Effect Id Doc × Request Id Doc Payload)
  | .add id body =>
      let doc := codec.parse clock body
      some (.put [(id, codec.store clock doc)], .put id (codec.build doc))
  | .update id body =>
      (docs id).map fun old =>
        let doc := codec.revise clock old body
        (.put [(id, codec.store clock doc)], .revise id (codec.build doc))
  | .delete id => some (.erase [id], .erase id)
  | .importDocuments bodies =>
      let parsed := bodies.map fun b => (b.1, codec.parse clock b.2)
      some (.put (parsed.map fun b => (b.1, codec.store clock b.2)),
        .putAll (parsed.map fun b => (b.1, codec.build b.2)))
  | .deleteWhere select =>
      if select docs = [] then none else some (.erase (select docs), .eraseWhere select)

/-- The handlers of a replica; `none` is a document that is not found. -/
def applyRequest (clock : Nat) (docs : Docs Id Doc) :
    Request Id Doc Payload → Option (Docs Id Doc)
  | .put id body =>
      some (Function.update docs id (some (codec.store clock (codec.parse clock body))))
  | .revise id body =>
      (docs id).map fun old =>
        Function.update docs id (some (codec.store clock (codec.revise clock old body)))
  | .erase id => (docs id).map fun _ => Function.update docs id none
  | .putAll bodies =>
      some (assignAll docs
        (bodies.map fun b => (b.1, some (codec.store clock (codec.parse clock b.2)))))
  | .eraseWhere select => some (assignAll docs ((select docs).map fun id => (id, none)))

/-- The documents that a request is about. A deletion by filter looks at all of them. -/
def Request.touches (r : Request Id Doc Payload) (id : Id) : Prop :=
  match r with
  | .put id' _ | .revise id' _ | .erase id' => id = id'
  | .putAll bodies => id ∈ bodies.map Prod.fst
  | .eraseWhere _ => True

end Documents

/-! ## The state -/

/-- The state of a replica as the primary sees it. -/
structure Mark where
  dirty : Bool
  resyncing : Bool
deriving DecidableEq, Repr

def Mark.clean : Mark := ⟨false, false⟩

/-- Writes are not sent, and a full resync is due or under way. -/
def Mark.unclean (m : Mark) : Bool := m.dirty || m.resyncing

inductive Mode where
  | async
  | syncOne
  | quorum
  | all
deriving DecidableEq, Repr

/-- The configuration: the remote replicas, `ReplicationMode` and `ReplicationFailOnError`. -/
structure Config (Node : Type) where
  nodes : List Node
  mode : Mode
  failOnError : Bool
  nodup : nodes.Nodup

def Config.requiredAcks {Node : Type} (config : Config Node) : Nat :=
  match config.mode with
  | .syncOne => min 1 config.nodes.length
  | .quorum => if config.nodes = [] then 0 else config.nodes.length / 2 + 1
  | .async | .all => config.nodes.length

inductive Record (Id Doc Payload : Type) where
  | prepared (r : Request Id Doc Payload)
  | committed (r : Request Id Doc Payload)

/-- How far a write has come. A write is `replaying` when its committed record was found after a
restart, and `marking` when the record was only prepared. -/
inductive Phase (Node Id Doc Payload : Type) where
  | idle
  | prepared (effect : Effect Id Doc) (r : Request Id Doc Payload)
  | written (r : Request Id Doc Payload)
  | sending (replaying : Bool) (r : Request Id Doc Payload) (rest : List Node) (acks : Nat)
      (queueFailed : Bool)
  | marking (r : Request Id Doc Payload) (rest : List Node)
  | finished

def Phase.request {Node Id Doc Payload : Type} :
    Phase Node Id Doc Payload → Option (Request Id Doc Payload)
  | .prepared _ r | .written r | .sending _ r _ _ _ | .marking r _ => some r
  | .idle | .finished => none

def Phase.inProgress {Node Id Doc Payload : Type} (p : Phase Node Id Doc Payload) : Bool :=
  p.request.isSome

/-- The primary and its replicas. `present` and `acknowledged` are kept for the statements only: the
writes that the documents of the primary went through, and those that a replica has acknowledged,
alone or as part of a snapshot. -/
structure State (Node Id Doc Payload : Type) where
  docs : Docs Id Doc
  outbox : Nat → Option (Record Id Doc Payload)
  pending : Node → List Nat
  durable : Node → Option Mark
  memory : Node → Mark
  monitorRunning : Bool
  phase : Nat → Phase Node Id Doc Payload
  replica : Node → Docs Id Doc
  present : Nat → Bool
  acknowledged : Node → Nat → Bool

/-- A primary that was never started, with any documents on the nodes. -/
def State.initial {Node Id Doc Payload : Type} (docs : Docs Id Doc) (replica : Node → Docs Id Doc) :
    State Node Id Doc Payload where
  docs := docs
  outbox := fun _ => none
  pending := fun _ => []
  durable := fun _ => none
  memory := fun _ => .clean
  monitorRunning := false
  phase := fun _ => .idle
  replica := replica
  present := fun _ => false
  acknowledged := fun _ _ => false

/-- The answer to one send. A request can fail although the replica performed it, and the request
that failed can fail to be queued. -/
inductive Outcome where
  | acked (clock : Nat)
  | failed (performedAt : Option Nat) (queued : Bool)
  | resyncConflict (queued : Bool)
deriving DecidableEq, Repr

inductive Event (Node Id Doc Payload : Type) where
  | begin (w : Nat) (clock : Nat) (write : Write Id Doc Payload)
  | writeLocally (w : Nat)
  | commit (w : Nat)
  | visit (w : Nat) (outcome : Outcome)
  | finish (w : Nat)
  | markDirty (n : Node)
  | resync (n : Node)
  | resyncFails (n : Node) (docs : Docs Id Doc)
  | restart
  | startMonitor
  | markNext (w : Nat)

/-! ## The steps -/

namespace State

variable {Node Id Doc Payload : Type} [DecidableEq Node] [DecidableEq Id]
variable (codec : Codec Doc Payload) (config : Config Node)
variable (s : State Node Id Doc Payload)

@[simps]
def setPhase (w : Nat) (p : Phase Node Id Doc Payload) : State Node Id Doc Payload :=
  { s with phase := Function.update s.phase w p }

variable (n : Node)

@[simps]
def setMark (m : Mark) : State Node Id Doc Payload :=
  { s with
    memory := Function.update s.memory n m
    durable := Function.update s.durable n (some m) }

/-- `MarkSlaveDirty`. -/
def markDirty : State Node Id Doc Payload :=
  s.setMark n { s.memory n with dirty := true }

@[simps]
def setReplica (docs : Docs Id Doc) : State Node Id Doc Payload :=
  { s with replica := Function.update s.replica n docs }

/-- `QueuePendingReplication`. -/
@[simps]
def queue (w : Nat) : State Node Id Doc Payload :=
  { s with pending := Function.update s.pending n (w :: s.pending n) }

@[simps]
def acknowledge (w : Nat) : State Node Id Doc Payload :=
  { s with
    acknowledged := Function.update s.acknowledged n (Function.update (s.acknowledged n) w true) }

/-- `ClearReplicationOutboxRecord`. -/
@[simps]
def clearRecord (w : Nat) : State Node Id Doc Payload :=
  { s with outbox := Function.update s.outbox w none }

/-- The handler up to `PrepareReplicationOutboxRecord`. -/
def begin (w clock : Nat) (write : Write Id Doc Payload) : State Node Id Doc Payload :=
  match s.phase w, resolve codec clock s.docs write with
  | .idle, some (effect, r) =>
      { s with outbox := Function.update s.outbox w (some (.prepared r)) }.setPhase w
        (.prepared effect r)
  | _, _ => s

def writeLocally (w : Nat) : State Node Id Doc Payload :=
  match s.phase w with
  | .prepared effect r =>
      match applyEffect s.docs effect with
      | some docs =>
          { s with
            docs := docs
            present := Function.update s.present w true }.setPhase w (.written r)
      | none => (s.clearRecord w).setPhase w .finished
  | _ => s

/-- `MarkReplicationOutboxCommitted` and the call of `ReplicateWriteRequest`. -/
def commit (w : Nat) : State Node Id Doc Payload :=
  match s.phase w with
  | .written r =>
      { s with outbox := Function.update s.outbox w (some (.committed r)) }.setPhase w
        (.sending false r config.nodes 0 false)
  | _ => s

def sendFails (w : Nat) (queued : Bool) : State Node Id Doc Payload :=
  if queued then (s.markDirty n).queue n w else s.markDirty n

/-- One round of the loop in `ReplicateWriteRequest`. An unclean replica is left to its resync. -/
def visit (w : Nat) (outcome : Outcome) : State Node Id Doc Payload :=
  match s.phase w with
  | .sending replaying r (n :: rest) acks queueFailed =>
      if !s.monitorRunning then s
      else if (s.memory n).unclean then s.setPhase w (.sending replaying r rest acks queueFailed)
      else
        match outcome with
        | .acked clock =>
            match applyRequest codec clock (s.replica n) r with
            | some docs =>
                (((s.setReplica n docs).acknowledge n w).setMark n (s.memory n)).setPhase w
                  (.sending replaying r rest (acks + 1) queueFailed)
            | none => (s.sendFails n w true).setPhase w (.sending replaying r rest acks queueFailed)
        | .failed performedAt queued =>
            let docs := (performedAt.bind fun clock =>
              applyRequest codec clock (s.replica n) r).getD (s.replica n)
            ((s.setReplica n docs).sendFails n w queued).setPhase w
              (.sending replaying r rest acks (queueFailed || !queued))
        | .resyncConflict queued =>
            ((s.setMark n { s.memory n with resyncing := true }).sendFails n w queued).setPhase w
              (.sending replaying r rest acks (queueFailed || !queued))
  | _ => s

/-- Whether the record of a write is cleared once it was sent everywhere. -/
def clears (replaying : Bool) (acks : Nat) (queueFailed : Bool) : Bool :=
  match config.mode with
  | .async => config.requiredAcks ≤ acks
  | _ =>
      (config.requiredAcks ≤ acks || (!config.failOnError && !queueFailed)) &&
        (!replaying || !config.nodes.any fun n => (s.memory n).unclean)

def finish (w : Nat) : State Node Id Doc Payload :=
  match s.phase w with
  | .sending replaying _ [] acks queueFailed =>
      if s.clears config replaying acks queueFailed then (s.clearRecord w).setPhase w .finished
      else s.setPhase w .finished
  | _ => s

/-- A full resync that succeeds, with `DiscardPendingReplicationsAfterResync`: the requests that were
queued for the replica are dropped, and with each of them the outbox record of its write. -/
def resync : State Node Id Doc Payload :=
  if s.monitorRunning ∧ (s.memory n).dirty ∧ !(s.memory n).resyncing then
    { s with
      replica := Function.update s.replica n s.docs
      acknowledged := Function.update s.acknowledged n fun w => s.acknowledged n w || s.present w
      outbox := fun w => if w ∈ s.pending n then none else s.outbox w
      pending := Function.update s.pending n [] }.setMark n .clean
  else s

/-- A full resync that ends early; whatever it leaves on the replica, the replica stays dirty. -/
def resyncFails (docs : Docs Id Doc) : State Node Id Doc Payload :=
  if s.monitorRunning ∧ (s.memory n).dirty ∧ !(s.memory n).resyncing then
    (s.setReplica n docs).setMark n ⟨true, false⟩
  else s

/-- A crash at any point and the start behind it, up to the replay. -/
def restart : State Node Id Doc Payload :=
  { s with
    memory := fun _ => .clean
    monitorRunning := false
    phase := fun w =>
      match s.phase w, s.outbox w with
      | .idle, _ => .idle
      | _, none => .finished
      | _, some (.prepared r) => .marking r config.nodes
      | _, some (.committed r) => .sending true r config.nodes 0 false }

/-- The state that `EnsureReplicationMonitorStarted` restores for a replica: one without a state, or
with requests in its queue, is dirty. -/
def restoredMark : Mark :=
  match s.durable n with
  | none => ⟨true, false⟩
  | some m => ⟨m.unclean || s.pending n ≠ [], false⟩

def startMonitor : State Node Id Doc Payload :=
  if s.monitorRunning then s
  else
    { s with
      monitorRunning := true
      memory := fun n => if n ∈ config.nodes then s.restoredMark n else s.memory n
      durable := fun n =>
        if n ∈ config.nodes ∧ (s.durable n = none ∨ s.pending n ≠ []) then some (s.restoredMark n)
        else s.durable n }

/-- The replay of a prepared record: all replicas are marked, then the record is cleared. -/
def markNext (w : Nat) : State Node Id Doc Payload :=
  match s.phase w with
  | .marking r (n :: rest) => (s.markDirty n).setPhase w (.marking r rest)
  | .marking _ [] => (s.clearRecord w).setPhase w .finished
  | _ => s

def step : Event Node Id Doc Payload → State Node Id Doc Payload
  | .begin w clock write => s.begin codec w clock write
  | .writeLocally w => s.writeLocally w
  | .commit w => s.commit config w
  | .visit w outcome => s.visit codec w outcome
  | .finish w => s.finish config w
  | .markDirty n => s.markDirty n
  | .resync n => s.resync n
  | .resyncFails n docs => s.resyncFails n docs
  | .restart => s.restart config
  | .startMonitor => s.startMonitor config
  | .markNext w => s.markNext w

def run (events : List (Event Node Id Doc Payload)) : State Node Id Doc Payload :=
  events.foldl (fun s event => s.step codec config event) s

def Meets (cond : State Node Id Doc Payload → Event Node Id Doc Payload → Prop) :
    State Node Id Doc Payload → List (Event Node Id Doc Payload) → Prop
  | _, [] => True
  | s, event :: rest => cond s event ∧ Meets cond (s.step codec config event) rest

/-- The primary is up, and no write is under way or waits to be replayed. -/
structure Quiet : Prop where
  running : s.monitorRunning = true
  settled : ∀ w, (s.phase w).inProgress = false

end State

variable {Node Id Doc Payload : Type} {codec : Codec Doc Payload} {config : Config Node}
  {cond : State Node Id Doc Payload → Event Node Id Doc Payload → Prop}
  {events : List (Event Node Id Doc Payload)} {s : State Node Id Doc Payload}

theorem State.Meets.and [DecidableEq Node] [DecidableEq Id]
    {cond' : State Node Id Doc Payload → Event Node Id Doc Payload → Prop}
    (h : State.Meets codec config cond s events) (h' : State.Meets codec config cond' s events) :
    State.Meets codec config (fun s event => cond s event ∧ cond' s event) s events := by
  induction events generalizing s with
  | nil => trivial
  | cons event rest ih => exact ⟨⟨h.1, h'.1⟩, ih h.2 h'.2⟩

/-- A condition on the events alone can be added to one on the states. -/
theorem State.Meets.and_forall [DecidableEq Node] [DecidableEq Id]
    {P : Event Node Id Doc Payload → Prop} (h : State.Meets codec config cond s events)
    (hP : ∀ event ∈ events, P event) :
    State.Meets codec config (fun s event => cond s event ∧ P event) s events := by
  induction events generalizing s with
  | nil => trivial
  | cons event rest ih =>
    obtain ⟨hevent, hrest⟩ := List.forall_mem_cons.mp hP
    exact ⟨⟨h.1, hevent⟩, ih h.2 hrest⟩

/-- What holds at first and is kept by every step that meets the condition holds after every run that
does. -/
theorem State.run_induction [DecidableEq Node] [DecidableEq Id]
    {inv : State Node Id Doc Payload → Prop}
    (hstep : ∀ s event, cond s event → inv s → inv (s.step codec config event))
    (hmeets : State.Meets codec config cond s events) (h : inv s) :
    inv (s.run codec config events) := by
  induction events generalizing s with
  | nil => exact h
  | cons event rest ih => exact ih hmeets.2 (hstep s event hmeets.1 h)

end Hlquery.Replication
