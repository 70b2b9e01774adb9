import Hlquery.Replication.Convergence

/-!
# Records that outlive their purpose

A record of the outbox is cleared when its write was sent well enough. If it was not, the record
stays, and the write is sent once more after the next restart. In between the replica may have been
brought up to date by a full resync, and later writes may have changed the document: the resync only
clears the records of the requests in the queue of its replica, and a request that was left to the
resync is in no queue.

Versions stand for documents here: the body of a write is the version that it makes. `Replayable`
says what has to hold of the records that a restart finds. They are about different documents, and
each still says what the primary has.
-/

set_option autoImplicit false
set_option linter.unusedSectionVars false

namespace Hlquery.Replication

/-! ## Versions -/

def versions (Version : Type) : Codec Version Version where
  build := id
  parse := fun _ body => body
  revise := fun _ _ body => body
  store := fun _ doc => doc

section Versions

variable {Id Version : Type} [DecidableEq Id] {docs : Docs Id Version}

theorem carried_versions (clock : Nat) (write : Write Id Version Version) :
    Carried (versions Version) clock docs write := by
  cases write with
  | add id body => exact fun _ => rfl
  | update id body => exact fun _ _ _ _ _ => rfl
  | delete id => trivial
  | importDocuments bodies => exact fun _ _ _ => rfl
  | deleteWhere select => trivial

/-- The request says what the primary has now. -/
def Request.UpToDate (docs : Docs Id Version) : Request Id Version Version → Prop
  | .put id version => docs id = some version
  | .revise id version => docs id = some version ∨ docs id = none
  | .erase id => docs id = none
  | .putAll bodies => ∀ b ∈ bodies, docs b.1 = some b.2
  | .eraseWhere select => ∀ id ∈ select docs, docs id = none

theorem assignAll_of_forall {entries : List (Id × Option Version)} {id : Id} {docs' : Docs Id Version}
    (h : ∀ e ∈ entries, docs e.1 = e.2) (hid : docs' id = docs id) :
    assignAll docs' entries id = docs id := by
  induction entries generalizing docs' with
  | nil => exact hid
  | cons entry rest ih =>
    obtain ⟨hentry, hrest⟩ := List.forall_mem_cons.mp h
    rw [assignAll_cons]
    refine ih hrest ?_
    by_cases he : id = entry.1
    · rw [he, Function.update_self, hentry]
    · rw [Function.update_of_ne he, hid]

theorem Request.UpToDate.stable {r : Request Id Version Version} (h : r.UpToDate docs) :
    Stable (versions Version) docs r := by
  intro docs' halike clock d hd
  cases r with
  | put id version =>
    cases hd
    intro id' hid
    obtain rfl : id' = id := hid
    rw [Function.update_self]
    exact h
  | revise id version =>
    obtain ⟨found, hfound, rfl⟩ := Option.map_eq_some_iff.mp hd
    intro id' hid
    obtain rfl : id' = id := hid
    rw [Function.update_self]
    rcases h with h | h
    · exact h
    · rw [← halike _ rfl, h] at hfound
      cases hfound
  | erase id =>
    obtain ⟨found, hfound, rfl⟩ := Option.map_eq_some_iff.mp hd
    intro id' hid
    obtain rfl : id' = id := hid
    rw [Function.update_self]
    exact h
  | putAll bodies =>
    cases hd
    intro id hid
    refine (assignAll_of_forall ?_ (halike id hid).symm).symm
    intro e he
    obtain ⟨b, hb, rfl⟩ := List.mem_map.mp he
    exact h b hb
  | eraseWhere select =>
    obtain rfl : docs = docs' := funext fun id => halike id trivial
    obtain rfl := applyRequest_eraseWhere_of_none h hd
    exact fun _ _ => rfl

end Versions

/-! ## What a restart finds -/

namespace State

variable {Node Id Doc Payload : Type} [DecidableEq Node] [DecidableEq Id]
variable {codec : Codec Doc Payload} {config : Config Node}
variable {s : State Node Id Doc Payload} {w : Nat} {n : Node} {r : Request Id Doc Payload}

def Recorded (s : State Node Id Doc Payload) (w : Nat) (r : Request Id Doc Payload) : Prop :=
  s.outbox w = some (.committed r) ∨ s.outbox w = some (.prepared r) ∧ s.present w = true

def RecordsApart (s : State Node Id Doc Payload) : Prop :=
  ∀ w r, s.outbox w = some (.committed r) → ∀ w' r', w' ≠ w → s.Recorded w' r' → r.Apart r'

theorem restart_sent (h : ((s.restart config).phase w).sent = some r) :
    s.outbox w = some (.committed r) := by
  simp only [State.restart] at h
  split at h
  · cases h
  · cases h
  · cases h
  · rename_i r' hout _
    rw [hout, Option.some.inj h]

theorem restart_active (h : ((s.restart config).phase w).active (s.present w) = some r) :
    s.Recorded w r := by
  simp only [State.restart] at h
  split at h
  · cases h
  · cases h
  · rename_i r' hout _
    simp only [Phase.active, Option.ite_none_right_eq_some] at h
    exact .inr ⟨by rw [hout, Option.some.inj h.2], h.1⟩
  · rename_i r' hout _
    exact .inl (by rw [hout, Option.some.inj h])

section

variable (hj : Journalled config s)
include hj

/-- A write with a prepared record that reached the documents was under way. -/
theorem Journalled.active_of_prepared
    (hout : s.outbox w = some (.prepared r)) (hpresent : s.present w = true) :
    (s.phase w).active (s.present w) = some r := by
  have hw := hj.tracked w
  unfold Tracked at hw
  cases hp : s.phase w with
  | idle => rw [hp] at hw; exact absurd (hw.2.symm.trans hout) (by simp)
  | prepared e r' => rw [hp] at hw; exact absurd (hw.1.symm.trans hpresent) (by simp)
  | written r' =>
    rw [hp] at hw
    cases Option.some.inj (hw.symm.trans hout)
    rfl
  | sending b r' rest a q => rw [hp] at hw; exact nomatch hw.1.symm.trans hout
  | marking r' rest =>
    rw [hp] at hw
    cases Option.some.inj (hw.1.symm.trans hout)
    exact if_pos hpresent
  | finished => rw [hp] at hw; exact absurd hout (hw.2 r)

/-- What a replica lacks before a restart it is waiting for behind it. -/
theorem Journalled.restart_behind (hordered : Ordered codec config s)
    (hn : n ∈ config.nodes) (h : (s.phase w).behind n (s.present w) = some r) :
    ((s.restart config).phase w).behind n (s.present w) = some r := by
  have hw := hj.tracked w
  unfold Tracked at hw
  cases hp : s.phase w with
  | idle => rw [hp] at h; cases h
  | prepared e r' => rw [hp] at h; cases h
  | finished => rw [hp] at h; cases h
  | written r' =>
    rw [hp] at hw h
    simp only [State.restart, hp, hw]
    exact (if_pos ⟨hordered.present w r' hp, hn⟩).trans h
  | sending b r' rest a q =>
    rw [hp] at hw h
    simp only [Phase.behind, Option.ite_none_right_eq_some] at h
    simp only [State.restart, hp, hw.1]
    exact (if_pos hn).trans h.2
  | marking r' rest =>
    rw [hp] at hw h
    simp only [Phase.behind, Option.ite_none_right_eq_some] at h
    simp only [State.restart, hp, hw.1]
    exact (if_pos ⟨h.1.1, hn⟩).trans h.2

/-- A write that a replica lacks has its record. -/
theorem Journalled.recorded_of_behind (hordered : Ordered codec config s)
    (hn : n ∈ config.nodes) (h : (s.phase w).behind n (s.present w) = some r) : s.Recorded w r :=
  restart_active (Phase.active_of_behind (hj.restart_behind hordered hn h))

/-- With a committed record, a write that a replica lacks is one that is still to be sent to it. -/
theorem Journalled.owed_of_behind {r' : Request Id Doc Payload}
    (hout : s.outbox w = some (.committed r)) (h : (s.phase w).behind n (s.present w) = some r') :
    (s.phase w).owed n = some r := by
  have hw := hj.tracked w
  unfold Tracked at hw
  cases hp : s.phase w with
  | idle => rw [hp] at h; cases h
  | prepared e r'' => rw [hp] at h; cases h
  | finished => rw [hp] at h; cases h
  | written r'' => rw [hp] at hw; exact nomatch hw.symm.trans hout
  | marking r'' rest => rw [hp] at hw; exact nomatch hw.1.symm.trans hout
  | sending b r'' rest a q =>
    rw [hp] at hw h
    cases Option.some.inj (hw.1.symm.trans hout)
    simp only [Phase.behind, Option.ite_none_right_eq_some] at h
    exact if_pos h.1

end

/-- **A restart keeps the order**, if each committed record still says what the primary has, and no
other record is about its documents. -/
theorem InOrder.restart (h : InOrder codec config s) (hj : Journalled config s)
    (hstable : ∀ w r, s.outbox w = some (.committed r) → Stable codec s.docs r)
    (hapart : RecordsApart s) : InOrder codec config (s.restart config) := by
  refine ⟨hj.restart.inStep, ⟨?_, ?_, ?_, ?_, ?_⟩, ?_⟩
  · intro w w' r r' hne hr hr'
    rcases restart_active hr with hout | ⟨hout, hpresent⟩
    · exact hapart w r hout w' r' (Ne.symm hne) (restart_active hr')
    · rcases restart_active hr' with hout' | ⟨hout', hpresent'⟩
      · exact (hapart w' r' hout' w r hne (.inr ⟨hout, hpresent⟩)).symm
      · exact h.ordered.apart w w' r r' hne (hj.active_of_prepared hout hpresent)
          (hj.active_of_prepared hout' hpresent')
  · intro w e r hr
    simp only [State.restart] at hr
    split at hr <;> cases hr
  · intro w r hr _
    exact hstable w r (restart_sent hr)
  · intro w r hr
    simp only [State.restart] at hr
    split at hr <;> cases hr
  · intro w b r rest a q hr
    simp only [State.restart] at hr
    split at hr
    · cases hr
    · cases hr
    · cases hr
    · obtain ⟨-, -, rfl, -, -⟩ := Phase.sending.inj hr
      exact List.suffix_refl _
  · intro n hn hm
    have hfollows := h.follows n hn hm
    refine ⟨?_, ?_⟩
    · intro id hid
      refine hfollows.agree id ?_
      intro w r hr
      exact hid w r (hj.restart_behind h.ordered hn hr)
    · intro w r hr clock d hd
      have hout := restart_sent (Phase.sent_of_owed hr)
      by_cases howed : (s.phase w).owed n = some r
      · exact hfollows.sendable w r howed clock d hd
      · -- The replica has the write, and waits for nothing else that is about its documents.
        refine hstable w r hout (s.replica n) ?_ clock d hd
        intro id hid
        refine (hfollows.agree id ?_).symm
        intro w' r' hr' hid'
        by_cases hw : w' = w
        · subst hw
          exact howed (hj.owed_of_behind hout hr')
        · exact hapart w r hout w' r' hw (hj.recorded_of_behind h.ordered hn hr') id hid hid'

end State

/-! ## Runs -/

namespace State

variable {Node Id Version : Type} [DecidableEq Node] [DecidableEq Id] {config : Config Node}
variable {s : State Node Id Version Version}

/-- The next write begins when the last one is over, and sent to every replica. -/
def Sequential (s : State Node Id Version Version) : Event Node Id Version Version → Prop
  | .begin _ _ _ => ∀ w, (s.phase w).inProgress = false
  | _ => True

/-- **What a restart may find**: committed records that still say what the primary has, and that are
about other documents than the rest of the records. -/
structure Replayable (s : State Node Id Version Version) : Prop where
  upToDate : ∀ w r, s.outbox w = some (.committed r) → r.UpToDate s.docs
  apart : RecordsApart s

/-- A restart finds only records that can be replayed, and a resync drops no record of a write that
is on its way and comes behind no deletion by filter that would delete more. -/
def Retired (s : State Node Id Version Version) : Event Node Id Version Version → Prop
  | .resync n => QueueAtRest s n ∧ FiltersSpent s n
  | .restart => Replayable s
  | _ => True

variable {event : Event Node Id Version Version}

theorem separate_of_sequential (hsequential : Sequential s event) (hretired : Retired s event) :
    Separate (versions Version) s event := by
  cases event with
  | begin w clock write =>
    refine ⟨carried_versions clock write, ?_⟩
    intro e r _ w' r' hr'
    have hover := hsequential w'
    rw [Phase.inProgress, hr'] at hover
    cases hover
  | resync n => exact hretired.2
  | _ => trivial

theorem patient_of_retired (hretired : Retired s event) : Patient s event := by
  cases event with
  | resync n => exact hretired.1
  | _ => trivial

theorem InOrder.step_retired (h : InOrder (versions Version) config s) (hj : Journalled config s)
    (hsequential : Sequential s event) (hretired : Retired s event) :
    InOrder (versions Version) config (s.step (versions Version) config event) := by
  by_cases hup : event = .restart
  · subst hup
    exact h.restart hj (fun w r hout => (hretired.upToDate w r hout).stable) hretired.apart
  · exact h.step (separate_of_sequential hsequential hretired) hup

end State

/-! ## Two runs -/

/-- The replica misses a write while the primary is down, and gets it from the replay. -/
def replayedWrite : List (Event (Fin 1) Nat Nat Nat) :=
  [.startMonitor, .resync 0, .begin 0 1 (.add 7 5), .writeLocally 0, .commit 0, .restart,
    .startMonitor, .visit 0 (.acked 2), .finish 0]

/-- A write is left to the resync of its replica, so its record stays. The resync and a later write
bring the replica up to date. Then the primary restarts. -/
def staleRecord : List (Event (Fin 1) Nat Nat Nat) :=
  [.startMonitor, .begin 0 1 (.add 7 1), .writeLocally 0, .commit 0, .visit 0 (.acked 1), .finish 0,
    .resync 0, .begin 1 2 (.add 7 2), .writeLocally 1, .commit 1, .visit 1 (.acked 2), .finish 1,
    .restart, .startMonitor, .visit 0 (.acked 3), .finish 0]

def afterStaleRecord : State (Fin 1) Nat Nat Nat :=
  State.run (versions Nat) oneReplica (State.initial (fun _ => none) fun _ _ => none) staleRecord

end Hlquery.Replication
