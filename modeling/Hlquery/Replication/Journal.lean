import Hlquery.Replication.Primary

/-!
# No write is lost for a replica

The outbox is there so that a write that reached the documents of the primary is never forgotten
while a replica may lack it: as long as the record is there the write is sent again after a crash,
and once it is gone every replica has acknowledged the write or is marked for a full resync.

`Tracked` says this for each step of a write. Every step of the primary keeps it but one. A resync
that drops the requests queued for its replica clears the outbox records of their writes, too, and a
record stands for all replicas. If such a write is still on its way to others, a crash forgets it.
-/

set_option autoImplicit false
set_option linter.unusedSectionVars false

namespace Hlquery.Replication

namespace State

variable {Node Id Doc Payload : Type} {config : Config Node}
variable {s s' : State Node Id Doc Payload} {w : Nat} {n : Node}

/-! ## What is known of a write -/

def Marked (s : State Node Id Doc Payload) (n : Node) : Prop :=
  ∀ m, s.durable n = some m → m.unclean = true

def Settled (s : State Node Id Doc Payload) (n : Node) (w : Nat) : Prop :=
  s.present w = true → s.acknowledged n w = true ∨ s.Marked n

/-- The replicas that the loop has passed, with those that are left, are all of them. -/
def Passed (config : Config Node) (s : State Node Id Doc Payload) (w : Nat) (rest : List Node) :
    Prop :=
  ∃ passed, config.nodes = passed ++ rest ∧ ∀ n ∈ passed, s.Settled n w

/-- The record of a write, and what is known of the replicas, in each phase. -/
def Tracked (config : Config Node) (s : State Node Id Doc Payload) (w : Nat) : Prop :=
  match s.phase w with
  | .idle => s.present w = false ∧ s.outbox w = none
  | .prepared _ r => s.present w = false ∧ s.outbox w = some (.prepared r)
  | .written r => s.outbox w = some (.prepared r)
  | .sending _ r rest _ _ => s.outbox w = some (.committed r) ∧ Passed config s w rest
  | .marking r rest => s.outbox w = some (.prepared r) ∧ Passed config s w rest
  | .finished => Passed config s w [] ∧ ∀ r, s.outbox w ≠ some (.prepared r)

/-- The marks in memory are those of the database, once they were restored. -/
def InStep (config : Config Node) (s : State Node Id Doc Payload) : Prop :=
  s.monitorRunning = true → ∀ n ∈ config.nodes, ∃ m, s.durable n = some m ∧
    m.unclean = (s.memory n).unclean

structure Journalled (config : Config Node) (s : State Node Id Doc Payload) : Prop where
  tracked : ∀ w, Tracked config s w
  inStep : InStep config s

theorem InStep.marked_iff (h : InStep config s) (hrun : s.monitorRunning = true)
    (hn : n ∈ config.nodes) : s.Marked n ↔ (s.memory n).unclean = true := by
  obtain ⟨m, hm, hu⟩ := h hrun n hn
  rw [← hu]
  constructor
  · intro hmark
    exact hmark m hm
  · intro hun m' hm'
    obtain rfl := Option.some.inj (hm.symm.trans hm')
    exact hun

variable {rest : List Node}

theorem Passed.mono (h : Passed config s w rest)
    (hset : ∀ n ∈ config.nodes, s.Settled n w → s'.Settled n w) : Passed config s' w rest := by
  obtain ⟨passed, hnodes, hp⟩ := h
  refine ⟨passed, hnodes, ?_⟩
  intro n hn
  exact hset n (hnodes ▸ List.mem_append_left _ hn) (hp n hn)

theorem Passed.next (h : Passed config s w (n :: rest)) (hn : s.Settled n w) :
    Passed config s w rest := by
  obtain ⟨passed, hnodes, hp⟩ := h
  refine ⟨passed ++ [n], by simp [hnodes], ?_⟩
  intro n' hn'
  rcases List.mem_append.mp hn' with h' | h'
  · exact hp n' h'
  · exact List.mem_singleton.mp h' ▸ hn

theorem Passed.mem (h : Passed config s w (n :: rest)) : n ∈ config.nodes := by
  obtain ⟨passed, hnodes, -⟩ := h
  rw [hnodes]
  simp

theorem passed_all : Passed config s w config.nodes :=
  ⟨[], rfl, fun _ h => absurd h List.not_mem_nil⟩

/-- A step that leaves the write itself alone, and unsettles no replica. -/
theorem Tracked.mono (h : Tracked config s w) (hphase : s'.phase w = s.phase w)
    (hout : s'.outbox w = s.outbox w) (hpresent : s'.present w = s.present w)
    (hset : ∀ n ∈ config.nodes, s.Settled n w → s'.Settled n w) : Tracked config s' w := by
  unfold Tracked at h ⊢
  rw [hphase, hout, hpresent]
  cases hp : s.phase w with
  | idle => rw [hp] at h; exact h
  | prepared e r => rw [hp] at h; exact h
  | written r => rw [hp] at h; exact h
  | sending b r rest a q => rw [hp] at h; exact ⟨h.1, h.2.mono hset⟩
  | marking r rest => rw [hp] at h; exact ⟨h.1, h.2.mono hset⟩
  | finished => rw [hp] at h; exact ⟨h.1.mono hset, h.2⟩

/-- A step for one write: what the others need, and the write itself. -/
theorem Journalled.of_step (h : Journalled config s) (w : Nat)
    (hothers : ∀ w', w' ≠ w → s'.phase w' = s.phase w' ∧ s'.outbox w' = s.outbox w' ∧
      s'.present w' = s.present w')
    (hset : ∀ w', w' ≠ w → ∀ n ∈ config.nodes, s.Settled n w' → s'.Settled n w')
    (hw : Tracked config s' w) (hstep : InStep config s') : Journalled config s' where
  tracked := by
    intro w'
    by_cases hww : w' = w
    · exact hww ▸ hw
    · obtain ⟨hphase, hout, hpresent⟩ := hothers w' hww
      exact (h.tracked w').mono hphase hout hpresent (hset w' hww)
  inStep := hstep

/-! ## The steps -/

section Steps

variable [DecidableEq Node] [DecidableEq Id] {codec : Codec Doc Payload}

theorem settled_setMark {m : Mark} (hm : m.unclean = true) {n' : Node} (h : s.Settled n' w) :
    (s.setMark n m).Settled n' w := by
  intro hp
  rcases h hp with hack | hmark
  · exact .inl hack
  right
  intro m' hm'
  rw [setMark_durable] at hm'
  by_cases hn : n' = n
  · rw [hn, Function.update_self] at hm'
    exact Option.some.inj hm' ▸ hm
  · rw [Function.update_of_ne hn] at hm'
    exact hmark m' hm'

theorem settled_of_marked {m : Mark} (hm : m.unclean = true) : (s.setMark n m).Settled n w := by
  intro _
  right
  intro m' hm'
  rw [setMark_durable, Function.update_self] at hm'
  exact Option.some.inj hm' ▸ hm

theorem inStep_setMark (h : InStep config s) (m : Mark) : InStep config (s.setMark n m) := by
  intro hrun n' hn'
  by_cases hn : n' = n
  · exact ⟨m, by rw [hn, setMark_durable, Function.update_self],
      by rw [hn, setMark_memory, Function.update_self]⟩
  · obtain ⟨m', hd, hu⟩ := h hrun n' hn'
    exact ⟨m', by rw [setMark_durable, Function.update_of_ne hn, hd],
      by rw [setMark_memory, Function.update_of_ne hn, hu]⟩

theorem InStep.resync (h : InStep config s) : InStep config (s.resync n) := by
  unfold State.resync
  split
  · exact inStep_setMark (fun hrun => h hrun) _
  · exact h

/-- A mark that is restored is unclean when the database, or the queue, says so. -/
theorem restoredMark_unclean {m : Mark} (hm : s.durable n = some m) :
    (s.restoredMark n).unclean = (m.unclean || s.pending n ≠ []) := by
  simp [restoredMark, hm, Mark.unclean]

theorem InStep.startMonitor (h : InStep config s) : InStep config (s.startMonitor config) := by
  unfold State.startMonitor
  split
  · exact h
  intro _ n hn
  simp only [hn, true_and, if_true]
  split
  · exact ⟨_, rfl, rfl⟩
  rename_i hno
  cases hd : s.durable n with
  | none => exact absurd (.inl hd) hno
  | some m =>
    refine ⟨m, rfl, ?_⟩
    have hpending : s.pending n = [] := by
      by_contra hne
      exact hno (.inr hne)
    rw [restoredMark_unclean hd, hpending]
    simp

section

variable (h : Journalled config s)
include h

/-- A step that moves one write on, and touches no record but its own. -/
theorem Journalled.proceed {p : Phase Node Id Doc Payload}
    {outbox : Nat → Option (Record Id Doc Payload)} (hout : ∀ w', w' ≠ w → outbox w' = s.outbox w')
    (hw : Tracked config ({ s with outbox }.setPhase w p) w) :
    Journalled config ({ s with outbox }.setPhase w p) := by
  refine h.of_step w ?_ (fun _ _ _ _ hs => hs) hw h.inStep
  intro w' hww
  simp [Function.update_of_ne hww, hout w' hww]

theorem Journalled.begin (clock : Nat) (write : Write Id Doc Payload) :
    Journalled config (s.begin codec w clock write) := by
  unfold State.begin
  split
  · rename_i effect r hidle _
    have hw := h.tracked w
    unfold Tracked at hw
    rw [hidle] at hw
    refine h.proceed (fun w' hww => Function.update_of_ne hww ..) ?_
    unfold Tracked
    simp [hw.1]
  · exact h

theorem Journalled.writeLocally :
    Journalled config (s.writeLocally w) := by
  unfold State.writeLocally
  split
  · rename_i effect r hphase
    have hw := h.tracked w
    unfold Tracked at hw
    rw [hphase] at hw
    split
    · refine h.of_step w ?_ ?_ ?_ h.inStep
      · intro w' hww
        simp [Function.update_of_ne hww]
      · intro w' hww n _ hs hp
        simp only [setPhase_present, Function.update_of_ne hww] at hp
        exact hs hp
      · unfold Tracked
        simp [hw.2]
    · refine h.proceed (fun w' hww => Function.update_of_ne hww ..) ?_
      unfold Tracked
      simp only [setPhase_phase, Function.update_self, setPhase_outbox]
      refine ⟨⟨config.nodes, by simp, ?_⟩, by simp⟩
      intro n _ hp
      exact absurd (show s.present w = true from hp) (by simp [hw.1])
  · exact h

theorem Journalled.commit : Journalled config (s.commit config w) := by
  unfold State.commit
  split
  · refine h.proceed (fun w' hww => Function.update_of_ne hww ..) ?_
    unfold Tracked
    simp [passed_all]
  · exact h

theorem Journalled.setMark {m : Mark} (hm : m.unclean = true) :
    Journalled config (s.setMark n m) where
  tracked := by
    intro w
    refine (h.tracked w).mono rfl rfl rfl ?_
    intro n' _ hs
    exact settled_setMark hm hs
  inStep := inStep_setMark h.inStep _

theorem Journalled.markDirty : Journalled config (s.markDirty n) :=
  h.setMark rfl

/-- A write whose loop goes on behind a replica that is settled now. -/
theorem Journalled.advance {replaying queueFailed qf : Bool}
    {r : Request Id Doc Payload} {rest : List Node} {acks a : Nat}
    (hphase : s.phase w = .sending replaying r (n :: rest) acks queueFailed)
    (hsettled : s.Settled n w) :
    Journalled config (s.setPhase w (.sending replaying r rest a qf)) := by
  have hw := h.tracked w
  unfold Tracked at hw
  rw [hphase] at hw
  refine h.proceed (fun _ _ => rfl) ?_
  unfold Tracked
  simp only [setPhase_phase, Function.update_self, setPhase_outbox]
  exact ⟨hw.1, hw.2.next hsettled⟩

/-- What `Journalled` reads of a state. -/
theorem Journalled.congr (hphase : s'.phase = s.phase)
    (hout : s'.outbox = s.outbox) (hpresent : s'.present = s.present)
    (hack : s'.acknowledged = s.acknowledged) (hdurable : s'.durable = s.durable)
    (hmemory : s'.memory = s.memory) (hrun : s'.monitorRunning = s.monitorRunning) :
    Journalled config s' where
  tracked := by
    intro w
    refine (h.tracked w).mono (by rw [hphase]) (by rw [hout]) (by rw [hpresent]) ?_
    intro n _ hs
    unfold Settled Marked at hs ⊢
    rw [hpresent, hack, hdurable]
    exact hs
  inStep := by
    unfold InStep
    rw [hrun, hdurable, hmemory]
    exact h.inStep

theorem Journalled.sendFails (queued : Bool) :
    Journalled config (s.sendFails n w queued) := by
  unfold State.sendFails
  split
  · exact h.markDirty.congr rfl rfl rfl rfl rfl rfl rfl
  · exact h.markDirty

end

theorem settled_sendFails (queued : Bool) : (s.sendFails n w queued).Settled n w := by
  unfold State.sendFails
  split
  · exact settled_of_marked (s := s) rfl
  · exact settled_of_marked rfl

theorem sendFails_phase (w' : Nat) (queued : Bool) :
    (s.sendFails n w queued).phase w' = s.phase w' := by
  unfold State.sendFails
  split <;> rfl

section

variable (h : Journalled config s)
include h

theorem Journalled.acknowledge :
    Journalled config (s.acknowledge n w) where
  tracked := by
    intro w'
    refine (h.tracked w').mono rfl rfl rfl ?_
    intro n' _ hs hp
    rcases hs hp with hack | hmark
    · left
      rw [acknowledge_acknowledged]
      by_cases hn : n' = n
      · rw [hn, Function.update_self]
        by_cases hww : w' = w
        · rw [hww, Function.update_self]
        · rw [Function.update_of_ne hww, ← hn]
          exact hack
      · rw [Function.update_of_ne hn]
        exact hack
    · exact .inr hmark
  inStep := h.inStep

theorem Journalled.setMark_self (hrun : s.monitorRunning = true)
    (hn : n ∈ config.nodes) : Journalled config (s.setMark n (s.memory n)) where
  tracked := by
    intro w
    refine (h.tracked w).mono rfl rfl rfl ?_
    intro n' hn' hs hp
    rcases hs hp with hack | hmark
    · exact .inl hack
    by_cases hnn : n' = n
    · subst hnn
      exact settled_of_marked ((h.inStep.marked_iff hrun hn').mp hmark) hp
    · right
      intro m hm
      rw [setMark_durable, Function.update_of_ne hnn] at hm
      exact hmark m hm
  inStep := inStep_setMark h.inStep _

theorem Journalled.visit (outcome : Outcome) :
    Journalled config (s.visit codec w outcome) := by
  unfold State.visit
  split
  · rename_i replaying r n rest acks queueFailed hphase
    have hn : n ∈ config.nodes := by
      have hw := h.tracked w
      unfold Tracked at hw
      rw [hphase] at hw
      exact hw.2.mem
    split
    · exact h
    · rename_i hrun
      have hrun : s.monitorRunning = true := by simpa using hrun
      split
      · rename_i hun
        refine h.advance hphase ?_
        intro _
        exact .inr ((h.inStep.marked_iff hrun hn).mpr hun)
      · have hreplica : ∀ docs, Journalled config (s.setReplica n docs) := fun docs =>
          h.congr rfl rfl rfl rfl rfl rfl rfl
        cases outcome with
        | acked clock =>
          simp only
          split
          · rename_i docs _
            have hack := ((hreplica docs).acknowledge (n := n) (w := w)).setMark_self hrun hn
            refine hack.advance hphase ?_
            intro _
            left
            simp
          · exact Journalled.advance (h.sendFails true) ((sendFails_phase w true).trans hphase)
              (settled_sendFails true)
        | failed performedAt queued =>
          exact Journalled.advance ((hreplica _).sendFails queued)
            ((sendFails_phase w queued).trans hphase) (settled_sendFails queued)
        | resyncConflict queued =>
          refine Journalled.advance (Journalled.sendFails (h.setMark ?_) queued)
            ((sendFails_phase w queued).trans hphase) (settled_sendFails queued)
          simp [Mark.unclean]
  · exact h

theorem Journalled.finish : Journalled config (s.finish config w) := by
  unfold State.finish
  split
  · rename_i replaying r acks queueFailed hphase
    have hw := h.tracked w
    unfold Tracked at hw
    rw [hphase] at hw
    split
    · refine h.proceed (fun w' hww => Function.update_of_ne hww ..) ?_
      unfold Tracked
      simp only [setPhase_phase, Function.update_self]
      exact ⟨hw.2, by simp⟩
    · refine h.proceed (fun _ _ => rfl) ?_
      unfold Tracked
      simp only [setPhase_phase, Function.update_self]
      exact ⟨hw.2, by simp [hw.1]⟩
  · exact h

theorem Journalled.markNext : Journalled config (s.markNext w) := by
  unfold State.markNext
  have hw := h.tracked w
  unfold Tracked at hw
  split
  · rename_i r n rest hphase
    rw [hphase] at hw
    have hm := h.markDirty (n := n)
    refine hm.proceed (fun _ _ => rfl) ?_
    unfold Tracked
    simp only [setPhase_phase, Function.update_self]
    have hsettled : (s.markDirty n).Settled n w := settled_of_marked rfl
    refine ⟨hw.1, Passed.next (n := n) ?_ hsettled⟩
    exact hw.2.mono fun n' _ hs => settled_setMark rfl hs
  · rename_i hphase
    rw [hphase] at hw
    refine h.proceed (fun w' hww => Function.update_of_ne hww ..) ?_
    unfold Tracked
    simp only [setPhase_phase, Function.update_self]
    exact ⟨hw.2, by simp⟩
  · exact h

end

theorem over_of_inProgress {p : Phase Node Id Doc Payload} (h : p.inProgress = false) :
    p = .idle ∨ p = .finished := by
  cases p <;> simp_all [Phase.inProgress, Phase.request]

def QueueAtRest (s : State Node Id Doc Payload) (n : Node) : Prop :=
  ∀ w ∈ s.pending n, (s.phase w).inProgress = false

theorem settled_resync {n' : Node} (h : s.Settled n' w) : (s.resync n).Settled n' w := by
  unfold State.resync
  split
  · intro hp
    have hp : s.present w = true := hp
    by_cases hn : n' = n
    · left
      simp [hn, hp]
    · rcases h hp with hack | hmark
      · left
        simpa [Function.update_of_ne hn] using hack
      · right
        intro m hm
        rw [setMark_durable, Function.update_of_ne hn] at hm
        exact hmark m hm
  · exact h

theorem resync_outbox (w : Nat) :
    (s.resync n).outbox w = s.outbox w ∨ w ∈ s.pending n ∧ (s.resync n).outbox w = none := by
  unfold State.resync
  split
  · by_cases hw : w ∈ s.pending n
    · exact .inr ⟨hw, if_pos hw⟩
    · exact .inl (if_neg hw)
  · exact .inl rfl

theorem resync_phase (w : Nat) : (s.resync n).phase w = s.phase w := by
  unfold State.resync
  split <;> rfl

theorem resync_present (w : Nat) : (s.resync n).present w = s.present w := by
  unfold State.resync
  split <;> rfl

theorem Journalled.resync (h : Journalled config s) (hrest : QueueAtRest s n) :
    Journalled config (s.resync n) where
  tracked := by
    intro w
    have hw := h.tracked w
    rcases resync_outbox (n := n) (s := s) w with hout | ⟨hpending, hout⟩
    · exact hw.mono (resync_phase w) hout (resync_present w) fun _ _ hs => settled_resync hs
    -- The record of the write is gone, so the write must be over.
    unfold Tracked at hw ⊢
    rw [resync_phase, resync_present, hout]
    rcases over_of_inProgress (hrest w hpending) with hp | hp
    · rw [hp] at hw ⊢
      exact ⟨hw.1, rfl⟩
    · rw [hp] at hw ⊢
      exact ⟨hw.1.mono fun _ _ hs => settled_resync hs, by simp⟩
  inStep := h.inStep.resync

theorem Journalled.resyncFails (h : Journalled config s) (docs : Docs Id Doc) :
    Journalled config (s.resyncFails n docs) := by
  unfold State.resyncFails
  split
  · have hreplica : Journalled config (s.setReplica n docs) :=
      h.congr rfl rfl rfl rfl rfl rfl rfl
    exact hreplica.setMark rfl
  · exact h

/-- After a crash the record of a write decides how it goes on. -/
theorem Journalled.restart (h : Journalled config s) : Journalled config (s.restart config) where
  tracked := by
    intro w
    have hw := h.tracked w
    have hprepared : ∀ r, s.phase w ≠ .idle → s.outbox w = some (.prepared r) →
        Tracked config (s.restart config) w := by
      intro r hidle hout
      have hphase : (s.restart config).phase w = .marking r config.nodes := by
        simp [State.restart, hout]
      unfold Tracked
      rw [hphase]
      exact ⟨hout, passed_all⟩
    have hcommitted : ∀ r, s.phase w ≠ .idle → s.outbox w = some (.committed r) →
        Tracked config (s.restart config) w := by
      intro r hidle hout
      have hphase : (s.restart config).phase w = .sending true r config.nodes 0 false := by
        simp [State.restart, hout]
      unfold Tracked
      rw [hphase]
      exact ⟨hout, passed_all⟩
    unfold Tracked at hw
    cases hp : s.phase w with
    | idle =>
      rw [hp] at hw
      unfold Tracked
      simp only [State.restart, hp]
      exact hw
    | prepared e r => rw [hp] at hw; exact hprepared r (by simp [hp]) hw.2
    | written r => rw [hp] at hw; exact hprepared r (by simp [hp]) hw
    | sending b r rest a q => rw [hp] at hw; exact hcommitted r (by simp [hp]) hw.1
    | marking r rest => rw [hp] at hw; exact hprepared r (by simp [hp]) hw.1
    | finished =>
      rw [hp] at hw
      cases hout : s.outbox w with
      | none =>
        unfold Tracked
        simp only [State.restart, hp, hout]
        exact ⟨hw.1.mono fun _ _ hs => hs, by simp⟩
      | some record =>
        cases record with
        | prepared r => exact absurd hout (hw.2 r)
        | committed r => exact hcommitted r (by simp [hp]) hout
  inStep := by
    intro hrun
    simp [State.restart] at hrun

/-- A mark that the database has stays when the monitor starts. -/
theorem Marked.startMonitor (hmark : s.Marked n) : (s.startMonitor config).Marked n := by
  unfold State.startMonitor
  split
  · exact hmark
  intro m hm
  simp only at hm
  split at hm
  · cases hm
    cases hd : s.durable n with
    | none => simp [restoredMark, hd, Mark.unclean]
    | some m' => rw [restoredMark_unclean hd, hmark m' hd]; rfl
  · exact hmark m hm

/-- What does not read the marks is the same when the monitor has started. -/
theorem startMonitor_same {α : Type} (f : State Node Id Doc Payload → α)
    (hf : ∀ run mem dur, f { s with monitorRunning := run, memory := mem, durable := dur } = f s) :
    f (s.startMonitor config) = f s := by
  unfold State.startMonitor
  split
  · rfl
  · exact hf _ _ _

theorem Journalled.startMonitor (h : Journalled config s) :
    Journalled config (s.startMonitor config) where
  tracked := by
    intro w
    refine (h.tracked w).mono (startMonitor_same (fun s => s.phase w) fun _ _ _ => rfl)
      (startMonitor_same (fun s => s.outbox w) fun _ _ _ => rfl)
      (startMonitor_same (fun s => s.present w) fun _ _ _ => rfl) ?_
    intro n _ hs hp
    rw [startMonitor_same (fun s => s.present w) fun _ _ _ => rfl] at hp
    rcases hs hp with hack | hmark
    · left
      rw [startMonitor_same (fun s => s.acknowledged n w) fun _ _ _ => rfl]
      exact hack
    · exact .inr hmark.startMonitor
  inStep := h.inStep.startMonitor

/-! ## Runs -/

def Patient (s : State Node Id Doc Payload) : Event Node Id Doc Payload → Prop
  | .resync n => QueueAtRest s n
  | _ => True

theorem Journalled.step (h : Journalled config s) {event : Event Node Id Doc Payload}
    (hpatient : Patient s event) : Journalled config (s.step codec config event) := by
  cases event with
  | begin w clock write => exact h.begin clock write
  | writeLocally w => exact h.writeLocally
  | commit w => exact h.commit
  | visit w outcome => exact h.visit outcome
  | finish w => exact h.finish
  | markDirty n => exact h.markDirty
  | resync n => exact h.resync hpatient
  | resyncFails n docs => exact h.resyncFails docs
  | restart => exact h.restart
  | startMonitor => exact h.startMonitor
  | markNext w => exact h.markNext

theorem journalled_initial (docs : Docs Id Doc) (replica : Node → Docs Id Doc) :
    Journalled config (State.initial docs replica : State Node Id Doc Payload) where
  tracked := fun _ => ⟨rfl, rfl⟩
  inStep := by
    intro hrun
    simp [State.initial] at hrun

end Steps

end State

/-! ## Two runs -/

def plainCodec : Codec Nat Nat where
  build := id
  parse := fun _ body => body
  revise := fun _ _ body => body
  store := fun _ doc => doc

instance instNeZeroTwo : @NeZero Nat Zero.ofOfNat0 2 := inferInstance

def twoReplicas : Config (Fin 2) := ⟨[0, 1], .all, true, by decide⟩

/-- The primary crashes when a write was sent to the first replica, and sends it again. -/
def crashWhileSending : List (Event (Fin 2) Nat Nat Nat) :=
  [.startMonitor, .resync 0, .resync 1, .begin 0 1 (.add 7 5), .writeLocally 0, .commit 0,
    .visit 0 (.acked 1), .restart, .startMonitor, .visit 0 (.acked 2),
    .visit 0 (.failed none true), .finish 0]

/-- Both replicas are in sync. A write is refused by the first one, which is brought up to date at
once; before the write is sent to the second one the primary crashes. -/
def droppedRecord : List (Event (Fin 2) Nat Nat Nat) :=
  [.startMonitor, .resync 0, .resync 1, .begin 0 1 (.add 7 5), .writeLocally 0, .commit 0,
    .visit 0 (.failed none true), .resync 0, .restart, .startMonitor]

/-- The state after `droppedRecord`. -/
def afterDroppedRecord : State (Fin 2) Nat Nat Nat :=
  State.run plainCodec twoReplicas (State.initial (fun _ => none) fun _ _ => none) droppedRecord

end Hlquery.Replication
