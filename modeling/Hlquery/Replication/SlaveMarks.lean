import Hlquery.Replication.Primary
import Hlquery.Lib.Runs

/-!
# The persisted mark of a replica

`MarkSlaveDirty`, `MarkSlaveReachable` and `MarkSlaveResynced` change what the primary knows of a replica
under `ReplicationSlaveStateMutex`. Then `PersistReplicationSlaveState` copies it under the same lock, and
writes the copy to the database when the lock is released. All of this is kept by endpoint, and one
endpoint, which is not empty, is looked at here; the times in the record are left out. Call `i` of a
schedule is what `call i` says, and a step comes with whether the database takes what it writes.
-/

set_option autoImplicit false

namespace Hlquery.Replication

open Runs

inductive MarkCall where
  | markSlaveDirty
  | markSlaveReachable
  | markSlaveResynced
  deriving DecidableEq

/-- How far a call is; one that waits has not begun. -/
inductive Marking where
  | waiting
  | marked
  | copied (mark : Mark)
  | returned
  deriving DecidableEq

def Marking.underWay : Marking → Bool
  | .marked | .copied _ => true
  | .waiting | .returned => false

/-- The mark in memory and in the database. A resync is owed if a `MarkSlaveDirty` has returned and no
`MarkSlaveResynced` has begun since. -/
structure SlaveMarks where
  memory : Mark := .clean
  persisted : Option Mark := none
  owed : Bool := false
  progress : Nat → Marking := fun _ => .waiting

/-- `RestoreReplicationSlaveState`: a session that was in progress is gone. A replica without a record is
marked dirty by its caller. -/
def SlaveMarks.restored (s : SlaveMarks) : Mark :=
  match s.persisted with
  | some m => ⟨m.unclean, false⟩
  | none => ⟨true, false⟩

def MarkCall.apply (m : Mark) : MarkCall → Mark
  | .markSlaveDirty => { m with dirty := true }
  | .markSlaveReachable => m
  | .markSlaveResynced => .clean

section

variable (call : Nat → MarkCall)

def SlaveMarks.step (s : SlaveMarks) : Nat × Bool → SlaveMarks
  | (i, ok) =>
    match s.progress i with
    | .waiting =>
      { s with
        memory := (call i).apply s.memory
        owed := s.owed && call i ≠ .markSlaveResynced
        progress := Function.update s.progress i .marked }
    | .marked => { s with progress := Function.update s.progress i (.copied s.memory) }
    | .copied mark =>
      { s with
        persisted := if ok then some mark else s.persisted
        owed := s.owed || call i = .markSlaveDirty
        progress := Function.update s.progress i .returned }
    | .returned => s

/-- A call begins while no other one is under way, and the records are written. -/
def SlaveMarks.Meets (s : SlaveMarks) : Nat × Bool → Prop
  | (i, ok) =>
    match s.progress i with
    | .waiting => ∀ j, (s.progress j).underWay = false
    | .copied _ => ok = true
    | .marked | .returned => True

/-- One call at a time. What it copied is what memory has, and what is owed is dirty in memory and in the
database. -/
structure SlaveMarks.Inv (s : SlaveMarks) : Prop where
  one : ∀ i j, (s.progress i).underWay → (s.progress j).underWay → i = j
  copied : ∀ i m, s.progress i = .copied m → m = s.memory
  dirty : ∀ i, (s.progress i).underWay → call i = .markSlaveDirty → s.memory.dirty = true
  owed : s.owed = true → s.memory.dirty = true ∧ s.restored.dirty = true

variable {call}

theorem SlaveMarks.Inv.step {s : SlaveMarks} (h : s.Inv call) {e : Nat × Bool} (he : s.Meets e) :
    (s.step call e).Inv call := by
  obtain ⟨i, ok⟩ := e
  obtain ⟨hone, hcopied, hdirty, howed⟩ := h
  cases hi : s.progress i with
  | waiting =>
    have hfree : ∀ j, (s.progress j).underWay = false := by simpa [SlaveMarks.Meets, hi] using he
    simp only [SlaveMarks.step, hi]
    refine ⟨?_, ?_, ?_, ?_⟩
    · grind [Function.update_apply]
    · grind [Function.update_apply, Marking.underWay]
    · intro j hj hcall
      by_cases hji : j = i
      · simp [← hji, hcall, MarkCall.apply]
      · simp [hji, hfree] at hj
    · cases hcall : call i <;> simp_all [MarkCall.apply, SlaveMarks.restored]
  | marked =>
    simp only [SlaveMarks.step, hi]
    refine ⟨?_, ?_, ?_, howed⟩ <;> grind [Function.update_apply, Marking.underWay]
  | copied mark =>
    have hway : (s.progress i).underWay := by rw [hi]; rfl
    obtain rfl : ok = true := by simpa [SlaveMarks.Meets, hi] using he
    obtain rfl := hcopied i mark hi
    simp only [SlaveMarks.step, hi]
    refine ⟨?_, ?_, ?_, ?_⟩
    · grind [Function.update_apply, Marking.underWay]
    · grind [Function.update_apply]
    · grind [Function.update_apply, Marking.underWay]
    intro howed'
    have hmemory : s.memory.dirty = true := by
      rcases Bool.or_eq_true_iff.mp howed' with h | h
      · exact (howed h).1
      · exact hdirty i hway (of_decide_eq_true h)
    exact ⟨hmemory, by simp [SlaveMarks.restored, Mark.unclean, hmemory]⟩
  | returned => simpa only [SlaveMarks.step, hi] using ⟨hone, hcopied, hdirty, howed⟩

/-- **A replica that is owed a resync is restored as dirty**, in every run in which no call begins while
another one is under way and the database takes the records. -/
theorem owed_restored (memory : Mark) (persisted : Option Mark) (events : List (Nat × Bool))
    (h : Along (SlaveMarks.step call) SlaveMarks.Meets { memory, persisted } events) :
    let s := events.foldl (SlaveMarks.step call) { memory, persisted }
    s.owed = true → s.restored.dirty = true := by
  intro s howed
  have hinv : s.Inv call := by
    refine h.invariant (I := SlaveMarks.Inv call) (fun hs he => hs.step he) ?_
    exact ⟨nofun, nofun, nofun, nofun⟩
  exact (hinv.owed howed).2

end

/-- The replica is found to be reachable, and a write to it fails. -/
def reachableThenDirty : Nat → MarkCall
  | 0 => .markSlaveReachable
  | _ => .markSlaveDirty

/-- Each call runs to its end. -/
def marksInTurn : List (Nat × Bool) :=
  [(0, true), (0, true), (0, true), (1, true), (1, true), (1, true)]

/-- The first call has its copy; the second one runs to its end, and then the copy is written. -/
def marksAcross : List (Nat × Bool) :=
  [(0, true), (0, true), (1, true), (1, true), (1, true), (0, true)]

theorem owed_restored_in_turn :
    let s := marksInTurn.foldl (SlaveMarks.step reachableThenDirty) {}
    s.owed = true ∧ s.restored.dirty = true := by
  refine ⟨by decide, owed_restored .clean none marksInTurn ?_ (by decide)⟩
  refine ⟨fun _ => rfl, trivial, rfl, ?_, trivial, rfl, trivial⟩
  rintro (_ | _ | j) <;> rfl

/-- **The copy of a call that is overtaken takes the mark back.** -/
theorem owed_and_clean :
    let s := marksAcross.foldl (SlaveMarks.step reachableThenDirty) {}
    s.owed = true ∧ s.restored.dirty = false := by
  decide

end Hlquery.Replication
