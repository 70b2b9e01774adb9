import Hlquery.Store.Rebuild

/-!
# A deletion among reads

`GetDocument` takes no lock. It looks at the tombstone first, then at the location record, and when
that does not lead to a value it searches the segments and *repairs* the location: the record is
written and the tombstone lifted, in one batch. Here the calls are cut into the steps between which
other threads can run, one access to a database each, and any number of `GetDocument` calls run among
the steps of one `DeleteDocument` of the same key.

A call that has seen no tombstone before the deletion and searches after it finds the copy of the
document that an old segment still holds. Its repair brings the document back, and with it the answer
of every later call. `staysDeleted_iff` says when this cannot happen: when the document was
tombstoned before, or when neither the newest copy nor the newest copy in a sealed segment is more
than the empty string, which is also the answer for a document that is not there.
-/

set_option autoImplicit false

namespace Hlquery.Store.SegmentManager

open Hlquery.Bytes

/-! ## The calls in steps -/

/-- Where a `GetDocument` call stands, with its local variables. -/
inductive Reader where
  | start
  /-- The document was not tombstoned. -/
  | checked (collection docId : Bytes)
  /-- The snapshot has been taken. -/
  | holding (collection docId : Bytes) (live : List Bytes)
  /-- The location record names this segment. -/
  | reading (segment : Bytes) (live : List Bytes)
  /-- The segments that are still to be searched. -/
  | scanning (segments : List Bytes)
  | repairing (segment value : Bytes)
  | done (value : Bytes)
  deriving DecidableEq

variable (env : Env)

def Reader.step (key : Bytes) (m : SegmentManager) : Reader → Reader × SegmentManager
  | .start =>
    match parseDocKey key with
    | none => (.done [], m)
    | some (collection, docId) =>
      (if m.isTombstoned collection docId then .done [] else .checked collection docId, m)
  | .checked collection docId => (.holding collection docId m.live, m)
  | .holding collection docId live =>
    match m.systemDB[docLocationKey collection docId]? with
    | none => (.scanning live, m)
    | some docloc =>
      match live.find? fun s => s == segmentIdOfRecord docloc with
      | none => (.scanning live, m)
      | some segment => (.reading segment live, m)
  | .reading segment live =>
    match (m.database segment)[key]? with
    | some value => (.done value, m)
    | none => (.scanning live, m)
  | .scanning [] => (.done [], m)
  | .scanning (segment :: segments) =>
    match (m.database segment)[key]? with
    | some value => (.repairing segment value, m)
    | none => (.scanning segments, m)
  | .repairing segment value => (.done value, (repairDocLocation env m key segment).2)
  | .done value => (.done value, m)

/-- Where the `DeleteDocument` call stands. -/
inductive Deleter where
  | start
  /-- The tombstone is written and the location record gone. -/
  | written
  | done (result : Nat)
  deriving DecidableEq

def Deleter.step (key : Bytes) (m : SegmentManager) :
    Deleter → Deleter × SegmentManager
  | .start =>
    match parseDocKey key with
    | none => (.done 0, m)
    | some (collection, docId) =>
      let (nowMs, m) := readClock env m
      match attempt env m fun m => m.writeSystem (tombstoneUpdates collection docId nowMs) with
      | (false, m) => (.done 0, m)
      | (true, m) => (.written, m)
  | .written => (.done 1, m.eraseFromActive env key)
  | .done result => (.done result, m)

/-! ## Interleavings -/

/-- The store, the deletion, and the reads that have begun, each with whether the deletion had
returned success when it began. -/
structure Race where
  m : SegmentManager
  deleter : Deleter := .start
  readers : List (Bool × Reader) := []

inductive Turn where
  | begin
  | read (i : Nat)
  | delete
  deriving DecidableEq

def Race.turn (key : Bytes) (race : Race) : Turn → Race
  | .begin => { race with readers := race.readers ++ [(race.deleter == .done 1, .start)] }
  | .read i =>
    match race.readers[i]? with
    | none => race
    | some (late, reader) =>
      let (reader, m) := Reader.step env key race.m reader
      { race with m, readers := race.readers.set i (late, reader) }
  | .delete =>
    let (deleter, m) := Deleter.step env key race.m race.deleter
    { race with m, deleter }

def Race.run (key : Bytes) (turns : List Turn) (race : Race) : Race :=
  turns.foldl (Race.turn env key) race

/-- **What a deletion promises**: however the threads take turns, a read that begins after the
deletion has returned success returns the empty string. -/
def StaysDeleted (key : Bytes) (m : SegmentManager) : Prop :=
  ∀ turns value, (true, Reader.done value) ∈ (Race.run env key turns { m }).readers → value = []

/-! ## Copies -/

def copyIn (m : SegmentManager) (key s : Bytes) : Option Bytes := (m.database s)[key]?

def FirstCopy (segments : List Bytes) (copy : Bytes → Option Bytes) (s value : Bytes) : Prop :=
  ∃ pre post, segments = pre ++ s :: post ∧ copy s = some value ∧ ∀ t ∈ pre, copy t = none

variable {segments : List Bytes} {copy : Bytes → Option Bytes} {value : Bytes}

theorem findSome?_copy :
    segments.findSome? copy = some value ↔ ∃ s, FirstCopy segments copy s value := by
  rw [List.findSome?_eq_some_iff]
  constructor
  · rintro ⟨pre, s, post, h⟩
    exact ⟨s, pre, post, h⟩
  · rintro ⟨s, pre, post, h⟩
    exact ⟨pre, s, post, h⟩

theorem FirstCopy.mem {s : Bytes} (h : FirstCopy segments copy s value) : s ∈ segments := by
  obtain ⟨pre, post, rfl, -⟩ := h
  simp

/-- Where copies only went away, a copy that was the first and is still there is the first. -/
theorem FirstCopy.of_fewer {copy' : Bytes → Option Bytes} {s value' : Bytes}
    (h : FirstCopy segments copy s value) (hfewer : ∀ t, copy' t = none ∨ copy' t = copy t)
    (hs : copy' s = some value') : FirstCopy segments copy' s value' := by
  obtain ⟨pre, post, hseg, -, hpre⟩ := h
  refine ⟨pre, post, hseg, hs, fun t ht => ?_⟩
  rcases hfewer t with hn | he
  · exact hn
  · rw [he, hpre t ht]

theorem forall_mem_set {α : Type} {P : α → Prop} {l : List α} {i : Nat} {a : α} (h : ∀ b ∈ l, P b)
    (ha : P a) : ∀ b ∈ l.set i a, P b := fun b hb =>
  (List.mem_or_eq_of_mem_set hb).elim (h b) fun e => e ▸ ha

/-! ## Effects of the steps -/

section Effects

variable (env : Env) (m : SegmentManager) (k : DocKey)

theorem repairDocLocation_frame (s : Bytes) :
    (repairDocLocation env m k.toBytes s).2.currentSnapshot = m.currentSnapshot ∧
      (repairDocLocation env m k.toBytes s).2.activeSegment = m.activeSegment ∧
      (repairDocLocation env m k.toBytes s).2.databases = m.databases := by
  unfold repairDocLocation attempt
  rw [parseDocKey_toBytes]
  dsimp only
  split <;> exact ⟨rfl, rfl, rfl⟩

theorem repairDocLocation_ok {s : Bytes} (hok : env.ok (m.calls + 1) = true) :
    (repairDocLocation env m k.toBytes s).2 =
      { m.writeSystem (locationUpdates s (env.nowMs m.calls) k.toBytes) with
        calls := m.calls + 2 } := by
  unfold repairDocLocation attempt readClock
  rw [parseDocKey_toBytes]
  dsimp only
  rw [if_pos hok]
  rfl

theorem locationUpdates_location (s : Bytes) (nowMs : UInt64) :
    (m.writeSystem (locationUpdates s nowMs k.toBytes)).systemDB[docLocationKey k.collection
      k.docId]? = some (locationRecord s nowMs) := by
  show ((m.systemDB.insert _ _).erase _)[docLocationKey k.collection k.docId]? = _
  rw [parseDocKey_toBytes, ByteMap.get_erase, ByteMap.get_insert]
  simp only [tombstoneKey_eq, docLocationKey_eq, location_ne_tombstone, if_false, if_true]

theorem locationUpdates_tombstone (s : Bytes) (nowMs : UInt64) :
    (m.writeSystem (locationUpdates s nowMs k.toBytes)).isTombstoned k.collection k.docId =
      false := by
  show (((m.systemDB.insert _ _).erase _)[tombstoneKey k.collection k.docId]?).isSome = _
  rw [parseDocKey_toBytes, ByteMap.get_erase]
  simp

theorem repairDocLocation_location (s : Bytes) :
    (repairDocLocation env m k.toBytes s).2.systemDB[docLocationKey k.collection k.docId]? =
        m.systemDB[docLocationKey k.collection k.docId]? ∨
      ∃ nowMs, (repairDocLocation env m k.toBytes s).2.systemDB[docLocationKey k.collection
        k.docId]? = some (locationRecord s nowMs) := by
  by_cases hok : env.ok (m.calls + 1) = true
  · refine .inr ⟨env.nowMs m.calls, ?_⟩
    rw [repairDocLocation_ok env m k hok]
    exact locationUpdates_location m k s _
  · refine .inl ?_
    unfold repairDocLocation attempt readClock
    rw [parseDocKey_toBytes]
    dsimp only
    rw [if_neg hok]

def copyAfter (active : Bytes) (ok : Bool) (s : Bytes) : Option Bytes :=
  if ok = true ∧ s = active then none else copyIn m k.toBytes s

theorem copyIn_eraseFromActive {active : Bytes} (hactive : m.activeSegment = some active) :
    copyIn (m.eraseFromActive env k.toBytes) k.toBytes = copyAfter m k active (env.ok m.calls) := by
  funext s
  unfold eraseFromActive attempt copyAfter
  rw [hactive]
  cases hok : env.ok m.calls with
  | false => simp [copyIn, database]
  | true =>
    simp only [if_true, true_and]
    unfold copyIn
    rw [database_setDatabase]
    by_cases hs : s = active
    · subst hs
      simp
    · simp [hs, database]

theorem copyAfter_fewer (active : Bytes) (ok : Bool) (s : Bytes) :
    copyAfter m k active ok s = none ∨ copyAfter m k active ok s = copyIn m k.toBytes s := by
  unfold copyAfter
  split
  · exact .inl rfl
  · exact .inr rfl

end Effects

/-! ## What the interleavings keep -/

/-- A segment whose copy a search may have found, before the deletion or since. -/
def Repairable (m₀ : SegmentManager) (k : DocKey) (copy : Bytes → Option Bytes) (s : Bytes) : Prop :=
  ∃ value, FirstCopy m₀.live (copyIn m₀ k.toBytes) s value ∨ FirstCopy m₀.live copy s value

/-- What is known of a read from where it stands. A late one is a read that began after the deletion
had returned success. -/
def ReaderOk (m₀ : SegmentManager) (k : DocKey) (copy : Bytes → Option Bytes) (late : Bool) :
    Reader → Prop
  | .start => True
  | .checked c d => c = k.collection ∧ d = k.docId
  | .holding c d live => c = k.collection ∧ d = k.docId ∧ live = m₀.live
  | .reading s live => live = m₀.live ∧ (late = true → Repairable m₀ k copy s)
  | .scanning segments => ∃ pre, m₀.live = pre ++ segments ∧ ∀ t ∈ pre, copy t = none
  | .repairing s value => Repairable m₀ k copy s ∧ (late = true → value = [])
  | .done value => late = true → value = []

structure Race.Inv (m₀ : SegmentManager) (k : DocKey) (race : Race) : Prop where
  live : race.m.live = m₀.live
  active : race.m.activeSegment = m₀.activeSegment
  fewer : ∀ s, copyIn race.m k.toBytes s = none ∨
    copyIn race.m k.toBytes s = copyIn m₀ k.toBytes s
  same : race.deleter ≠ .done 1 → copyIn race.m k.toBytes = copyIn m₀ k.toBytes
  gone : race.deleter = .done 1 → ∀ s value,
    FirstCopy m₀.live (copyIn race.m k.toBytes) s value → value = []
  /-- Records that appear after the deletion come from repairs. -/
  routed : race.deleter = .written ∨ race.deleter = .done 1 → ∀ docloc,
    race.m.systemDB[docLocationKey k.collection k.docId]? = some docloc →
    Repairable m₀ k (copyIn race.m k.toBytes) (segmentIdOfRecord docloc)
  late : ∀ p ∈ race.readers, p.1 = true → race.deleter = .done 1
  readers : ∀ p ∈ race.readers, ReaderOk m₀ k (copyIn race.m k.toBytes) p.1 p.2

variable {m₀ : SegmentManager} {k : DocKey} {m : SegmentManager} {key active : Bytes} {race : Race}
  {s : Bytes} {env : Env}

/-- After the deletion no copy that a repair can name is worth reading. -/
theorem Race.Inv.value_eq_nil (hi : race.Inv m₀ k) (hdone : race.deleter = .done 1)
    {value : Bytes} (hs : Repairable m₀ k (copyIn race.m k.toBytes) s)
    (hcopy : copyIn race.m k.toBytes s = some value) : value = [] := by
  obtain ⟨value', h | h⟩ := hs
  · exact hi.gone hdone s value (h.of_fewer hi.fewer hcopy)
  · refine hi.gone hdone s value (h.of_fewer (fun t => .inr rfl) hcopy)

/-- Before the deletion has returned no read is late and the copies are those of the beginning. -/
theorem Race.Inv.before (hi : race.Inv m₀ k) (hd : race.deleter ≠ .done 1) :
    (∀ p ∈ race.readers, p.1 = false) ∧ copyIn race.m k.toBytes = copyIn m₀ k.toBytes :=
  ⟨fun p hp => Bool.eq_false_iff.mpr fun hl => hd (hi.late p hp hl), hi.same hd⟩

/-- **One step of a read.** -/
theorem Race.Inv.read (hw : m₀.WellFormed) (hi : race.Inv m₀ k) (i : Nat) :
    (race.turn env k.toBytes (.read i)).Inv m₀ k := by
  unfold Race.turn
  dsimp only
  cases hr : race.readers[i]? with
  | none => exact hi
  | some p =>
    obtain ⟨late, reader⟩ := p
    have hmem : (late, reader) ∈ race.readers := List.mem_of_getElem? hr
    have hok := hi.readers _ hmem
    have hlate := hi.late _ hmem
    -- a step that only looks: the store stays, and the read is where it may be
    have hlook : ∀ next, ReaderOk m₀ k (copyIn race.m k.toBytes) late next →
        Race.Inv m₀ k { race with readers := race.readers.set i (late, next) } := by
      intro next hnext
      exact { hi with
        late := forall_mem_set hi.late hlate
        readers := forall_mem_set hi.readers hnext }
    cases reader with
    | start =>
      simp only [Reader.step, parseDocKey_toBytes]
      split
      · exact hlook _ fun _ => rfl
      · exact hlook _ ⟨rfl, rfl⟩
    | checked c d => exact hlook _ ⟨hok.1, hok.2, hi.live⟩
    | holding c d live =>
      obtain ⟨rfl, rfl, rfl⟩ := hok
      have hscan : ReaderOk m₀ k (copyIn race.m k.toBytes) late (.scanning m₀.live) :=
        ⟨[], rfl, by simp⟩
      simp only [Reader.step]
      split
      · exact hlook _ hscan
      rename_i docloc hdocloc
      split
      · exact hlook _ hscan
      rename_i s hs
      refine hlook _ ⟨rfl, fun hl => ?_⟩
      have he : s = segmentIdOfRecord docloc := by
        simpa using List.find?_some hs
      rw [he]
      exact hi.routed (.inr (hlate hl)) docloc hdocloc
    | reading s live =>
      obtain ⟨rfl, hs⟩ := hok
      simp only [Reader.step]
      split
      · rename_i value hvalue
        exact hlook _ fun hl => hi.value_eq_nil (hlate hl) (hs hl) hvalue
      · exact hlook _ ⟨[], rfl, by simp⟩
    | scanning segments =>
      obtain ⟨pre, hlive, hpre⟩ := hok
      cases segments with
      | nil => exact hlook _ fun _ => rfl
      | cons s segments =>
        simp only [Reader.step]
        split
        · rename_i value hvalue
          have hfirst : FirstCopy m₀.live (copyIn race.m k.toBytes) s value :=
            ⟨pre, segments, hlive, hvalue, hpre⟩
          exact hlook _ ⟨⟨value, .inr hfirst⟩, fun hl => hi.gone (hlate hl) s value hfirst⟩
        · rename_i hnone
          refine hlook _ ⟨pre ++ [s], by simp [hlive], fun t ht => ?_⟩
          rcases List.mem_append.mp ht with ht | ht
          · exact hpre t ht
          · rw [List.mem_singleton.mp ht]; exact hnone
    | repairing s value =>
      obtain ⟨hs, hvalue⟩ := hok
      have hi' := hlook (.done value) hvalue
      obtain ⟨hsnap, hact, hdb⟩ := repairDocLocation_frame env race.m k s
      have hcopy : copyIn (repairDocLocation env race.m k.toBytes s).2 k.toBytes =
          copyIn race.m k.toBytes := by
        funext t
        unfold copyIn database
        rw [hdb]
      simp only [Reader.step]
      refine ⟨(live_congr hsnap).trans hi.live, hact.trans hi.active, ?_, ?_, ?_, ?_, hi'.late, ?_⟩
      · rw [hcopy]; exact hi.fewer
      · rw [hcopy]; exact hi.same
      · rw [hcopy]; exact hi.gone
      · rw [hcopy]
        intro hd docloc hdocloc
        rcases repairDocLocation_location env race.m k s with hl | ⟨nowMs, hl⟩
        · exact hi.routed hd docloc (hl.symm.trans hdocloc)
        · have hcolon : 58 ∉ s := by
            obtain ⟨v, hv | hv⟩ := hs
            · exact hw.colon_not_mem s hv.mem
            · exact hw.colon_not_mem s hv.mem
          rw [← Option.some.inj (hl.symm.trans hdocloc), segmentIdOfRecord_locationRecord hcolon]
          exact hs
      · rw [hcopy]; exact hi'.readers
    | done value => exact hlook _ hok

theorem ReaderOk.of_fewer {copy : Bytes → Option Bytes}
    (hfewer : ∀ s, copy s = none ∨ copy s = copyIn m₀ k.toBytes s) {reader : Reader}
    (h : ReaderOk m₀ k (copyIn m₀ k.toBytes) false reader) : ReaderOk m₀ k copy false reader := by
  cases reader with
  | start => trivial
  | checked c d => exact h
  | holding c d live => exact h
  | reading s live => exact ⟨h.1, nofun⟩
  | scanning segments =>
    obtain ⟨pre, hlive, hpre⟩ := h
    refine ⟨pre, hlive, fun t ht => ?_⟩
    rcases hfewer t with hn | he
    · exact hn
    · rw [he, hpre t ht]
  | repairing s value =>
    obtain ⟨⟨v, hv⟩, -⟩ := h
    exact ⟨⟨v, .inl (hv.elim id id)⟩, nofun⟩
  | done value => exact nofun

/-- **One step of the deletion.** -/
theorem Race.Inv.delete (hactive : m₀.activeSegment = some active)
    (hgone : ∀ n s value, FirstCopy m₀.live (copyAfter m₀ k active (env.ok n)) s value → value = [])
    (hi : race.Inv m₀ k) : (race.turn env k.toBytes .delete).Inv m₀ k := by
  unfold Race.turn
  cases hd : race.deleter with
  | start =>
    obtain ⟨hearly, hsame⟩ := hi.before (by simp [hd])
    simp only [Deleter.step, parseDocKey_toBytes]
    split
    · rename_i m₁ h₁
      rw [attempt_failed h₁]
      refine ⟨hi.live, hi.active, hi.fewer, fun _ => hsame, nofun,
        nofun, fun p hp hl => ?_, hi.readers⟩
      rw [hearly p hp] at hl
      cases hl
    · rename_i m₁ h₁
      have hm₁ := attempt_ok h₁
      have hcopy : copyIn m₁ k.toBytes = copyIn race.m k.toBytes := by rw [hm₁]; rfl
      have hnone : m₁.systemDB[docLocationKey k.collection k.docId]? = none := by
        rw [hm₁, docLocationKey_eq]
        exact (tombstoneUpdates_location _ k _ k.rest).trans (if_pos rfl)
      refine ⟨?_, ?_, ?_, ?_, nofun, ?_, fun p hp hl => ?_, ?_⟩
      · rw [hm₁]; exact hi.live
      · rw [hm₁]; exact hi.active
      · rw [hcopy]; exact hi.fewer
      · rw [hcopy]; exact fun _ => hsame
      · intro _ docloc hdocloc
        exact absurd (hnone.symm.trans hdocloc) (by simp)
      · rw [hearly p hp] at hl
        simp at hl
      · rw [hcopy]; exact hi.readers
  | written =>
    obtain ⟨hearly, hsame⟩ := hi.before (by simp [hd])
    obtain ⟨hsnap, hact, hsys⟩ := eraseFromActive_frame env race.m k.toBytes
    have hcopy : copyIn (race.m.eraseFromActive env k.toBytes) k.toBytes =
        copyAfter m₀ k active (env.ok race.m.calls) := by
      rw [copyIn_eraseFromActive env race.m k (hi.active.trans hactive)]
      funext s
      unfold copyAfter
      rw [hsame]
    have hfewer := copyAfter_fewer m₀ k active (env.ok race.m.calls)
    simp only [Deleter.step]
    refine ⟨(live_congr hsnap).trans hi.live, hact.trans hi.active, ?_, fun h => absurd rfl h, ?_, ?_,
      fun _ _ _ => rfl, ?_⟩
    · rw [hcopy]; exact hfewer
    · rw [hcopy]; exact fun _ => hgone race.m.calls
    · intro _ docloc hdocloc
      rw [hsys] at hdocloc
      obtain ⟨v, hv⟩ := hi.routed (.inl hd) docloc hdocloc
      rw [hsame] at hv
      exact ⟨v, .inl (hv.elim id id)⟩
    · rw [hcopy]
      intro p hp
      have hok := hi.readers p hp
      rw [hsame] at hok
      rw [hearly p hp] at hok ⊢
      exact hok.of_fewer hfewer
  | done result =>
    simp only [Deleter.step]
    rw [← hd]
    exact hi

/-- **The deletion lasts** where the copies that it leaves behind are empty. -/
theorem staysDeleted_of_gone (hw : m₀.WellFormed) (hactive : m₀.activeSegment = some active)
    (hgone : ∀ n s value, FirstCopy m₀.live (copyAfter m₀ k active (env.ok n)) s value → value = []) :
    StaysDeleted env k.toBytes m₀ := by
  have hturn : ∀ race : Race, race.Inv m₀ k → ∀ turn, (race.turn env k.toBytes turn).Inv m₀ k := by
    intro race hi turn
    cases turn with
    | begin =>
      exact { hi with
        late := List.forall_mem_append.mpr ⟨hi.late, List.forall_mem_singleton.mpr eq_of_beq⟩
        readers := List.forall_mem_append.mpr ⟨hi.readers, List.forall_mem_singleton.mpr trivial⟩ }
    | read i => exact hi.read hw i
    | delete => exact hi.delete hactive hgone
  intro turns value hmem
  have hstart : Race.Inv m₀ k { m := m₀ } :=
    ⟨rfl, rfl, fun _ => .inr rfl, fun _ => rfl, nofun,
      nofun, fun p hp => absurd hp (by simp), fun p hp => absurd hp (by simp)⟩
  exact (List.foldlRecOn turns _ hstart fun race hi turn _ => hturn race hi turn).readers _ hmem rfl

/-! ## A document that no read looks for -/

def Hidden (m : SegmentManager) (key : Bytes) : Prop :=
  ∀ collection docId, parseDocKey key = some (collection, docId) →
    m.isTombstoned collection docId = true

theorem Reader.step_start_of_hidden (env : Env) (h : m.Hidden key) :
    Reader.step env key m .start = (.done [], m) := by
  unfold Reader.step
  cases hp : parseDocKey key with
  | none => rfl
  | some cd => simp [h cd.1 cd.2 hp]

theorem Hidden.delete (env : Env) (h : m.Hidden key) (deleter : Deleter) :
    (Deleter.step env key m deleter).2.Hidden key := by
  cases deleter with
  | start =>
    intro c d hp
    have hm := h c d hp
    simp only [Deleter.step, hp]
    obtain ⟨k, rfl, rfl, -⟩ := parseDocKey_eq_some hp
    unfold attempt
    by_cases hok : env.ok (readClock env m).2.calls = true
    · rw [if_pos hok]
      show ((m.writeSystem (tombstoneUpdates k.collection k.docId _)).systemDB[tombstoneKey
        k.collection k.docId]?).isSome = true
      rw [tombstoneKey_eq, tombstoneUpdates_tombstone, if_pos rfl]
      rfl
    · rw [if_neg hok]
      exact hm
  | written =>
    intro c d hp
    have hm := h c d hp
    unfold isTombstoned at hm ⊢
    simp only [Deleter.step]
    rw [(eraseFromActive_frame env m key).2.2]
    exact hm
  | done result => exact h

theorem staysDeleted_of_hidden (h₀ : m₀.Hidden key) (env : Env) : StaysDeleted env key m₀ := by
  have hturn : ∀ race : Race, (race.m.Hidden key ∧ ∀ p ∈ race.readers, p.2 = .start ∨ p.2 = .done []) →
      ∀ turn, (race.turn env key turn).m.Hidden key ∧
        ∀ p ∈ (race.turn env key turn).readers, p.2 = .start ∨ p.2 = .done [] := by
    rintro race ⟨hh, hr⟩ turn
    cases turn with
    | begin =>
      exact ⟨hh, List.forall_mem_append.mpr ⟨hr, List.forall_mem_singleton.mpr (.inl rfl)⟩⟩
    | read i =>
      unfold Race.turn
      dsimp only
      cases hi : race.readers[i]? with
      | none => exact ⟨hh, hr⟩
      | some p =>
        obtain ⟨late, reader⟩ := p
        have hstep : Reader.step env key race.m reader = (.done [], race.m) := by
          rcases hr _ (List.mem_of_getElem? hi) with hs | hd
          · obtain rfl : reader = .start := hs
            exact Reader.step_start_of_hidden env hh
          · obtain rfl : reader = .done [] := hd
            rfl
        dsimp only
        rw [hstep]
        exact ⟨hh, forall_mem_set hr (.inr rfl)⟩
    | delete => exact ⟨hh.delete env race.deleter, hr⟩
  intro turns value hmem
  have hend := List.foldlRecOn turns (Race.turn env key) (b := { m := m₀ }) ⟨h₀, fun p hp => nomatch hp⟩
    fun race hi turn _ => hturn race hi turn
  rcases hend.2 _ hmem with h | h
  · cases h
  · simpa using h

/-! ## The schedule that brings a document back -/

/-- All calls succeed, except perhaps the write to the active segment. -/
def raceEnv (calls : Nat) (ok : Bool) : Env where
  ok n := n ≠ calls + 2 || ok
  nowMs _ := 0
  directorySize _ := 0

/-- A read looks at the tombstone, the deletion runs, the read searches and repairs; then another
read begins. -/
def raceTurns (n : Nat) : List Turn :=
  [.begin, .read 0, .delete, .delete, .read 0, .read 0] ++
    (List.replicate n (.read 0) ++ [.read 0, .read 0, .begin, .read 1, .read 1, .read 1, .read 1])

theorem Race.run_append (env : Env) (key : Bytes) (turns turns' : List Turn) (race : Race) :
    Race.run env key (turns ++ turns') race =
      Race.run env key turns' (Race.run env key turns race) :=
  List.foldl_append

theorem Race.run_scanning (env : Env) (deleter : Deleter) (segments : List Bytes) :
    ∀ pre : List Bytes, (∀ t ∈ pre, copyIn m key t = none) →
      Race.run env key (List.replicate pre.length (.read 0))
          { m, deleter, readers := [(false, .scanning (pre ++ segments))] } =
        { m, deleter, readers := [(false, .scanning segments)] }
  | [], _ => rfl
  | t :: pre, h => by
    have ht : (m.database t)[key]? = none := h t (by simp)
    have ih := Race.run_scanning env deleter segments pre fun u hu => h u (List.mem_cons_of_mem _ hu)
    rw [← ih]
    simp only [Race.run, List.length_cons, List.replicate_succ, List.foldl_cons]
    simp [Race.turn, Reader.step, ht]

theorem late_read_of_copy (hw : m₀.WellFormed) (hactive : m₀.activeSegment = some active)
    (htomb : m₀.isTombstoned k.collection k.docId = false) {ok : Bool} {value : Bytes}
    (hcopy : FirstCopy m₀.live (copyAfter m₀ k active ok) s value) :
    ∃ n, (true, Reader.done value) ∈
      (Race.run (raceEnv m₀.calls ok) k.toBytes (raceTurns n) { m := m₀ }).readers := by
  have hlive : s ∈ m₀.live := hcopy.mem
  obtain ⟨pre, post, hsegments, hs, hpre⟩ := hcopy
  -- the deletion
  let env := raceEnv m₀.calls ok
  let m₁ : SegmentManager := { m₀.writeSystem (tombstoneUpdates k.collection k.docId 0) with
    calls := m₀.calls + 2 }
  let m₂ := m₁.eraseFromActive env k.toBytes
  have hwrite : Deleter.step env k.toBytes m₀ .start = (.written, m₁) := by
    have hok : env.ok (readClock env m₀).2.calls = true := by simp [env, raceEnv, readClock]
    simp only [Deleter.step, parseDocKey_toBytes, attempt_of_ok hok]
    rfl
  have herase : Deleter.step env k.toBytes m₁ .written = (.done 1, m₂) := rfl
  obtain ⟨hsnap₂, -, hsys₂⟩ := eraseFromActive_frame env m₁ k.toBytes
  have hlive₂ : m₂.live = m₀.live := live_congr hsnap₂
  have hnone₂ : m₂.systemDB[docLocationKey k.collection k.docId]? = none := by
    rw [hsys₂, docLocationKey_eq]
    exact (tombstoneUpdates_location _ k _ k.rest).trans (if_pos rfl)
  have hcopy₂ : copyIn m₂ k.toBytes = copyAfter m₀ k active ok := by
    have hok : env.ok m₁.calls = ok := by simp [env, raceEnv, m₁]
    rw [copyIn_eraseFromActive env m₁ k hactive, hok]
    rfl
  have hcalls₂ : m₂.calls = m₀.calls + 3 := by
    show (m₁.eraseFromActive env k.toBytes).calls = _
    unfold eraseFromActive attempt
    rw [show m₁.activeSegment = some active from hactive]
    dsimp only
    split <;> rfl
  -- the repair
  let m₃ := (repairDocLocation env m₂ k.toBytes s).2
  have hm₃ : m₃ = { m₂.writeSystem (locationUpdates s 0 k.toBytes) with
      calls := m₂.calls + 2 } :=
    repairDocLocation_ok env m₂ k (by rw [hcalls₂]; simp [env, raceEnv])
  have htomb₃ : m₃.isTombstoned k.collection k.docId = false := by
    rw [hm₃]
    exact locationUpdates_tombstone m₂ k s 0
  have hloc₃ : m₃.systemDB[docLocationKey k.collection k.docId]? = some (locationRecord s 0) := by
    rw [hm₃]
    exact locationUpdates_location m₂ k s 0
  have hlive₃ : m₃.live = m₀.live := by
    rw [hm₃]
    exact hlive₂
  have hvalue₂ : (m₂.database s)[k.toBytes]? = some value := (congrFun hcopy₂ s).trans hs
  have hvalue₃ : (m₃.database s)[k.toBytes]? = some value := by
    rw [hm₃]
    exact hvalue₂
  have hfind : m₀.live.find? (fun t => t == segmentIdOfRecord (locationRecord s 0)) = some s := by
    rw [segmentIdOfRecord_locationRecord (hw.colon_not_mem s hlive)]
    exact (findSegment_eq m₀ s).trans (if_pos hlive)
  refine ⟨pre.length, ?_⟩
  unfold raceTurns
  rw [Race.run_append, Race.run_append]
  have hfirst : Race.run env k.toBytes [.begin, .read 0, .delete, .delete, .read 0, .read 0]
      { m := m₀ } = { m := m₂, deleter := .done 1, readers := [(false, .scanning m₀.live)] } := by
    simp [Race.run, Race.turn, Reader.step, parseDocKey_toBytes, htomb, hwrite, herase, hnone₂,
      hlive₂]
  have hscan : Race.run env k.toBytes (List.replicate pre.length (.read 0))
      { m := m₂, deleter := .done 1, readers := [(false, .scanning m₀.live)] } =
        { m := m₂, deleter := .done 1, readers := [(false, .scanning (s :: post))] } := by
    rw [hsegments]
    exact Race.run_scanning env _ _ pre fun t ht => (congrFun hcopy₂ t).trans (hpre t ht)
  have hlast : Race.run env k.toBytes [.read 0, .read 0, .begin, .read 1, .read 1, .read 1, .read 1]
      { m := m₂, deleter := .done 1, readers := [(false, .scanning (s :: post))] } =
        { m := m₃, deleter := .done 1, readers := [(false, .done value), (true, .done value)] } := by
    simp [Race.run, Race.turn, Reader.step, parseDocKey_toBytes, hvalue₂, htomb₃, hloc₃, hlive₃,
      hfind, hvalue₃, m₃]
  rw [hfirst, hscan, hlast]
  simp

/-! ## When the deletion lasts -/

/-- The copy that a newest-first search of these segments finds, or the empty string. -/
def newestCopy (m : SegmentManager) (segments : List Bytes) (key : Bytes) : Bytes :=
  (segments.findSome? (copyIn m key)).getD []

/-- What must be so before the deletion: the document is hidden already, or neither the newest copy
nor the newest copy in a sealed segment is more than the empty string. -/
def LeavesNothing (m : SegmentManager) (key : Bytes) : Prop :=
  m.Hidden key ∨
    m.newestCopy m.live key = [] ∧ m.newestCopy m.sealedSegments.reverse key = []

theorem findSome?_getD_eq_nil_iff : (segments.findSome? copy).getD [] = [] ↔
      ∀ s value, FirstCopy segments copy s value → value = [] := by
  constructor
  · intro hnil s value h
    rwa [findSome?_copy.mpr ⟨s, h⟩] at hnil
  · intro h
    cases hf : segments.findSome? copy with
    | none => rfl
    | some v =>
      obtain ⟨s, hs⟩ := findSome?_copy.mp hf
      exact h s v hs

/-- A successful write takes the copy of the active segment: the search then finds what it finds in
the sealed ones. -/
theorem findSome?_copyAfter_true (hlive : m.live = active :: m.sealedSegments.reverse)
    (hnodup : m.live.Nodup) :
    m.live.findSome? (copyAfter m k active true) =
      m.sealedSegments.reverse.findSome? (copyIn m k.toBytes) := by
  rw [hlive] at hnodup ⊢
  have hactive := (List.nodup_cons.mp hnodup).1
  rw [List.findSome?_cons, show copyAfter m k active true active = none by simp [copyAfter]]
  simp only [← List.head?_filterMap]
  refine congrArg List.head? (List.filterMap_congr fun t ht => ?_)
  have hne : t ≠ active := fun h => hactive (h ▸ ht)
  simp [copyAfter, hne]

/-- **A deletion lasts, whatever reads run beside it**, if and only if it leaves nothing behind: for
every state that calls which report success lead to, every key and every way of the threads to take
turns, also where calls to a database fail. -/
theorem staysDeleted_iff {env₀ : Env} {options : StorageOptions} {m₀ m : SegmentManager}
    {calls : List Call} (h₀ : initializeEmpty env₀ options = (true, m₀))
    (hrun : runCalls env₀ m₀ calls = some m) (hsize : m.sealedSegments.length < 2 ^ 64)
    (key : Bytes) : (∀ env, StaysDeleted env key m) ↔ m.LeavesNothing key := by
  have hk : m.Kept := (runCalls_kept hrun).2 (initializeEmpty_kept h₀) hsize
  have hw := hk.sound.wellFormed
  obtain ⟨active, hactive, hlive⟩ := hw.live_eq
  by_cases hhidden : m.Hidden key
  · exact ⟨fun _ => .inl hhidden, fun _ => staysDeleted_of_hidden hhidden⟩
  -- a document that is not tombstoned
  obtain ⟨k, rfl, htomb⟩ : ∃ k : DocKey, key = k.toBytes ∧
      m.isTombstoned k.collection k.docId = false := by
    unfold Hidden at hhidden
    push Not at hhidden
    obtain ⟨c, d, hp, ht⟩ := hhidden
    obtain ⟨k, rfl, rfl, rfl⟩ := parseDocKey_eq_some hp
    exact ⟨k, rfl, by simpa using ht⟩
  have hfalse : copyAfter m k active false = copyIn m k.toBytes := by
    funext t
    simp [copyAfter]
  have hiff : m.LeavesNothing k.toBytes ↔ ∀ ok s value,
      FirstCopy m.live (copyAfter m k active ok) s value → value = [] := by
    simp only [← findSome?_getD_eq_nil_iff]
    unfold LeavesNothing newestCopy
    rw [or_iff_right hhidden, Bool.forall_bool, hfalse, findSome?_copyAfter_true hlive hk.nodup]
  rw [hiff]
  constructor
  · intro hstays ok s value hcopy
    obtain ⟨n, hn⟩ := late_read_of_copy hw hactive htomb hcopy
    exact hstays (raceEnv m.calls ok) _ value hn
  · intro hgone env
    exact staysDeleted_of_gone hw hactive fun n => hgone (env.ok n)

def sealingRun : List Call :=
  [.change (.batchSetDocuments [(lit "doc:c:1", lit "a"), (lit "doc:c:2", lit "b")])]

theorem staysDeleted_iff_sealingRun :
    ∃ m, runCalls calmEnv emptyStore sealingRun = some m ∧ m.sealedSegments.length = 1 ∧
      m.LeavesNothing (lit "doc:c:3") ∧ ∀ env, StaysDeleted env (lit "doc:c:3") m := by
  have hrun : (runCalls calmEnv emptyStore sealingRun).map (fun m =>
      (m.sealedSegments.length, m.newestCopy m.live (lit "doc:c:3"),
        m.newestCopy m.sealedSegments.reverse (lit "doc:c:3"))) = some (1, [], []) := by
    decide +kernel
  obtain ⟨m, hm, hcopies⟩ := Option.map_eq_some_iff.mp hrun
  simp only [Prod.mk.injEq] at hcopies
  obtain ⟨hlen, hcopies⟩ := hcopies
  refine ⟨m, hm, hlen, .inr hcopies, ?_⟩
  exact (staysDeleted_iff emptyStore_eq hm (by rw [hlen]; decide) _).mpr (.inr hcopies)

/-- The deletion has returned success, and a read that begins afterwards finds the document of the
sealed segment. No call to a database fails. -/
theorem deleted_document_returns : ∃ m, runCalls calmEnv emptyStore sealingRun = some m ∧
      (Race.run calmEnv (lit "doc:c:1") (raceTurns 1) { m }).deleter = .done 1 ∧
      (Race.run calmEnv (lit "doc:c:1") (raceTurns 1) { m }).readers =
        [(false, .done (lit "a")), (true, .done (lit "a"))] ∧
      ¬ StaysDeleted calmEnv (lit "doc:c:1") m := by
  have hrun : (runCalls calmEnv emptyStore sealingRun).map (fun m =>
      ((Race.run calmEnv (lit "doc:c:1") (raceTurns 1) { m }).deleter,
        (Race.run calmEnv (lit "doc:c:1") (raceTurns 1) { m }).readers)) =
      some (.done 1, [(false, .done (lit "a")), (true, .done (lit "a"))]) := by
    decide +kernel
  obtain ⟨m, hm, hrace⟩ := Option.map_eq_some_iff.mp hrun
  obtain ⟨hdeleter, hreaders⟩ := Prod.mk.inj hrace
  refine ⟨m, hm, hdeleter, hreaders, fun h => ?_⟩
  exact absurd (h (raceTurns 1) (lit "a") (by rw [hreaders]; simp)) (by decide)

end Hlquery.Store.SegmentManager
