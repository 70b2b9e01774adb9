import Hlquery.Lib.Runs
import Hlquery.Replication.Deliveries

/-!
# Deliveries at the same time

`processRequest` is what one connection does; the connections of a replica run side by side. A delivery
is checked, handled and recorded in three steps, and no lock is held from one to the next. The marker of
an operation is written behind the handler, so a second delivery that is checked before that finds
nothing and goes to the handler, too.
-/

set_option autoImplicit false

namespace Hlquery.Replication

open Http Runs

variable {σ : Type} (node : Node σ)

/-- The checks in front of the handler; `none` lets the request pass. -/
def passChecks (s : ReplicaState σ) (q : ReceivedRequest) : ReplicaState σ × Option Answer :=
  if !node.authorizes q then (s, some (.refused .unauthorized))
  else
    match if isMutating q then checkReplicationOperationDedup node s q else none with
    | some stored => (s, some (.replayed stored))
    | none =>
      if isMutating q then
        ((checkReadOnlyMode node s q).1, (checkReadOnlyMode node s q).2.map .refused)
      else (s, none)

theorem processRequest_eq_admit (s : ReplicaState σ) (q : ReceivedRequest) :
    processRequest node s q =
      match passChecks node s q with
      | (s, some answer) => (s, answer)
      | (s, none) => perform node s q := by
  unfold processRequest passChecks processNew
  cases node.authorizes q with
  | false => rfl
  | true =>
    cases hdedup : (if isMutating q then checkReplicationOperationDedup node s q else none) with
    | some stored => simp
    | none =>
      cases hmut : isMutating q with
      | false => simp
      | true => rcases hmode : checkReadOnlyMode node s q with ⟨s', _ | why⟩ <;> simp_all

inductive Progress where
  | waiting
  | admitted
  | handled (response : Response)
  | answered (answer : Answer)

/-- A replica and how far it is with its deliveries. -/
structure Concurrent (σ : Type) where
  state : ReplicaState σ
  progress : Nat → Progress := fun _ => .waiting

inductive DeliveryStep where
  | check (i : Nat)
  | handle (i : Nat)
  | record (i : Nat) (written : Bool)

variable (request : Nat → ReceivedRequest)

def Concurrent.step (s : Concurrent σ) : DeliveryStep → Concurrent σ
  | .check i =>
    match s.progress i with
    | .waiting =>
      let result := passChecks node s.state (request i)
      { state := result.1
        progress := Function.update s.progress i (result.2.elim .admitted .answered) }
    | _ => s
  | .handle i =>
    match s.progress i with
    | .admitted =>
      let result := node.handle s.state.store (request i)
      { state := { s.state with store := result.1 }
        progress := Function.update s.progress i (.handled result.2) }
    | _ => s
  | .record i written =>
    match s.progress i with
    | .handled response =>
      let state := if written then
        finalizeReplicationOperation node s.state (request i) response else s.state
      { state := finalizeReplicationResyncRequest node state (request i) response
        progress := Function.update s.progress i (.answered (.performed response)) }
    | _ => s

structure SameOperation (i j : Nat) : Prop where
  mutating : isMutating (request i) = true ∧ isMutating (request j) = true
  hop : isAuthorizedReplicationHop node.config (request i) = true ∧
    isAuthorizedReplicationHop node.config (request j) = true
  id_ne : replicationOperationHeader (request i) ≠ []
  id_eq : replicationOperationHeader (request j) = replicationOperationHeader (request i)

def Progress.executed : Progress → Bool
  | .handled response => response.isSuccess
  | .answered answer => answer.executed
  | _ => false

def Progress.underWay : Progress → Bool
  | .admitted | .handled _ => true
  | _ => false

def Concurrent.AtMostOnce (s : Concurrent σ) : Prop :=
  ∀ i j, SameOperation node request i j → (s.progress i).executed = true →
    (s.progress j).executed = true → i = j

/-- A delivery is checked while no other one of its operation is under way, and markers are written. -/
def Concurrent.Meets (s : Concurrent σ) : DeliveryStep → Prop
  | .check i => ∀ j, SameOperation node request i j → (s.progress j).underWay = false
  | .handle _ => True
  | .record _ written => written = true

def Progress.took (p : Progress) : Bool := p.underWay || p.executed

/-- Of the deliveries of an operation one at most is under way or was executed, and an answer of the
handler has left its marker. -/
structure Concurrent.Inv (s : Concurrent σ) : Prop where
  one : ∀ {i j}, SameOperation node request i j → (s.progress i).took = true →
    (s.progress j).took = true → i = j
  marked : ∀ {i j answer}, SameOperation node request i j → s.progress j = .answered answer →
    answer.executed = true → (s.state.applied[replicationOperationHeader (request i)]?).isSome

variable {node request}

theorem SameOperation.symm {i j : Nat} (h : SameOperation node request i j) :
    SameOperation node request j i :=
  ⟨h.mutating.symm, h.hop.symm, h.id_eq ▸ h.id_ne, h.id_eq.symm⟩

namespace Concurrent

variable {s s' : Concurrent σ} {i : Nat} {p : Progress}

/-- One delivery goes on. -/
theorem Inv.update (h : s.Inv node request) (hp : s'.progress = Function.update s.progress i p)
    (happlied : ∀ id : Bytes, (s.state.applied[id]?).isSome → (s'.state.applied[id]?).isSome)
    (hone : p.took = true → (s.progress i).took = true ∨
      ∀ j, SameOperation node request i j → (s.progress j).took = false)
    (hmarked : ∀ {j answer}, SameOperation node request j i → p = .answered answer →
      answer.executed = true → (s'.state.applied[replicationOperationHeader (request j)]?).isSome) :
    s'.Inv node request := by
  have hnew : ∀ {j}, SameOperation node request i j → p.took = true → (s.progress j).took = true →
      i = j := by
    intro j hsame hi hj
    rcases hone hi with htook | hnone
    · exact h.one hsame htook hj
    · simp [hnone j hsame] at hj
  constructor
  · intro j k hsame hj hk
    rw [hp, Function.update_apply] at hj hk
    split_ifs at hj hk with hji hki hki
    · rw [hji, hki]
    · exact hji.trans (hnew (hji ▸ hsame) hj hk)
    · exact ((hnew (hki ▸ hsame.symm) hk hj).symm.trans hki.symm)
    · exact h.one hsame hj hk
  · intro j k answer hsame hk hexec
    rw [hp, Function.update_apply] at hk
    split_ifs at hk with hki
    · exact hmarked (hki ▸ hsame) hk hexec
    · exact happlied _ (h.marked hsame hk hexec)

theorem applied_checkReadOnlyMode (s : ReplicaState σ) (q : ReceivedRequest) :
    (checkReadOnlyMode node s q).1.applied = s.applied := by
  unfold checkReadOnlyMode checkReplicationResyncFence
  split_ifs <;> try rfl
  all_goals dsimp only; split <;> try split
  all_goals first | rfl | (split_ifs <;> rfl)

theorem passChecks_spec (node : Node σ) (s : ReplicaState σ) (q : ReceivedRequest) :
    (passChecks node s q).1.applied = s.applied ∧
    (∀ answer, (passChecks node s q).2 = some answer → answer.executed = false) ∧
    ((passChecks node s q).2 = none → isMutating q = true →
      checkReplicationOperationDedup node s q = none) := by
  unfold passChecks
  split
  · simp [Answer.executed]
  split
  · simp [Answer.executed]
  rename_i hdedup
  split
  · rename_i hmutating
    rw [if_pos hmutating] at hdedup
    refine ⟨applied_checkReadOnlyMode s q, ?_, fun _ _ => hdedup⟩
    intro answer h
    obtain ⟨why, -, rfl⟩ := Option.map_eq_some_iff.mp h
    rfl
  · rename_i hmutating
    exact ⟨rfl, fun _ h => (nomatch h), fun _ h => absurd h hmutating⟩

theorem Inv.step (h : s.Inv node request) {e : DeliveryStep} (he : s.Meets node request e) :
    (s.step node request e).Inv node request := by
  cases e with
  | check i =>
    dsimp only [Concurrent.step]
    split
    · obtain ⟨happlied, hanswer, hdedup⟩ := passChecks_spec node s.state (request i)
      cases hpassed : (passChecks node s.state (request i)).2 with
      | some answer =>
        have hrefused := hanswer answer hpassed
        refine h.update rfl (by simp [happlied]) ?_ ?_
        · intro htook
          simp [Progress.took, Progress.underWay, Progress.executed, hrefused] at htook
        · rintro j _ - ⟨⟩ hexec
          simp [hrefused] at hexec
      | none =>
        refine h.update rfl (by simp [happlied]) (fun _ => .inr ?_) (fun _ hp => nomatch hp)
        intro j hsame
        cases hprogress : s.progress j with
        | answered answer =>
          -- what was executed has its marker, and the check would have found it
          by_contra hexec
          have hnone := hdedup hpassed hsame.mutating.1
          unfold checkReplicationOperationDedup at hnone
          rw [if_pos ⟨hsame.hop.1, hsame.id_ne⟩] at hnone
          have hsome := h.marked hsame hprogress (by
            simpa [Progress.took, Progress.underWay, Progress.executed] using hexec)
          rw [hnone] at hsome
          cases hsome
        | waiting => rfl
        | _ => exact absurd (he j hsame) (by simp [hprogress, Progress.underWay])
    · exact h
  | handle i =>
    dsimp only [Concurrent.step]
    split
    · rename_i hprogress
      exact h.update rfl (fun _ hid => hid) (fun _ => .inl (hprogress ▸ rfl))
        (fun _ hp => nomatch hp)
    · exact h
  | record i written =>
    dsimp only [Concurrent.step]
    split
    · rename_i response hprogress
      obtain rfl : written = true := he
      have happlied : ∀ s : ReplicaState σ,
          (finalizeReplicationResyncRequest node s (request i) response).applied = s.applied := by
        intro s
        unfold finalizeReplicationResyncRequest
        split <;> rfl
      refine h.update rfl ?_ (fun _ => .inl (hprogress ▸ rfl)) ?_
      · intro id hid
        rw [happlied, if_pos rfl]
        unfold finalizeReplicationOperation
        split
        · rw [ByteMap.get_insert]
          split
          · rfl
          · exact hid
        · exact hid
      · rintro j _ hsame ⟨⟩ hexec
        rw [happlied, if_pos rfl]
        unfold finalizeReplicationOperation
        rw [if_pos ⟨hsame.hop.2, hexec, hsame.symm.id_ne⟩, hsame.id_eq, ByteMap.get_insert, if_pos rfl]
        rfl
    · exact h

/-- A delivery of the operation 1-1. -/
def sampleDelivery : ReceivedRequest where
  head := lit "POST /collections/c/documents HTTP/1.1\r\nAuthorization: Bearer t\r\n" ++
    lit "X-HLQ-Replication-Hop: 1\r\nX-HLQ-Replication-Op: 1-1\r\n"
  body := lit "d"

end Concurrent

end Hlquery.Replication
