import Hlquery.Replication.Deliveries

/-!
# The order of a replay

The outbox is a part of the database, and `ReplayCommittedReplicationOutbox` goes through it in the
order of the keys. A key ends in the time and the counter of the record, both as `std::to_string` writes
them, without leading zeros: the replay goes by the first digits and not by the numbers, and the
operation 10 is sent before the operation 9 of the same millisecond.
-/

set_option autoImplicit false

namespace Hlquery

open Bytes

/-- The entries of a map that was made of entries with different keys. -/
theorem ByteMap.toList_insertAll_perm {V : Type} {entries : List (Bytes × V)}
    (h : (entries.map Prod.fst).Nodup) : (insertAll ∅ entries).toList.Perm entries := by
  have hnodup : (insertAll (∅ : ByteMap V) entries).toList.Nodup :=
    Std.ExtTreeMap.distinct_keys_toList.imp fun {a b} hab he => hab (by rw [he, Std.compare_self])
  refine (List.perm_ext_iff_of_nodup hnodup h.of_map).mpr ?_
  rintro ⟨k, v⟩
  rw [Std.ExtTreeMap.mem_toList_iff_getElem?_eq_some, get_insertAll h]
  simp

theorem decimal_injective {m n : Nat} (h : decimal m = decimal n) : m = n := by
  rw [← digitsValue_decimal m, h, digitsValue_decimal]

theorem dash_lt_of_isDigit {d : UInt8} (h : isDigit d = true) : 45 < d := by
  simp only [isDigit, Bool.and_eq_true, decide_eq_true_eq] at h
  exact UInt8.lt_of_lt_of_le (by decide) h.1

/-- Two texts that begin with digits and a dash are compared by their digits first: a dash is below
every digit. -/
theorem compare_dash {s t : Bytes} : ∀ {a b : Bytes}, (∀ d ∈ a, isDigit d = true) →
    (∀ d ∈ b, isDigit d = true) →
    compare (a ++ 45 :: s) (b ++ 45 :: t) = (compare a b).then (compare s t)
  | [], [], _, _ => compare_append_left [45] s t
  | [], d :: b, _, hb => compare_cons_of_lt (dash_lt_of_isDigit (hb d List.mem_cons_self)) _ _
  | d :: a, [], ha, _ =>
    Std.OrientedCmp.gt_of_lt (compare_cons_of_lt (dash_lt_of_isDigit (ha d List.mem_cons_self)) _ _)
  | d :: a, e :: b, ha, hb => by
    have ih := compare_dash (s := s) (t := t) (fun x hx => ha x (List.mem_cons_of_mem _ hx))
      fun x hx => hb x (List.mem_cons_of_mem _ hx)
    show List.compareLex compare (d :: (a ++ 45 :: s)) (e :: (b ++ 45 :: t)) =
      (List.compareLex compare (d :: a) (e :: b)).then _
    rw [List.compareLex_cons_cons, List.compareLex_cons_cons, Ordering.then_assoc]
    exact congrArg _ ih

namespace Replication

/-- A record of the outbox, as it is after a crash: `SerializeReplicationOutboxRecord`. -/
structure OutboxRecord (Op : Type) where
  timestamp : Nat
  sequence : Nat
  committed : Bool := true
  bodyTruncated : Bool := false
  operation : Op
  deriving DecidableEq

variable {Op : Type}

namespace OutboxRecord

/-- `BuildReplicationOutboxKey`. -/
def key (r : OutboxRecord Op) : Bytes :=
  lit "replication_outbox:" ++ entryId r.timestamp r.sequence

/-- A record that was not committed, and one whose body was cut off, is not sent: the replicas are
marked for a resync. -/
def isSent (r : OutboxRecord Op) : Bool := r.committed && !r.bodyTruncated

/-- The texts of times and counters put the first record before the second. -/
def Before (r r' : OutboxRecord Op) : Prop :=
  compare (decimal r.timestamp) (decimal r'.timestamp) = .lt ∨
    r.timestamp = r'.timestamp ∧ compare (decimal r.sequence) (decimal r'.sequence) = .lt

theorem compare_key_lt_iff (r r' : OutboxRecord Op) :
    compare r.key r'.key = .lt ↔ r.Before r' := by
  have hdash := compare_dash (s := decimal r.sequence) (t := decimal r'.sequence)
    (a := decimal r.timestamp) (b := decimal r'.timestamp) (fun _ => isDigit_of_mem_decimal)
    fun _ => isDigit_of_mem_decimal
  unfold key entryId
  rw [compare_append_left, List.append_assoc, List.append_assoc]
  show compare (decimal r.timestamp ++ 45 :: decimal r.sequence)
    (decimal r'.timestamp ++ 45 :: decimal r'.sequence) = .lt ↔ _
  rw [hdash, Ordering.then_eq_lt, Std.compare_eq_iff_eq]
  constructor
  · rintro (h | ⟨heq, h⟩)
    · exact .inl h
    · exact .inr ⟨decimal_injective heq, h⟩
  · rintro (h | ⟨heq, h⟩)
    · exact .inl h
    · exact .inr ⟨congrArg decimal heq, h⟩

end OutboxRecord

def outboxOf (prepared : List (OutboxRecord Op)) : ByteMap (OutboxRecord Op) :=
  .insertAll ∅ (prepared.map fun r => (r.key, r))

/-- The records that `ReplayCommittedReplicationOutbox` sends, in the order in which it does. -/
def replayed (outbox : ByteMap (OutboxRecord Op)) : List (OutboxRecord Op) :=
  (outbox.toList.map Prod.snd).filter OutboxRecord.isSent

variable {prepared : List (OutboxRecord Op)}

section

variable (hkeys : (prepared.map OutboxRecord.key).Nodup)
include hkeys

theorem outboxOf_perm
    :
    (outboxOf prepared).toList.Perm (prepared.map fun r => (r.key, r)) :=
  ByteMap.toList_insertAll_perm (by simpa [Function.comp_def] using hkeys)

theorem replayed_perm
    :
    (replayed (outboxOf prepared)).Perm (prepared.filter OutboxRecord.isSent) := by
  have hperm := (outboxOf_perm hkeys).map Prod.snd
  simp only [List.map_map, Function.comp_def, List.map_id'] at hperm
  exact hperm.filter _

theorem replayed_before
    :
    (replayed (outboxOf prepared)).Pairwise OutboxRecord.Before := by
  refine List.Pairwise.filter _ (List.pairwise_map.mpr ?_)
  have hkey : ∀ entry ∈ (outboxOf prepared).toList, entry.1 = entry.2.key := by
    intro entry hentry
    obtain ⟨r, -, rfl⟩ := List.mem_map.mp ((outboxOf_perm hkeys).mem_iff.mp hentry)
    rfl
  refine Std.ExtTreeMap.ordered_keys_toList.imp_of_mem ?_
  intro e e' he he' hlt
  rw [← OutboxRecord.compare_key_lt_iff, ← hkey e he, ← hkey e' he']
  exact hlt

end

end Replication

end Hlquery
