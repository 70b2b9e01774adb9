import Hlquery.Replication.Bodies
import Hlquery.Replication.Journal

/-!
# Replicas follow the primary

A write is applied to the documents of the primary and sent to the replicas in steps of its own, and
no lock holds the steps of one write together. Two writes to one document can therefore reach a
replica in the other order than they reached the primary. What a replica makes of a request is a
second question: an update is sent as the whole document it led to, and merged into the document of
the replica.

`InOrder` is what holds as long as neither goes wrong. A replica that is not marked agrees with the
primary on every document but those that a write is still to be sent for, and a request that is still
to be sent will bring its documents to where the primary has them.
-/

set_option autoImplicit false
set_option linter.unusedSectionVars false

namespace Hlquery.Replication

/-! ## What a request looks at -/

section Requests

variable {Id Doc Payload : Type} [DecidableEq Id] {codec : Codec Doc Payload}
variable {docs docs' d d' : Docs Id Doc} {r r' : Request Id Doc Payload} {e : Effect Id Doc}
variable {clock : Nat} {id : Id}

def Request.Alike (r : Request Id Doc Payload) (docs docs' : Docs Id Doc) : Prop :=
  ∀ id, r.touches id → docs id = docs' id

def Request.Apart (r r' : Request Id Doc Payload) : Prop :=
  ∀ id, r.touches id → ¬ r'.touches id

def Request.byFilter : Request Id Doc Payload → Bool
  | .eraseWhere _ => true
  | _ => false

def Effect.ids : Effect Id Doc → List Id
  | .put entries => entries.map Prod.fst
  | .erase ids => ids

def Within (e : Effect Id Doc) (r : Request Id Doc Payload) : Prop :=
  ∀ id ∈ e.ids, r.touches id

theorem Request.Alike.symm (h : r.Alike docs docs') : r.Alike docs' docs :=
  fun id hid => (h id hid).symm

theorem Request.Alike.trans (h : r.Alike docs docs') (h' : r.Alike docs' d) : r.Alike docs d :=
  fun id hid => (h id hid).trans (h' id hid)

theorem Request.Apart.symm (h : r.Apart r') : r'.Apart r :=
  fun id hid hid' => h id hid' hid

theorem assignAll_cons (entry : Id × Option Doc) (rest : List (Id × Option Doc)) :
    assignAll docs (entry :: rest) = assignAll (Function.update docs entry.1 entry.2) rest :=
  rfl

variable {entries : List (Id × Option Doc)}

theorem assignAll_of_not_mem (h : id ∉ entries.map Prod.fst) :
    assignAll docs entries id = docs id := by
  induction entries generalizing docs with
  | nil => rfl
  | cons entry rest ih =>
    rw [List.map_cons, List.mem_cons, not_or] at h
    exact (ih h.2).trans (Function.update_of_ne h.1 _ _)

theorem assignAll_congr (h : docs id = docs' id) :
    assignAll docs entries id = assignAll docs' entries id := by
  induction entries generalizing docs docs' with
  | nil => exact h
  | cons entry rest ih =>
    rw [assignAll_cons, assignAll_cons]
    refine ih ?_
    by_cases hid : id = entry.1
    · rw [hid, Function.update_self, Function.update_self]
    · rw [Function.update_of_ne hid, Function.update_of_ne hid, h]

/-- The last assignment counts, whatever was there before. -/
theorem assignAll_of_mem (h : id ∈ entries.map Prod.fst) :
    assignAll docs entries id = assignAll docs' entries id := by
  induction entries generalizing docs docs' with
  | nil => exact absurd h List.not_mem_nil
  | cons entry rest ih =>
    rw [assignAll_cons, assignAll_cons]
    by_cases hid : id = entry.1
    · refine assignAll_congr ?_
      rw [hid, Function.update_self, Function.update_self]
    · rw [List.map_cons, List.mem_cons, or_iff_right hid] at h
      exact ih h

theorem assignAll_none_of_mem {ids : List Id} (h : id ∈ ids) :
    assignAll docs (ids.map fun id => (id, none)) id = none := by
  induction ids generalizing docs with
  | nil => exact absurd h List.not_mem_nil
  | cons id' rest ih =>
    by_cases hrest : id ∈ rest
    · exact ih hrest
    rw [List.mem_cons, or_iff_left hrest] at h
    rw [List.map_cons, assignAll_cons, assignAll_of_not_mem (by simpa using hrest), h,
      Function.update_self]

theorem applyRequest_of_not_touches (h : applyRequest codec clock docs r = some d)
    (hid : ¬ r.touches id) : d id = docs id := by
  cases r with
  | put id' body =>
    cases h
    exact Function.update_of_ne hid _ _
  | revise id' _ | erase id' =>
    obtain ⟨old, -, rfl⟩ := Option.map_eq_some_iff.mp h
    exact Function.update_of_ne hid _ _
  | putAll bodies =>
    cases h
    refine assignAll_of_not_mem ?_
    intro hmem
    refine hid ?_
    rw [List.map_map] at hmem
    exact hmem
  | eraseWhere select => exact absurd trivial hid

/-- What a request does depends on the documents it is about, and on nothing else. -/
theorem applyRequest_congr (h : applyRequest codec clock docs r = some d)
    (halike : r.Alike docs docs') :
    ∃ d', applyRequest codec clock docs' r = some d' ∧ r.Alike d d' := by
  cases r with
  | put id' body =>
    cases h
    refine ⟨_, rfl, ?_⟩
    intro id hid
    obtain rfl : id = id' := hid
    simp
  | revise id' _ | erase id' =>
    obtain ⟨old, hold, rfl⟩ := Option.map_eq_some_iff.mp h
    refine ⟨_, Option.map_eq_some_iff.mpr ⟨old, (halike id' rfl).symm.trans hold, rfl⟩, ?_⟩
    intro id hid
    obtain rfl : id = id' := hid
    simp
  | putAll bodies =>
    cases h
    exact ⟨_, rfl, fun id hid => assignAll_congr (halike id hid)⟩
  | eraseWhere select =>
    obtain rfl : docs = docs' := funext fun id => halike id trivial
    exact ⟨d, h, fun _ _ => rfl⟩

theorem applyEffect_erase_eq_some {ids : List Id} (h : applyEffect docs (.erase ids) = some d) :
    (∃ id ∈ ids, (docs id).isSome = true) ∧ assignAll docs (ids.map fun id => (id, none)) = d := by
  simpa [applyEffect] using h

section

variable (h : applyEffect docs e = some d)
include h

theorem applyEffect_of_not_mem (hid : id ∉ e.ids) :
    d id = docs id := by
  cases e with
  | put entries =>
    cases h
    refine assignAll_of_not_mem ?_
    rw [List.map_map]
    exact hid
  | erase ids =>
    obtain ⟨-, rfl⟩ := applyEffect_erase_eq_some h
    refine assignAll_of_not_mem ?_
    simpa [Function.comp_def, Effect.ids] using hid

theorem applyEffect_of_not_touches (hwithin : Within e r)
    (hid : ¬ r.touches id) : d id = docs id :=
  applyEffect_of_not_mem h fun hmem => hid (hwithin id hmem)

theorem applyEffect_congr (hwithin : Within e r)
    (halike : r.Alike docs docs') : ∃ d', applyEffect docs' e = some d' ∧ r.Alike d d' := by
  cases e with
  | put entries =>
    cases h
    exact ⟨_, rfl, fun id hid => assignAll_congr (halike id hid)⟩
  | erase ids =>
    obtain ⟨⟨id, hid, hsome⟩, rfl⟩ := applyEffect_erase_eq_some h
    have hany : (ids.any fun id => (docs' id).isSome) = true :=
      List.any_eq_true.mpr ⟨id, hid, halike id (hwithin id hid) ▸ hsome⟩
    exact ⟨_, if_pos hany, fun id hid => assignAll_congr (halike id hid)⟩

end

theorem resolve_within {write : Write Id Doc Payload}
    (h : resolve codec clock docs write = some (e, r)) : Within e r := by
  cases write with
  | update id body =>
    obtain ⟨old, -, hpair⟩ := Option.map_eq_some_iff.mp h
    cases hpair
    intro id' hid
    exact List.mem_singleton.mp hid
  | add id _ | delete id =>
    cases h
    intro id' hid
    exact List.mem_singleton.mp hid
  | importDocuments bodies =>
    cases h
    intro id' hid
    simpa [Effect.ids, Request.touches] using hid
  | deleteWhere select =>
    simp only [resolve] at h
    split at h
    · cases h
    · cases h
      exact fun _ _ => trivial

/-! ## Requests that say what the primary did -/

/-- The request, performed where its documents are as they are here, leaves them so. -/
def Stable (codec : Codec Doc Payload) (docs : Docs Id Doc) (r : Request Id Doc Payload) : Prop :=
  ∀ docs', r.Alike docs docs' → ∀ clock d, applyRequest codec clock docs' r = some d →
    r.Alike docs d

/-- The request, performed where its documents are as they are here, does to them what the local
write does here. Performed once more it changes nothing. -/
def Faithful (codec : Codec Doc Payload) (docs : Docs Id Doc) (e : Effect Id Doc)
    (r : Request Id Doc Payload) : Prop :=
  ∀ d, applyEffect docs e = some d →
    (∀ docs', r.Alike docs docs' → ∀ clock d', applyRequest codec clock docs' r = some d' →
      r.Alike d d') ∧
    (r.byFilter = false → Stable codec d r)

theorem Stable.congr (h : Stable codec docs r) (halike : r.Alike docs docs') :
    Stable codec docs' r := by
  intro docs'' h' clock d hd
  exact halike.symm.trans (h docs'' (halike.trans h') clock d hd)

theorem Faithful.congr (h : Faithful codec docs e r) (hwithin : Within e r)
    (halike : r.Alike docs docs') : Faithful codec docs' e r := by
  intro d' hd'
  obtain ⟨d, hd, hdd⟩ := applyEffect_congr hd' hwithin halike.symm
  obtain ⟨hfirst, hagain⟩ := h d hd
  refine ⟨?_, fun hfilter => (hagain hfilter).congr hdd.symm⟩
  intro docs'' h' clock d'' hd''
  exact hdd.trans (hfirst docs'' (halike.trans h') clock d'' hd'')

/-- **What a replica makes of the request is what the primary stores.** The body of the request is
built from the document; a replica stores what it reads from it. For an update the replica reads it
into the document that it has, be it the old one or, after a resync, the new one. -/
def Carried (codec : Codec Doc Payload) (clock : Nat) (docs : Docs Id Doc) :
    Write Id Doc Payload → Prop
  | .add _ body =>
      ∀ clock', codec.store clock' (codec.parse clock' (codec.build (codec.parse clock body))) =
        codec.store clock (codec.parse clock body)
  | .importDocuments bodies =>
      ∀ b ∈ bodies, ∀ clock',
        codec.store clock' (codec.parse clock' (codec.build (codec.parse clock b.2))) =
          codec.store clock (codec.parse clock b.2)
  | .update id body =>
      ∀ old, docs id = some old → ∀ clock', ∀ found,
        found = old ∨ found = codec.store clock (codec.revise clock old body) →
        codec.store clock' (codec.revise clock' found (codec.build (codec.revise clock old body))) =
          codec.store clock (codec.revise clock old body)
  | .delete _ | .deleteWhere _ => True

theorem Carried.faithful {write : Write Id Doc Payload} (h : Carried codec clock docs write)
    (hresolve : resolve codec clock docs write = some (e, r)) : Faithful codec docs e r := by
  cases write with
  | add id body =>
    cases hresolve
    intro d hd
    cases hd
    refine ⟨?_, fun _ => ?_⟩
    all_goals
      intro docs' _ clock' d' hd'
      cases hd'
      intro id' hid
      obtain rfl : id' = id := hid
      simp [assignAll, h clock']
  | update id body =>
    obtain ⟨old, hold, hpair⟩ := Option.map_eq_some_iff.mp hresolve
    cases hpair
    intro d hd
    cases hd
    refine ⟨?_, fun _ => ?_⟩
    all_goals
      intro docs' halike clock' d' hd'
      obtain ⟨found, hfound, rfl⟩ := Option.map_eq_some_iff.mp hd'
      rw [← halike id rfl] at hfound
      intro id' hid
      obtain rfl : id' = id := hid
    · rw [hold] at hfound
      have := h old hold clock' found (.inl (Option.some.inj hfound).symm)
      simp [assignAll, this]
    · have hnew : found = codec.store clock (codec.revise clock old body) := by
        simpa [assignAll] using hfound.symm
      have := h old hold clock' found (.inr hnew)
      simp [assignAll, this]
  | delete id =>
    cases hresolve
    intro d hd
    obtain ⟨-, rfl⟩ := applyEffect_erase_eq_some hd
    refine ⟨?_, fun _ => ?_⟩
    all_goals
      intro docs' halike clock' d' hd'
      obtain ⟨found, hfound, rfl⟩ := Option.map_eq_some_iff.mp hd'
      intro id' hid
      obtain rfl : id' = id := hid
      simp [assignAll]
  | importDocuments bodies =>
    cases hresolve
    intro d hd
    cases hd
    -- The replica assigns the same documents in the same order.
    have hsame : ∀ clock' : Nat,
        ((bodies.map fun b => (b.1, codec.parse clock b.2)).map fun b => (b.1, codec.build b.2)).map
          (fun b => (b.1, some (codec.store clock' (codec.parse clock' b.2)))) =
        ((bodies.map fun b => (b.1, codec.parse clock b.2)).map fun b =>
          (b.1, codec.store clock b.2)).map (fun b => (b.1, some b.2)) := by
      intro clock'
      simp only [List.map_map]
      refine List.map_congr_left ?_
      intro b hb
      simp [h b hb clock']
    refine ⟨?_, fun _ => ?_⟩
    all_goals
      intro docs' _ clock' d' hd'
      cases hd'
      intro id hid
      rw [hsame clock']
      refine assignAll_of_mem ?_
      simpa [Request.touches] using hid
  | deleteWhere select =>
    simp only [resolve] at hresolve
    split at hresolve
    · cases hresolve
    cases hresolve
    intro d hd
    refine ⟨?_, nofun⟩
    intro docs' halike clock' d' hd'
    obtain rfl : docs = docs' := funext fun id => halike id trivial
    obtain ⟨-, rfl⟩ := applyEffect_erase_eq_some hd
    cases hd'
    exact fun _ _ => rfl

theorem applyRequest_eraseWhere_of_none {select : Docs Id Doc → List Id}
    (hnone : ∀ id ∈ select docs, docs id = none)
    (h : applyRequest codec clock docs (.eraseWhere select) = some d) : d = docs := by
  cases h
  funext id
  by_cases hid : id ∈ select docs
  · rw [assignAll_none_of_mem hid, hnone id hid]
  · exact assignAll_of_not_mem (by simpa using hid)

end Requests

/-! ## Writes that are under way -/

namespace Phase

variable {Node Id Doc Payload : Type} [DecidableEq Node]

/-- The request of a write that the documents of the primary may still differ by. A write that is
left from before a restart counts if it reached the documents. -/
def active (present : Bool) : Phase Node Id Doc Payload → Option (Request Id Doc Payload)
  | .prepared _ r | .written r | .sending _ r _ _ _ => some r
  | .marking r _ => if present then some r else none
  | .idle | .finished => none

/-- The request of a write that the documents went through and that is sent, or will be. -/
def sent : Phase Node Id Doc Payload → Option (Request Id Doc Payload)
  | .written r | .sending _ r _ _ _ => some r
  | .idle | .prepared _ _ | .marking _ _ | .finished => none

def owed (n : Node) : Phase Node Id Doc Payload → Option (Request Id Doc Payload)
  | .written r => some r
  | .sending _ r rest _ _ => if n ∈ rest then some r else none
  | .idle | .prepared _ _ | .marking _ _ | .finished => none

def behind (n : Node) (present : Bool) : Phase Node Id Doc Payload → Option (Request Id Doc Payload)
  | .written r => some r
  | .sending _ r rest _ _ => if n ∈ rest then some r else none
  | .marking r rest => if present ∧ n ∈ rest then some r else none
  | .idle | .prepared _ _ | .finished => none

variable {p : Phase Node Id Doc Payload} {n : Node} {present : Bool} {r : Request Id Doc Payload}

theorem sent_of_owed (h : p.owed n = some r) : p.sent = some r := by
  cases p <;> simp_all [owed, sent]

theorem active_of_sent (h : p.sent = some r) : p.active present = some r := by
  cases p <;> simp_all [sent, active]

theorem active_of_behind (h : p.behind n present = some r) : p.active present = some r := by
  cases p <;> simp_all [behind, active]

theorem request_of_active (h : p.active present = some r) : p.request = some r := by
  cases p <;> simp_all [active, request]

end Phase

namespace State

variable {Node Id Doc Payload : Type} [DecidableEq Node] [DecidableEq Id]
variable {codec : Codec Doc Payload} {config : Config Node}
variable {s s' : State Node Id Doc Payload} {w : Nat} {n : Node}

/-- The writes that are under way are about different documents, and each request says what the
primary does, or did. -/
structure Ordered (codec : Codec Doc Payload) (config : Config Node)
    (s : State Node Id Doc Payload) : Prop where
  apart : ∀ w w' r r', w ≠ w' → (s.phase w).active (s.present w) = some r →
    (s.phase w').active (s.present w') = some r' → r.Apart r'
  ready : ∀ w e r, s.phase w = .prepared e r → Within e r ∧ Faithful codec s.docs e r
  stable : ∀ w r, (s.phase w).sent = some r → r.byFilter = false → Stable codec s.docs r
  present : ∀ w r, s.phase w = .written r → s.present w = true
  rest : ∀ w b r rest a q, s.phase w = .sending b r rest a q → rest <:+ config.nodes

/-- **The replica has every document that it is not waiting for as the primary has it, and what it is
waiting for will bring the others there.** -/
structure Follows (codec : Codec Doc Payload) (s : State Node Id Doc Payload) (n : Node) :
    Prop where
  agree : ∀ id, (∀ w r, (s.phase w).behind n (s.present w) = some r → ¬ r.touches id) →
    s.replica n id = s.docs id
  sendable : ∀ w r, (s.phase w).owed n = some r →
    ∀ clock d, applyRequest codec clock (s.replica n) r = some d → r.Alike s.docs d

structure InOrder (codec : Codec Doc Payload) (config : Config Node)
    (s : State Node Id Doc Payload) : Prop where
  inStep : InStep config s
  ordered : Ordered codec config s
  follows : ∀ n ∈ config.nodes, ¬ s.Marked n → Follows codec s n

/-- What `Ordered` says of a single write. -/
structure WriteOrdered (codec : Codec Doc Payload) (config : Config Node) (docs : Docs Id Doc)
    (present : Bool) (p : Phase Node Id Doc Payload) : Prop where
  ready : ∀ e r, p = .prepared e r → Within e r ∧ Faithful codec docs e r
  stable : ∀ r, p.sent = some r → r.byFilter = false → Stable codec docs r
  present : ∀ r, p = .written r → present = true
  rest : ∀ b r rest a q, p = .sending b r rest a q → rest <:+ config.nodes

theorem Ordered.write (h : Ordered codec config s) (w : Nat) :
    WriteOrdered codec config s.docs (s.present w) (s.phase w) :=
  ⟨h.ready w, h.stable w, h.present w, h.rest w⟩

theorem Ordered.of_writes
    (hapart : ∀ w w' r r', w ≠ w' → (s.phase w).active (s.present w) = some r →
      (s.phase w').active (s.present w') = some r' → r.Apart r')
    (h : ∀ w, WriteOrdered codec config s.docs (s.present w) (s.phase w)) : Ordered codec config s :=
  ⟨hapart, fun w => (h w).ready, fun w => (h w).stable, fun w => (h w).present, fun w => (h w).rest⟩

/-- A write does not see a change to documents that it is not about. -/
theorem WriteOrdered.congr {docs docs' : Docs Id Doc} {present : Bool}
    {p : Phase Node Id Doc Payload} (h : WriteOrdered codec config docs present p)
    (halike : ∀ r, p.active present = some r → r.Alike docs docs') :
    WriteOrdered codec config docs' present p where
  ready := by
    intro e r hp
    obtain ⟨hwithin, hfaithful⟩ := h.ready e r hp
    exact ⟨hwithin, hfaithful.congr hwithin (halike r (by rw [hp]; rfl))⟩
  stable := fun r hr hfilter =>
    (h.stable r hr hfilter).congr (halike r (Phase.active_of_sent hr))
  present := h.present
  rest := h.rest

theorem Ordered.congr (h : Ordered codec config s) (hdocs : s'.docs = s.docs)
    (hphase : s'.phase = s.phase) (hpresent : s'.present = s.present) : Ordered codec config s' where
  apart := by rw [hphase, hpresent]; exact h.apart
  ready := by rw [hphase, hdocs]; exact h.ready
  stable := by rw [hphase, hdocs]; exact h.stable
  present := by rw [hphase, hpresent]; exact h.present
  rest := by rw [hphase]; exact h.rest

theorem Follows.congr (h : Follows codec s n) (hdocs : s'.docs = s.docs)
    (hphase : s'.phase = s.phase) (hpresent : s'.present = s.present)
    (hreplica : s'.replica n = s.replica n) : Follows codec s' n where
  agree := by rw [hphase, hpresent, hdocs, hreplica]; exact h.agree
  sendable := by rw [hphase, hdocs, hreplica]; exact h.sendable

/-- A step that marks replicas, and changes the documents of none that is not marked. -/
theorem InOrder.of_marks (h : InOrder codec config s) (hstep : InStep config s')
    (hdocs : s'.docs = s.docs) (hphase : s'.phase = s.phase) (hpresent : s'.present = s.present)
    (hclean : ∀ n ∈ config.nodes, ¬ s'.Marked n → ¬ s.Marked n ∧ s'.replica n = s.replica n) :
    InOrder codec config s' where
  inStep := hstep
  ordered := h.ordered.congr hdocs hphase hpresent
  follows := by
    intro n hn hm
    obtain ⟨hm, hr⟩ := hclean n hn hm
    exact (h.follows n hn hm).congr hdocs hphase hpresent hr

/-! ## The steps -/

variable {r : Request Id Doc Payload} {b q : Bool} {rest : List Node} {a a' : Nat}
  {p : Phase Node Id Doc Payload} {m : Mark} {clock : Nat} {docs : Docs Id Doc} {q' : Bool}

/-- A write goes on; it asks for nothing that it did not ask for before. -/
theorem Ordered.setPhase (h : Ordered codec config s)
    (hactive : ∀ r, p.active (s.present w) = some r → (s.phase w).active (s.present w) = some r)
    (hp : WriteOrdered codec config s.docs (s.present w) p) :
    Ordered codec config (s.setPhase w p) := by
  have hactive' : ∀ w' r, ((s.setPhase w p).phase w').active (s.present w') = some r →
      (s.phase w').active (s.present w') = some r :=
    (Function.forall_update_iff s.phase fun w' p => ∀ r, p.active (s.present w') = some r →
      (s.phase w').active (s.present w') = some r).mpr ⟨hactive, fun _ _ _ hr => hr⟩
  refine .of_writes ?_ ?_
  · intro w₁ w₂ r₁ r₂ hne h₁ h₂
    exact h.apart w₁ w₂ r₁ r₂ hne (hactive' w₁ r₁ h₁) (hactive' w₂ r₂ h₂)
  · exact (Function.forall_update_iff s.phase fun w' p =>
      WriteOrdered codec config s.docs (s.present w') p).mpr ⟨hp, fun w' _ => h.write w'⟩

theorem Follows.setPhase (h : Follows codec s n)
    (howed : ∀ r, p.owed n = some r → (s.phase w).owed n = some r)
    (hbehind : ∀ r, (s.phase w).behind n (s.present w) = some r → p.behind n (s.present w) = some r) :
    Follows codec (s.setPhase w p) n where
  agree := fun id hid => h.agree id fun w' r hr => hid w' r
    ((Function.forall_update_iff s.phase fun w' p => ∀ r,
      (s.phase w').behind n (s.present w') = some r → p.behind n (s.present w') = some r).mpr
        ⟨hbehind, fun _ _ _ hr => hr⟩ w' r hr)
  sendable := (Function.forall_update_iff s.phase fun _ p => ∀ r, p.owed n = some r →
    ∀ clock d, applyRequest codec clock (s.replica n) r = some d → r.Alike s.docs d).mpr
      ⟨fun r hr => h.sendable w r (howed r hr), fun w' _ => h.sendable w'⟩

/-- A write is over that no unmarked replica is behind with. -/
theorem InOrder.over (h : InOrder codec config s)
    (hbehind : ∀ n, (s.phase w).behind n (s.present w) = none) :
    InOrder codec config (s.setPhase w .finished) where
  inStep := h.inStep
  ordered := h.ordered.setPhase nofun ⟨nofun, nofun, nofun, nofun⟩
  follows := fun n hn hm => (h.follows n hn hm).setPhase nofun
    fun _ hr => nomatch (hbehind n).symm.trans hr

theorem InOrder.clearOver (h : InOrder codec config s)
    (hbehind : ∀ n, (s.phase w).behind n (s.present w) = none) :
    InOrder codec config ((s.clearRecord w).setPhase w .finished) :=
  (h.over hbehind).of_marks h.inStep rfl rfl rfl fun _ _ hm => ⟨hm, rfl⟩

theorem marked_setMark (hm : m.unclean = true) : (s.setMark n m).Marked n := by
  intro m' hm'
  rw [setMark_durable, Function.update_self] at hm'
  exact Option.some.inj hm' ▸ hm

theorem marked_setMark_of_ne {n' : Node} (hn : n' ≠ n) :
    (s.setMark n m).Marked n' ↔ s.Marked n' := by
  unfold Marked
  rw [setMark_durable, Function.update_of_ne hn]

theorem InOrder.mark (h : InOrder codec config s) (hm : m.unclean = true) (docs : Docs Id Doc) :
    InOrder codec config ((s.setReplica n docs).setMark n m) := by
  refine h.of_marks (inStep_setMark (fun hrun => h.inStep hrun) m) rfl rfl rfl ?_
  intro n' _ hclean
  have hne : n' ≠ n := by
    intro heq
    exact hclean (heq ▸ marked_setMark hm)
  refine ⟨fun hmark => hclean ((marked_setMark_of_ne hne).mpr hmark), ?_⟩
  exact Function.update_of_ne hne _ _

theorem setReplica_self : s.setReplica n (s.replica n) = s := by
  simp [State.setReplica]

theorem InOrder.markDirty (h : InOrder codec config s) : InOrder codec config (s.markDirty n) := by
  have := h.mark (n := n) (m := ⟨true, (s.memory n).resyncing⟩) rfl (s.replica n)
  rwa [setReplica_self] at this

/-- A send that fails; the replica may have performed the request. -/
theorem InOrder.sendFails (h : InOrder codec config s) (docs : Docs Id Doc) (queued : Bool) :
    InOrder codec config ((s.setReplica n docs).sendFails n w queued) := by
  have hmark : InOrder codec config ((s.setReplica n docs).markDirty n) :=
    h.mark (n := n) (m := ⟨true, (s.memory n).resyncing⟩) rfl docs
  unfold State.sendFails
  split
  · exact hmark.of_marks hmark.inStep rfl rfl rfl fun _ _ hm => ⟨hm, rfl⟩
  · exact hmark

theorem marked_sendFails (queued : Bool) : (s.sendFails n w queued).Marked n := by
  unfold State.sendFails
  split
  · exact marked_setMark (s := s) rfl
  · exact marked_setMark rfl

/-- One more request, apart from those that are there. -/
theorem apart_update {f f' : Nat → Option (Request Id Doc Payload)}
    (h : ∀ w w' r r', w ≠ w' → f w = some r → f w' = some r' → r.Apart r') (hself : f' w = some r)
    (hother : ∀ w', w' ≠ w → f' w' = f w') (hr : ∀ w' r', w' ≠ w → f w' = some r' → r.Apart r') :
    ∀ w w' r r', w ≠ w' → f' w = some r → f' w' = some r' → r.Apart r' := by
  intro w₁ w₂ r₁ r₂ hne h₁ h₂
  by_cases hw₁ : w₁ = w
  · have hw₂ : w₂ ≠ w := fun hw₂ => hne (hw₁.trans hw₂.symm)
    rw [hw₁, hself] at h₁
    rw [hother w₂ hw₂] at h₂
    exact Option.some.inj h₁ ▸ hr w₂ r₂ hw₂ h₂
  · rw [hother w₁ hw₁] at h₁
    by_cases hw₂ : w₂ = w
    · rw [hw₂, hself] at h₂
      exact Option.some.inj h₂ ▸ (hr w₁ r₁ hw₁ h₁).symm
    · rw [hother w₂ hw₂] at h₂
      exact h w₁ w₂ r₁ r₂ hne h₁ h₂

section

variable (h : InOrder codec config s)
include h

theorem InOrder.begin {write : Write Id Doc Payload}
    (hcarried : Carried codec clock s.docs write)
    (hapart : ∀ e r, resolve codec clock s.docs write = some (e, r) → ∀ w' r',
      (s.phase w').request = some r' → r.Apart r') :
    InOrder codec config (s.begin codec w clock write) := by
  unfold State.begin
  split
  · rename_i e r hidle hresolve
    have hother : ∀ w' r', (s.phase w').active (s.present w') = some r' → r.Apart r' :=
      fun w' r' hr' => hapart e r hresolve w' r' (Phase.request_of_active hr')
    refine ⟨h.inStep, .of_writes ?_ ?_, ?_⟩
    · refine apart_update (w := w) (r := r) h.ordered.apart (by simp [Phase.active]) ?_ ?_
      · intro w' hw
        simp [Function.update_of_ne hw]
      · exact fun w' r' _ hr' => hother w' r' hr'
    · refine (Function.forall_update_iff s.phase fun w' p =>
        WriteOrdered codec config s.docs (s.present w') p).mpr ⟨?_, fun w' _ => h.ordered.write w'⟩
      refine ⟨fun e' r' hp => ?_, nofun, nofun, nofun⟩
      obtain ⟨rfl, rfl⟩ := Phase.prepared.inj hp
      exact ⟨resolve_within hresolve, hcarried.faithful hresolve⟩
    · intro n hn hm
      have hfollows : Follows codec (s.setPhase w (.prepared e r)) n := by
        refine (h.follows n hn hm).setPhase (fun r hr => nomatch hr) ?_
        intro r' hr'
        rw [hidle] at hr'
        cases hr'
      exact hfollows.congr rfl rfl rfl rfl
  · exact h

/-- The local write. The other writes under way do not see it, and a replica that is not marked has
the documents it is about as they were. -/
theorem InOrder.writeLocally_some {e : Effect Id Doc}
    (hphase : s.phase w = .prepared e r) (hdocs : applyEffect s.docs e = some docs) :
    InOrder codec config
      ({ s with docs := docs, present := Function.update s.present w true }.setPhase w
        (.written r)) := by
  obtain ⟨hwithin, hfaithful⟩ := h.ordered.ready w e r hphase
  obtain ⟨hfirst, hagain⟩ := hfaithful docs hdocs
  have hactive : (s.phase w).active (s.present w) = some r := by rw [hphase]; rfl
  have hapart : ∀ w' r', w' ≠ w → (s.phase w').active (s.present w') = some r' → r.Apart r' :=
    fun w' r' hw hr' => h.ordered.apart w w' r r' (Ne.symm hw) hactive hr'
  have hsame : ∀ id, ¬ r.touches id → docs id = s.docs id :=
    fun id hid => applyEffect_of_not_touches hdocs hwithin hid
  have halike : ∀ r', r.Apart r' → r'.Alike s.docs docs :=
    fun r' hr' id hid => (hsame id fun hid' => hr' id hid' hid).symm
  -- A write but this one is where it was.
  have hother : ∀ w', w' ≠ w → ({ s with
      docs := docs, present := Function.update s.present w true }.setPhase w
        (.written r)).phase w' = s.phase w' := fun w' hw => Function.update_of_ne hw _ _
  have hotherPresent : ∀ w', w' ≠ w → Function.update s.present w true w' = s.present w' :=
    fun w' hw => Function.update_of_ne hw _ _
  refine ⟨h.inStep, .of_writes ?_ fun w' => ?_, fun n hn hm => ⟨?_, ?_⟩⟩
  · refine apart_update (w := w) (r := r) h.ordered.apart (by simp [Phase.active]) ?_ hapart
    intro w' hw
    simp [Function.update_of_ne hw]
  · by_cases hw : w' = w
    · subst hw
      have hpresent : Function.update s.present w' true w' = true := Function.update_self ..
      rw [setPhase_phase, Function.update_self]
      refine ⟨nofun, fun r' hr' hfilter => ?_, fun _ _ => hpresent, nofun⟩
      cases hr'
      exact hagain hfilter
    · rw [hother w' hw]
      show WriteOrdered codec config docs (Function.update s.present w true w') (s.phase w')
      rw [hotherPresent w' hw]
      exact (h.ordered.write w').congr fun r' hr' => halike r' (hapart w' r' hw hr')
  · intro id hid
    have hr : ¬ r.touches id := hid w r (by simp [Phase.behind])
    refine Eq.trans ((h.follows n hn hm).agree id ?_) (hsame id hr).symm
    intro w' r' hr'
    have hw : w' ≠ w := by
      intro hw
      rw [hw, hphase] at hr'
      cases hr'
    refine hid w' r' ?_
    rw [hother w' hw]
    exact (congrArg (fun b => (s.phase w').behind n b) (hotherPresent w' hw)).trans hr'
  · intro w' r' hr' clock d hd
    by_cases hw : w' = w
    · rw [hw, setPhase_phase, Function.update_self] at hr'
      cases hr'
      refine hfirst (s.replica n) ?_ clock d hd
      intro id hid
      refine ((h.follows n hn hm).agree id ?_).symm
      intro w'' r'' hr'' hid'
      have hw'' : w'' ≠ w := by
        intro hw''
        rw [hw'', hphase] at hr''
        cases hr''
      exact hapart w'' r'' hw'' (Phase.active_of_behind hr'') id hid hid'
    · rw [hother w' hw] at hr'
      have hactive' : (s.phase w').active (s.present w') = some r' :=
        Phase.active_of_sent (Phase.sent_of_owed hr')
      exact (halike r' (hapart w' r' hw hactive')).symm.trans
        ((h.follows n hn hm).sendable w' r' hr' clock d hd)

theorem InOrder.writeLocally :
    InOrder codec config (s.writeLocally w) := by
  unfold State.writeLocally
  split
  · rename_i e r hphase
    split
    · exact h.writeLocally_some hphase ‹_›
    · exact h.clearOver fun n => by rw [hphase]; rfl
  · exact h

end

/-- The loop of a write goes on, whatever it has passed. -/
theorem Ordered.next (h : Ordered codec config s) (hsent : (s.phase w).sent = some r)
    (hrest : rest <:+ config.nodes) :
    Ordered codec config (s.setPhase w (.sending b r rest a q)) := by
  refine h.setPhase (fun r' hr' => (Phase.active_of_sent hsent).trans hr')
    ⟨nofun, fun r' hr' => h.stable w r' (hsent.trans hr'), nofun, fun b' r' rest' a' q' hr => ?_⟩
  obtain ⟨-, -, rfl, -, -⟩ := Phase.sending.inj hr
  exact hrest

theorem InOrder.commit (h : InOrder codec config s) : InOrder codec config (s.commit config w) := by
  unfold State.commit
  split
  · rename_i r hphase
    have hordered : Ordered codec config (s.setPhase w (.sending false r config.nodes 0 false)) :=
      h.ordered.next (by rw [hphase]; rfl) (List.suffix_refl _)
    refine ⟨h.inStep, hordered.congr rfl rfl rfl, ?_⟩
    intro n hn hm
    have hfollows : Follows codec (s.setPhase w (.sending false r config.nodes 0 false)) n := by
      refine (h.follows n hn hm).setPhase ?_ ?_
      · intro r' hr'
        rw [hphase]
        exact (if_pos hn).symm.trans hr'
      · intro r' hr'
        rw [hphase] at hr'
        exact (if_pos hn).trans hr'
    exact hfollows.congr rfl rfl rfl rfl
  · exact h

/-- The loop of a write passes a replica; the others do not see it. -/
theorem Follows.pass (h : Follows codec s n) {n' : Node}
    (hphase : s.phase w = .sending b r (n' :: rest) a q) (hne : n ≠ n') :
    Follows codec (s.setPhase w (.sending b r rest a' q')) n := by
  have hmem : n ∈ n' :: rest ↔ n ∈ rest := by
    rw [List.mem_cons, or_iff_right hne]
  refine h.setPhase ?_ ?_
  · intro r' hr'
    rw [hphase]
    simpa only [Phase.owed, hmem] using hr'
  · intro r' hr'
    rw [hphase] at hr'
    simpa only [Phase.behind, hmem] using hr'

/-- The loop of a write passes a replica that is marked. -/
theorem InOrder.pass (h : InOrder codec config s)
    (hphase : s.phase w = .sending b r (n :: rest) a q) (hmarked : s.Marked n) :
    InOrder codec config (s.setPhase w (.sending b r rest a' q')) := by
  have hrest := (List.suffix_cons n rest).trans (h.ordered.rest w b r (n :: rest) a q hphase)
  refine ⟨h.inStep, h.ordered.next (by rw [hphase]; rfl) hrest, ?_⟩
  intro n' hn' hm
  refine (h.follows n' hn' hm).pass hphase ?_
  intro heq
  exact hm (heq ▸ hmarked)

/-- The replica that performed the request: the documents it is about are where the primary has
them, and the others, with the requests for them, are as before. -/
theorem Follows.acked (h : Follows codec s n) (hordered : Ordered codec config s)
    (hphase : s.phase w = .sending b r (n :: rest) a q)
    (hdocs : applyRequest codec clock (s.replica n) r = some docs) :
    Follows codec ((s.setReplica n docs).setPhase w (.sending b r rest a' q')) n := by
  have hnodup := List.nodup_cons.mp
    (config.nodup.sublist (hordered.rest w b r (n :: rest) a q hphase).sublist)
  have hactive : (s.phase w).active (s.present w) = some r := by rw [hphase]; rfl
  have halike : r.Alike s.docs docs := by
    refine h.sendable w r ?_ clock docs hdocs
    rw [hphase]
    simp [Phase.owed]
  have hreplica : ((s.setReplica n docs).setPhase w (.sending b r rest a' q')).replica n = docs :=
    Function.update_self ..
  -- The write itself does not owe the replica anything any more.
  have hdone : ∀ r', ¬ (Phase.sending b r rest a' q').owed n = some r' := by
    intro r' hr'
    simp only [Phase.owed, Option.ite_none_right_eq_some] at hr'
    exact hnodup.1 hr'.1
  refine ⟨?_, ?_⟩
  · intro id hid
    rw [hreplica]
    by_cases htouch : r.touches id
    · exact (halike id htouch).symm
    · rw [applyRequest_of_not_touches hdocs htouch]
      refine h.agree id ?_
      intro w' r' hr'
      by_cases hw : w' = w
      · have hbehind := Phase.active_of_behind hr'
        rw [hw, hactive] at hbehind
        exact Option.some.inj hbehind ▸ htouch
      · refine hid w' r' ?_
        rw [setPhase_phase, Function.update_of_ne hw]
        exact hr'
  · intro w' r' hr' clock' d hd
    rw [hreplica] at hd
    by_cases hw : w' = w
    · rw [hw, setPhase_phase, Function.update_self] at hr'
      exact absurd hr' (hdone r')
    · rw [setPhase_phase, Function.update_of_ne hw] at hr'
      have hactive' : (s.phase w').active (s.present w') = some r' :=
        Phase.active_of_sent (Phase.sent_of_owed hr')
      have hapart := hordered.apart w w' r r' (Ne.symm hw) hactive hactive'
      -- The other request finds its documents as they were.
      have hsame : r'.Alike docs (s.replica n) := fun id hid =>
        applyRequest_of_not_touches hdocs fun hid' => hapart id hid' hid
      obtain ⟨d', hd', hdd⟩ := applyRequest_congr hd hsame
      exact (h.sendable w' r' hr' clock' d' hd').trans hdd.symm

section

variable (h : InOrder codec config s)
include h

theorem InOrder.acked
    (hphase : s.phase w = .sending b r (n :: rest) a q) (hrun : s.monitorRunning = true)
    (hclean : (s.memory n).unclean = false)
    (hdocs : applyRequest codec clock (s.replica n) r = some docs) :
    InOrder codec config ((((s.setReplica n docs).acknowledge n w).setMark n (s.memory n)).setPhase w
      (.sending b r rest a' q)) := by
  have hrest := (List.suffix_cons n rest).trans (h.ordered.rest w b r (n :: rest) a q hphase)
  refine ⟨fun hrun => inStep_setMark h.inStep _ hrun, ?_, ?_⟩
  · have hordered : Ordered codec config (s.setPhase w (.sending b r rest a' q)) :=
      h.ordered.next (by rw [hphase]; rfl) hrest
    exact hordered.congr rfl rfl rfl
  · intro n' hn' hm
    by_cases hn : n' = n
    · subst hn
      have hunmarked : ¬ s.Marked n' := by
        rw [h.inStep.marked_iff hrun hn', hclean]
        simp
      exact ((h.follows n' hn' hunmarked).acked h.ordered hphase hdocs).congr rfl rfl rfl rfl
    · have hunmarked : ¬ s.Marked n' := fun hmark =>
        hm ((marked_setMark_of_ne (s := (s.setReplica n docs).acknowledge n w) hn).mpr hmark)
      refine ((h.follows n' hn' hunmarked).pass hphase hn).congr rfl rfl rfl ?_
      exact Function.update_of_ne hn _ _

theorem InOrder.visit (outcome : Outcome) :
    InOrder codec config (s.visit codec w outcome) := by
  unfold State.visit
  split
  · rename_i b r n rest a q hphase
    have hn : n ∈ config.nodes :=
      (h.ordered.rest w b r (n :: rest) a q hphase).subset List.mem_cons_self
    split
    · exact h
    · rename_i hrun
      have hrun : s.monitorRunning = true := by simpa using hrun
      split
      · rename_i hun
        exact h.pass hphase ((h.inStep.marked_iff hrun hn).mpr hun)
      · rename_i hclean
        have hfails : ∀ docs queued, InOrder codec config
            (((s.setReplica n docs).sendFails n w queued).setPhase w (.sending b r rest a
              (q || !queued))) := fun docs queued =>
          (h.sendFails docs queued).pass ((sendFails_phase w queued).trans hphase)
            (marked_sendFails queued)
        cases outcome with
        | acked clock =>
          simp only
          split
          · exact h.acked hphase hrun (by simpa using hclean) ‹_›
          · have := hfails (s.replica n) true
            rw [setReplica_self] at this
            simpa using this
        | failed performedAt queued => exact hfails _ queued
        | resyncConflict queued =>
          have hmark := h.mark (n := n) (m := ⟨(s.memory n).dirty, true⟩) (by simp [Mark.unclean])
            (s.replica n)
          rw [setReplica_self] at hmark
          have := hmark.sendFails (n := n) (w := w) (s.replica n) queued
          rw [show (s.setMark n ⟨(s.memory n).dirty, true⟩).setReplica n (s.replica n) =
            s.setMark n ⟨(s.memory n).dirty, true⟩ from setReplica_self] at this
          exact this.pass ((sendFails_phase w queued).trans hphase) (marked_sendFails queued)
  · exact h

theorem InOrder.finish : InOrder codec config (s.finish config w) := by
  unfold State.finish
  split
  · rename_i b r a q hphase
    have hbehind : ∀ n, (s.phase w).behind n (s.present w) = none := by
      intro n
      rw [hphase]
      simp [Phase.behind]
    split
    · exact h.clearOver hbehind
    · exact h.over hbehind
  · exact h

end

/-- The deletions by filter that a replica waits for find nothing any more on the primary. -/
def FiltersSpent (s : State Node Id Doc Payload) (n : Node) : Prop :=
  ∀ w select, (s.phase w).owed n = some (.eraseWhere select) → ∀ id ∈ select s.docs, s.docs id = none

section

variable (h : InOrder codec config s)
include h

/-- A snapshot has all documents of the primary; a request that is sent behind it repeats what is
there already. -/
theorem InOrder.resync (hspent : FiltersSpent s n) :
    InOrder codec config (s.resync n) := by
  have hstep := h.inStep.resync (n := n)
  unfold State.resync at hstep ⊢
  split
  · rename_i hdue
    rw [if_pos hdue] at hstep
    refine ⟨hstep, h.ordered.congr rfl rfl rfl, ?_⟩
    intro n' hn' hm
    by_cases hn : n' = n
    · subst hn
      refine ⟨?_, ?_⟩
      · intro id _
        simp
      · intro w r hr clock d hd
        have hreplica : Function.update s.replica n' s.docs n' = s.docs := Function.update_self ..
        have hd : applyRequest codec clock s.docs r = some d :=
          (congrArg (fun docs => applyRequest codec clock docs r) hreplica).symm.trans hd
        cases hfilter : r.byFilter with
        | false =>
          exact h.ordered.stable w r (Phase.sent_of_owed hr) hfilter s.docs (fun _ _ => rfl) clock d hd
        | true =>
          cases r with
          | eraseWhere select =>
            obtain rfl := applyRequest_eraseWhere_of_none (hspent w select hr) hd
            exact fun _ _ => rfl
          | put id body => cases hfilter
          | revise id body => cases hfilter
          | erase id => cases hfilter
          | putAll bodies => cases hfilter
    · have hunmarked : ¬ s.Marked n' := fun hmark => hm ((marked_setMark_of_ne hn).mpr hmark)
      refine (h.follows n' hn' hunmarked).congr rfl rfl rfl ?_
      exact Function.update_of_ne hn _ _
  · exact h

theorem InOrder.resyncFails (docs : Docs Id Doc) :
    InOrder codec config (s.resyncFails n docs) := by
  unfold State.resyncFails
  split
  · exact h.mark rfl docs
  · exact h

theorem InOrder.startMonitor :
    InOrder codec config (s.startMonitor config) := by
  refine h.of_marks h.inStep.startMonitor (startMonitor_same (fun s => s.docs) fun _ _ _ => rfl)
    (startMonitor_same (fun s => s.phase) fun _ _ _ => rfl)
    (startMonitor_same (fun s => s.present) fun _ _ _ => rfl) ?_
  intro n _ hm
  refine ⟨fun hmark => hm hmark.startMonitor, ?_⟩
  rw [startMonitor_same (fun s => s.replica) fun _ _ _ => rfl]

/-- The replay of a prepared record. The replica that it passes is marked. -/
theorem InOrder.markNext : InOrder codec config (s.markNext w) := by
  unfold State.markNext
  split
  · rename_i r n rest hphase
    have hm := h.markDirty (n := n)
    refine ⟨hm.inStep, ?_, ?_⟩
    · refine hm.ordered.setPhase ?_ ⟨nofun, nofun, nofun, nofun⟩
      intro r' hr'
      rw [show (s.markDirty n).phase w = _ from hphase]
      exact hr'
    · intro n' hn' hclean
      refine (hm.follows n' hn' hclean).setPhase (fun r hr => nomatch hr) ?_
      intro r' hr'
      rw [show (s.markDirty n).phase w = _ from hphase] at hr'
      simp only [Phase.behind, Option.ite_none_right_eq_some] at hr' ⊢
      rcases List.mem_cons.mp hr'.1.2 with heq | hmem
      · refine absurd ?_ hclean
        rw [heq]
        exact marked_setMark rfl
      · exact ⟨⟨hr'.1.1, hmem⟩, hr'.2⟩
  · rename_i r hphase
    refine h.clearOver fun n => ?_
    rw [hphase]
    simp [Phase.behind]
  · exact h

end

/-! ## Runs -/

/-- **What keeps the replicas with the primary.** A write begins when no write under way is about a
document of it, and replicas make the same of it; a resync ends when the deletions by filter that the
replica waits for are spent. -/
def Separate (codec : Codec Doc Payload) (s : State Node Id Doc Payload) :
    Event Node Id Doc Payload → Prop
  | .begin _ clock write =>
      Carried codec clock s.docs write ∧
        ∀ e r, resolve codec clock s.docs write = some (e, r) → ∀ w' r',
          (s.phase w').request = some r' → r.Apart r'
  | .resync n => FiltersSpent s n
  | _ => True

theorem InOrder.step (h : InOrder codec config s) {event : Event Node Id Doc Payload}
    (hseparate : Separate codec s event) (hup : event ≠ .restart) :
    InOrder codec config (s.step codec config event) := by
  cases event with
  | begin w clock write => exact h.begin hseparate.1 hseparate.2
  | writeLocally w => exact h.writeLocally
  | commit w => exact h.commit
  | visit w outcome => exact h.visit outcome
  | finish w => exact h.finish
  | markDirty n => exact h.markDirty
  | resync n => exact h.resync hseparate
  | resyncFails n docs => exact h.resyncFails docs
  | restart => exact absurd rfl hup
  | startMonitor => exact h.startMonitor
  | markNext w => exact h.markNext

theorem inOrder_initial (docs : Docs Id Doc) (replica : Node → Docs Id Doc) :
    InOrder codec config (State.initial docs replica : State Node Id Doc Payload) where
  inStep := by
    intro hrun
    simp [State.initial] at hrun
  ordered := ⟨nofun, nofun, nofun, nofun, nofun⟩
  follows := by
    intro n _ hm
    refine absurd ?_ hm
    intro m hm'
    cases hm'

/-- Nothing is under way, so an unmarked replica waits for nothing. -/
theorem InOrder.replica_eq (h : InOrder codec config s) (hquiet : s.Quiet) (hn : n ∈ config.nodes)
    (hclean : (s.memory n).unclean = false) : s.replica n = s.docs := by
  have hunmarked : ¬ s.Marked n := by
    rw [h.inStep.marked_iff hquiet.running hn, hclean]
    simp
  funext id
  refine (h.follows n hn hunmarked).agree id ?_
  intro w r hr
  have hrequest := Phase.request_of_active (Phase.active_of_behind hr)
  have hover := hquiet.settled w
  rw [Phase.inProgress, hrequest] at hover
  cases hover

end State

/-! ## Two runs -/

/-- One write, which the second replica does not answer. -/
def oneWrite : List (Event (Fin 2) Nat Nat Nat) :=
  [.startMonitor, .resync 0, .resync 1, .begin 0 1 (.add 7 5), .writeLocally 0, .commit 0,
    .visit 0 (.acked 1), .visit 0 (.failed none true), .finish 0]

instance instNeZeroOne : @NeZero Nat Zero.ofOfNat0 1 := inferInstance

def oneReplica : Config (Fin 1) := ⟨[0], .all, true, by decide⟩

def titled (title : Bytes) : Body := fun key =>
  if key = lit "title" then some (.text title) else none

/-- Two clients write one document. The primary applies the first write first, and sends the second
one first. -/
def crossingWrites : List (Event (Fin 1) Nat Document Body) :=
  [.startMonitor, .resync 0, .begin 0 1 (.add 7 (titled (lit "first"))),
    .begin 1 2 (.add 7 (titled (lit "second"))), .writeLocally 0, .writeLocally 1, .commit 0, .commit 1,
    .visit 1 (.acked 3), .visit 0 (.acked 4), .finish 0, .finish 1]

def afterCrossingWrites : State (Fin 1) Nat Document Body :=
  State.run documentCodec oneReplica (State.initial (fun _ => none) fun _ _ => none) crossingWrites

end Hlquery.Replication
