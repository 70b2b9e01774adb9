import Hlquery.Store.Refinement

/-!
# What a call does to the view

`Refinement` follows the map of documents that the store stands for. The results about the location
map itself (that it can be rebuilt, and what a read in the middle of a deletion does to it) are about
the routed store and not about that map, and they hold for every run, also for one in which a clear
leaves records behind. So here each call that reports success is described by the moves it makes on
the view: `Advances m m'`.

A new segment must be new. The id is chosen beside the ids that the manifest names, so the invariant
`Sound` says that these are the live segments. The loop that chooses it ends because there are fewer
than `2 ^ 64` segments; with more there is no id left, and the loop of the source does not end.
-/

set_option autoImplicit false

namespace Hlquery.Store.SegmentManager

open Hlquery.Bytes RoutedStore

/-- The documents of the collections that `ClearAllDocuments` leaves a location record of. -/
def HighKey (k : DocKey) : Prop := startsWith k.toBytes (lit "doc:\xff") = true

structure Linked (m : SegmentManager) : Prop where
  sealed : m.manifest.sealed = m.sealedSegments
  active : ∃ active, active ≠ [] ∧ m.activeSegment = some active ∧ m.manifest.active = active

structure Sound (m : SegmentManager) : Prop where
  wellFormed : m.WellFormed
  linked : m.Linked
  /-- Location records belong to document keys. -/
  locationKeys : ∀ {s v}, m.systemDB[docLocationPrefix ++ s]? = some v → ∃ k : DocKey, k.rest = s

structure Advances (m m' : SegmentManager) : Prop where
  sealed_le : m.sealedSegments.length ≤ m'.sealedSegments.length
  sound : m.Sound → m'.sealedSegments.length < 2 ^ 64 →
    m'.Sound ∧ Relation.ReflTransGen (Move HighKey) m.view m'.view

theorem Advances.refl (m : SegmentManager) : Advances m m :=
  ⟨Nat.le_refl _, fun h _ => ⟨h, .refl⟩⟩

theorem Advances.trans {m₁ m₂ m₃ : SegmentManager} (h : Advances m₁ m₂) (h' : Advances m₂ m₃) :
    Advances m₁ m₃ := by
  refine ⟨h.sealed_le.trans h'.sealed_le, fun hs hfew => ?_⟩
  obtain ⟨hs₂, hm₂⟩ := h.sound hs (Nat.lt_of_le_of_lt h'.sealed_le hfew)
  obtain ⟨hs₃, hm₃⟩ := h'.sound hs₂ hfew
  exact ⟨hs₃, hm₂.trans hm₃⟩

/-! ## Steps that no reader sees -/

variable {m m' : SegmentManager} {env : Env} {active : Bytes}

theorem Sound.still (hs : m.Sound) (q : Still m m') : m'.Sound := by
  refine ⟨hs.wellFormed.of_quiet q.toQuiet, ⟨?_, ?_⟩, fun {s v} h => ?_⟩
  · rw [q.manifest, q.sealedSegments]
    exact hs.linked.sealed
  · rw [q.manifest, q.activeSegment]
    exact hs.linked.active
  · rw [q.location] at h
    exact hs.locationKeys h

theorem Advances.still (q : Still m m') : Advances m m' :=
  ⟨by rw [q.sealedSegments], fun hs _ => ⟨hs.still q, by rw [q.view_eq]⟩⟩

/-! ## Rotation -/

/-- Without an active segment there is no sound store. -/
theorem Advances.of_no_active (hsealed : m'.sealedSegments = m.sealedSegments)
    (hnone : m.activeSegment = none) : Advances m m' := by
  refine ⟨by rw [hsealed], fun hs _ => ?_⟩
  obtain ⟨active, -, hactive, -⟩ := hs.linked.active
  exact absurd (hactive.symm.trans hnone) (by simp)

/-- **Sealing** puts a new segment in front. -/
theorem sealActiveSegmentAndCreateNewLocked_advances
    (h : sealActiveSegmentAndCreateNewLocked env m = (true, m')) : Advances m m' := by
  cases hactive : m.activeSegment with
  | none =>
    unfold sealActiveSegmentAndCreateNewLocked at h
    simp only [hactive] at h
    obtain ⟨s, c⟩ := createActiveSegmentLocked_ok h
    exact .of_no_active c.sealedSegments hactive
  | some active =>
    obtain ⟨s, r⟩ := sealActiveSegmentAndCreateNewLocked_spec hactive h
    refine ⟨by rw [r.sealedSegments]; simp, fun hsound hfew => ?_⟩
    have hr := sealActiveSegmentAndCreateNewLocked_ok hsound.wellFormed h
    have hlive : m.live = active :: m.sealedSegments.reverse := by
      obtain ⟨active', ha, hl⟩ := hsound.wellFormed.live_eq
      rw [hl, Option.some.inj (hactive.symm.trans ha)]
    -- the ids in use are the live segments
    have hnot : s ∉ m.live := by
      have hfresh := r.fresh
      rw [hsound.linked.sealed, ← r.sealedSegments] at hfresh
      have := hfresh hfew
      rw [r.sealedSegments] at this
      rw [hlive]
      simpa [or_comm] using this
    refine ⟨⟨hr.wellFormed, ⟨?_, s, r.ne_nil, r.activeSegment, r.manifest_active⟩, fun hl => ?_⟩, ?_⟩
    · rw [r.manifest_sealed, r.sealedSegments, hsound.linked.sealed]
    · rw [hr.location] at hl
      exact hsound.locationKeys hl
    · rw [view_of_rotated hr, r.live, ← hlive]
      exact .single (.extend hnot)

theorem ensureActiveSegmentCapacity_advances {documents bytes : UInt64}
    (h : ensureActiveSegmentCapacity env m documents bytes = (true, m')) : Advances m m' := by
  obtain ⟨m₁, h₁, h⟩ := andThen_ok h
  have hfirst : Advances m m₁ := by
    cases hactive : m.activeSegment with
    | some active =>
      obtain rfl : m = m₁ := by simpa [hactive] using h₁
      exact .refl m
    | none =>
      simp only [hactive, Option.isSome_none, Bool.false_eq_true, if_false] at h₁
      obtain ⟨s, c⟩ := createActiveSegmentLocked_ok h₁
      exact .of_no_active c.sealedSegments hactive
  refine hfirst.trans ?_
  split at h
  · cases h; exact .refl _
  · exact sealActiveSegmentAndCreateNewLocked_advances h

theorem rotateActiveSegmentIfNeeded_advances (h : rotateActiveSegmentIfNeeded env m = (true, m')) :
    Advances m m' := by
  unfold rotateActiveSegmentIfNeeded at h
  split at h
  · exact sealActiveSegmentAndCreateNewLocked_advances h
  · cases h; exact .refl _

/-! ## Writing -/

theorem Sound.live_head (h : m.Sound) (hactive : m.activeSegment = some active) :
    m.live.head? = some active := by
  obtain ⟨active', ha, hl⟩ := h.wellFormed.live_eq
  rw [hl, Option.some.inj (hactive.symm.trans ha)]
  rfl

theorem putOne_advances (hactive : m.activeSegment = some active) (timestampMs : UInt64)
    (k : DocKey) (value : Bytes) : Advances m (m.putOne active timestampMs k.toBytes value) := by
  refine ⟨Nat.le_refl _, fun hs _ => ⟨⟨?_, ⟨hs.linked.sealed, hs.linked.active⟩, ?_⟩, ?_⟩⟩
  · exact hs.wellFormed.same rfl rfl rfl
  · intro s v h
    rw [putOne_location] at h
    split at h
    · rename_i he; exact ⟨k, he.symm⟩
    · exact hs.locationKeys h
  · have hhead := hs.live_head hactive
    have hmem : active ∈ m.live := List.mem_of_mem_head? hhead
    rw [putOne_view m active timestampMs k value (hs.wellFormed.colon_not_mem _ hmem)]
    exact .single (.put k value hhead)

theorem putBatch_advances (timestampMs : UInt64) :
    ∀ {keyValues : List (Bytes × Bytes)} {m : SegmentManager}, m.activeSegment = some active →
      (∀ kv ∈ keyValues, ∃ k : DocKey, kv.1 = k.toBytes) →
      Advances m (m.putBatch active timestampMs keyValues)
  | [], m, _, _ => by
    refine .still ⟨⟨⟨fun _ => rfl, fun _ => rfl, fun id => ?_⟩, rfl, rfl, rfl⟩, rfl⟩
    refine (database_setDatabase ..).trans ?_
    split
    · subst id; rfl
    · rfl
  | kv :: keyValues, m, hactive, hkeys => by
    obtain ⟨k, hk⟩ := hkeys kv (List.mem_cons_self ..)
    have hone := putOne_advances hactive timestampMs k kv.2
    rw [← hk] at hone
    have hrest := putBatch_advances timestampMs (m := m.putOne active timestampMs kv.1 kv.2) hactive
      fun kv' hkv' => hkeys kv' (List.mem_cons_of_mem _ hkv')
    exact (hone.trans hrest).trans
      (.still ⟨putBatch_cons_quiet m active timestampMs kv keyValues, rfl⟩)

theorem writeDocuments_advances {keyValues : List (Bytes × Bytes)} {rounds : Nat}
    (hkeys : ∀ kv ∈ keyValues, ∃ k : DocKey, kv.1 = k.toBytes)
    (hw : writeDocuments env keyValues rounds m = (true, m')) : Advances m m' :=
  writeDocuments_rule (P := Advances m) (Q := Advances m)
    (fun h hr => h.trans (ensureActiveSegmentCapacity_advances hr)) (fun h q => h.trans (.still q))
    (fun timestampMs h hactive => h.trans (putBatch_advances timestampMs hactive hkeys))
    (fun h q => h.trans (.still q)) (fun h hr => h.trans (rotateActiveSegmentIfNeeded_advances hr))
    (.refl m) hw

/-! ## Deleting -/

theorem buryOne_advances (m : SegmentManager) (k : DocKey) (nowMs : UInt64) :
    Advances m (m.writeSystem (tombstoneUpdates k.collection k.docId nowMs)) := by
  refine ⟨Nat.le_refl _, fun hs _ => ⟨⟨?_, ⟨hs.linked.sealed, hs.linked.active⟩, ?_⟩, ?_⟩⟩
  · exact hs.wellFormed.same rfl rfl rfl
  · intro s v h
    rw [tombstoneUpdates_location] at h
    split at h
    · cases h
    · exact hs.locationKeys h
  · rw [tombstoneUpdates_view]
    exact .single (.bury _ _)

theorem buryAll_advances (env : Env) :
    ∀ (keys : List DocKey) (m₀ m : SegmentManager), Advances m (m.writeSystem (tombstoneBatch env
      (keys.map fun k => (k.collection, k.docId)) m₀).1)
  | [], _, m => .refl m
  | k :: keys, m₀, m => by
    refine ((buryOne_advances m k (readClock env m₀).1).trans
      (buryAll_advances env keys (readClock env m₀).2 _)).trans ?_
    refine .still ⟨.of_eq ?_ rfl rfl rfl rfl, rfl⟩
    exact ByteMap.write_append ..

/-- Erasing a hidden key, whose outcome `DeleteDocument` does not look at. -/
theorem eraseFromActive_advances (env : Env) {k : DocKey} (hlocation : m.view.location k = none)
    (htombstone : m.view.tombstone k = true) : Advances m (m.eraseFromActive env k.toBytes) := by
  unfold SegmentManager.eraseFromActive attempt
  split
  · exact .refl m
  rename_i active _
  split
  · have herase : Advances m (m.setDatabase active ((m.database active).erase k.toBytes)) := by
      refine ⟨Nat.le_refl _,
        fun hs _ => ⟨⟨?_, ⟨hs.linked.sealed, hs.linked.active⟩, hs.locationKeys⟩, ?_⟩⟩
      · exact hs.wellFormed.same rfl rfl rfl
      · rw [eraseFrom_view]
        exact .single (.dropFrom _ hlocation htombstone)
    exact herase.trans (.still ⟨.of_eq rfl rfl rfl rfl rfl, rfl⟩)
  · exact .still ⟨.of_eq rfl rfl rfl rfl rfl, rfl⟩

theorem deleteDocument_advances {key : Bytes} (hd : (m.deleteDocument env key).1 = 1) :
    Advances m (m.deleteDocument env key).2 := by
  obtain ⟨k, nowMs, m₁, rfl, q, hm⟩ := deleteDocument_ok hd
  rw [hm]
  refine ((buryOne_advances m k nowMs).trans (.still q)).trans (eraseFromActive_advances env ?_ ?_) <;>
    simp [q.view_eq, tombstoneUpdates_view, RoutedStore.bury]

theorem deleteDocumentRange_advances (env : Env) (m : SegmentManager) (startKey endKey : Bytes) :
    Advances m (m.deleteDocumentRange env startKey endKey).2 := by
  obtain ⟨keys, hkeys⟩ := documentsInRange_keys m startKey endKey
  rcases deleteDocumentRange_ok env m startKey endKey with ⟨-, q⟩ | q
  · exact .still q
  · rw [hkeys] at q
    exact (buryAll_advances env keys m m).trans (.still q)

/-! ## Clearing -/

theorem clearSegments_manifest : ∀ {segments : List Bytes} {m m' : SegmentManager},
    clearSegments env segments m = (true, m') → m'.manifest = m.manifest
  | [], m, m', h => by rw [← (Prod.mk.inj h).2]
  | s :: segments, m, m', h => by
    unfold clearSegments at h
    obtain ⟨m₁, h₁, h⟩ := andThen_ok h
    obtain ⟨m₂, h₂, h⟩ := andThen_ok h
    rw [clearSegments_manifest h, (saveAtomic_ok h₂).manifest, attempt_ok h₁]
    rfl

theorem clearAllDocuments_manifest (hc : clearAllDocuments env m = (true, m')) :
    m'.manifest = m.manifest := by
  unfold clearAllDocuments at hc
  split at hc
  · cases hc
  obtain ⟨m₁, h₁, hc⟩ := andThen_ok hc
  have hm' : m'.manifest = m₁.manifest := by rw [attempt_ok hc]; rfl
  rw [hm']
  exact clearSegments_manifest h₁

theorem highKey_iff (k : DocKey) : HighKey k ↔ compare k.rest (lit "\xff") ≠ .lt := by
  unfold HighKey
  rw [Ne, compare_rest_high]
  simp

theorem clearAllDocuments_advances (hc : clearAllDocuments env m = (true, m')) : Advances m m' := by
  have he := clearAllDocuments_emptied hc
  have hmanifest := clearAllDocuments_manifest hc
  refine ⟨by rw [he.sealedSegments], fun hs _ => ⟨⟨he.wellFormed hs.wellFormed, ?_, ?_⟩, ?_⟩⟩
  · refine ⟨by rw [hmanifest, he.sealedSegments]; exact hs.linked.sealed, ?_⟩
    rw [hmanifest, he.activeSegment]
    exact hs.linked.active
  · intro s v h
    rw [he.location] at h
    split at h
    · cases h
    · exact hs.locationKeys h
  · refine .single (.clear he.live_eq (fun k => ?_) (fun k hk => ?_) he.segment)
    · by_cases hhigh : HighKey k
      · refine .inr ⟨hhigh, ?_⟩
        show (m'.systemDB[docLocationPrefix ++ k.rest]?).map segmentIdOfRecord = _
        rw [he.location, if_neg ((highKey_iff k).mp hhigh)]
        rfl
      · refine .inl ?_
        show (m'.systemDB[docLocationPrefix ++ k.rest]?).map segmentIdOfRecord = none
        rw [he.location, if_pos (not_not.mp fun h => hhigh ((highKey_iff k).mpr h))]
        rfl
    · show (m'.systemDB[tombstonePrefix ++ k.rest]?).isSome = false
      rw [he.tombstone _ (Option.isSome_eq_false_iff.mp hk |> Option.isNone_iff_eq_none.mp)]
      rfl

/-! ## Calls -/

/-- **Every call that reports success makes moves.** -/
theorem step_advances {op : Op} (hs : step env m op = some m') : Advances m m' := by
  have hdone := step_eq_some hs
  cases op with
  | setDocument key value =>
    obtain ⟨hkey, hwrite⟩ := hdone
    exact writeDocuments_advances (List.forall_mem_singleton.mpr hkey) hwrite
  | batchSetDocuments keyValues =>
    rcases hdone with ⟨-, rfl⟩ | ⟨hkeys, hwrite⟩
    · exact .refl m
    · exact writeDocuments_advances hkeys hwrite
  | deleteDocument key =>
    obtain ⟨hone, rfl⟩ := hdone
    exact deleteDocument_advances hone
  | deleteCollection collection =>
    obtain ⟨-, rfl⟩ := hdone
    exact deleteDocumentRange_advances env m _ _
  | clearAllDocuments => exact clearAllDocuments_advances hdone

end Hlquery.Store.SegmentManager
