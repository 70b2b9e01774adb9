import Hlquery.Store.Moves
import Hlquery.Store.Runs

/-!
# Rebuilding the location map

`RebuildDocLocationMap` of `segmented_document_router.cpp` takes the location records away and makes
them anew from the segments: newest segment first, each document that is not tombstoned and has no
record yet gets one. The records are written in batches, so whether a document has one already is
asked twice, of the batch and of the database; `Rebuild.flushed` is the store in which the open
batch has been written, and in it both questions are one.

The clear does not reach the records of collections whose name starts with the byte `0xff`. They
stay, and the documents behind them are skipped as already routed. The result is that a rebuild
leaves the view as it was, after every run of calls that report success.
-/

set_option autoImplicit false

namespace Hlquery.Store.SegmentManager

open Hlquery.Bytes

/-! ## The code -/

structure Rebuild where
  m : SegmentManager
  batch : List ByteMap.Update := []
  /-- `pending_routes`, a set: nothing is put in twice. -/
  pendingRoutes : List Bytes := []

def rebuildBatchSize : Nat := 4096

def rebuildKey (env : Env) (segment docKey : Bytes) (r : Rebuild) : Bool × Rebuild :=
  match parseDocKey docKey with
  | none => (true, r)
  | some (collection, docId) =>
    let routeKey := docLocationKey collection docId
    if r.m.isTombstoned collection docId then (true, r)
    else if routeKey ∈ r.pendingRoutes ∨ (r.m.systemDB[routeKey]?).isSome then (true, r)
    else
      let (nowMs, m) := readClock env r.m
      let batch := r.batch ++ [.put routeKey (locationRecord segment nowMs)]
      let pendingRoutes := routeKey :: r.pendingRoutes
      if rebuildBatchSize ≤ pendingRoutes.length then
        match attempt env m fun m => m.writeSystem batch with
        | (true, m) => (true, ⟨m, [], []⟩)
        | (false, m) => (false, ⟨m, batch, pendingRoutes⟩)
      else (true, ⟨m, batch, pendingRoutes⟩)

def rebuildKeys (env : Env) (segment : Bytes) : List Bytes → Rebuild → Bool × Rebuild
  | [], r => (true, r)
  | docKey :: docKeys, r =>
    match rebuildKey env segment docKey r with
    | (true, r) => rebuildKeys env segment docKeys r
    | (false, r) => (false, r)

def rebuildSegments (env : Env) : List Bytes → Rebuild → Bool × Rebuild
  | [], r => (true, r)
  | segment :: segments, r =>
    match rebuildKeys env segment ((r.m.database segment).prefixKeys (lit "doc:")) r with
    | (true, r) =>
      match attempt env r.m id with
      | (true, m) => rebuildSegments env segments { r with m }
      | (false, m) => (false, { r with m })
    | (false, r) => (false, r)

def rebuildClear : List ByteMap.Update :=
  [.deleteRange docLocationPrefix (docLocationPrefix ++ lit "\xff")]

/-- `RebuildDocLocationMap`. -/
def rebuildDocLocationMap (env : Env) (m : SegmentManager) : Bool × SegmentManager :=
  match m.currentSnapshot with
  | none => (false, m)
  | some snapshot =>
    andThen (attempt env m fun m => m.writeSystem rebuildClear) fun m =>
    match rebuildSegments env snapshot.liveNewestFirst { m } with
    | (false, r) => (false, r.m)
    | (true, r) =>
      andThen (if r.pendingRoutes = [] then (true, r.m)
        else attempt env r.m fun m => m.writeSystem r.batch) fun m =>
      attempt env m fun m =>
        m.writeSystem [.put manifestGenerationKey (decimal snapshot.generation.toNat)]

/-! ## A database that answers -/

variable {env : Env} {m : SegmentManager} {k : DocKey} {m' : SegmentManager} {segment : Bytes}
  {m₀ : SegmentManager}

theorem attempt_of_ok (h : env.ok m.calls = true) (effect : SegmentManager → SegmentManager) :
    attempt env m effect = (true, effect { m with calls := m.calls + 1 }) :=
  if_pos h

theorem rebuildKey_of_ok (henv : ∀ n, env.ok n = true) (segment docKey : Bytes) (r : Rebuild) :
    (rebuildKey env segment docKey r).1 = true := by
  unfold rebuildKey
  split
  · rfl
  dsimp only
  split
  · rfl
  split
  · rfl
  · rw [attempt_of_ok (henv _)]
    split <;> rfl

theorem rebuildKeys_of_ok (henv : ∀ n, env.ok n = true) (segment : Bytes) :
    ∀ (docKeys : List Bytes) (r : Rebuild), (rebuildKeys env segment docKeys r).1 = true
  | [], _ => rfl
  | docKey :: docKeys, r => by
    unfold rebuildKeys
    have hkey := rebuildKey_of_ok henv segment docKey r
    split
    · exact rebuildKeys_of_ok henv segment docKeys _
    rename_i heq
    rw [heq] at hkey
    exact hkey

theorem rebuildSegments_of_ok (henv : ∀ n, env.ok n = true) :
    ∀ (segments : List Bytes) (r : Rebuild), (rebuildSegments env segments r).1 = true
  | [], _ => rfl
  | segment :: segments, r => by
    unfold rebuildSegments
    have hkeys := rebuildKeys_of_ok henv segment ((r.m.database segment).prefixKeys (lit "doc:")) r
    split
    · rw [attempt_of_ok (henv _)]
      exact rebuildSegments_of_ok henv segments _
    · rename_i heq
      rw [heq] at hkeys
      exact hkeys

/-- **The rebuild ends with success** when no call to a database fails. -/
theorem rebuildDocLocationMap_of_ok (henv : ∀ n, env.ok n = true) (hm : m.WellFormed) :
    (rebuildDocLocationMap env m).1 = true := by
  obtain ⟨snapshot, hsnapshot⟩ := Option.isSome_iff_exists.mp hm.snapshot
  unfold rebuildDocLocationMap
  rw [hsnapshot]
  simp only [attempt_of_ok (henv _), andThen, if_true]
  have hseg := rebuildSegments_of_ok henv snapshot.liveNewestFirst
    { m := { m with calls := m.calls + 1 }.writeSystem rebuildClear }
  split
  · rename_i heq
    rw [heq] at hseg
    exact hseg
  · split <;> rfl

/-! ## One key -/

def Rebuild.flushed (r : Rebuild) : SegmentManager := r.m.writeSystem r.batch

/-- The open batch holds one record for each pending route, and nothing else. -/
structure Rebuild.Open (r : Rebuild) : Prop where
  routed : ∀ s, (r.flushed.systemDB[docLocationPrefix ++ s]?).isSome = true ↔
    docLocationPrefix ++ s ∈ r.pendingRoutes ∨
      (r.m.systemDB[docLocationPrefix ++ s]?).isSome = true
  tombstone : ∀ s, r.flushed.systemDB[tombstonePrefix ++ s]? = r.m.systemDB[tombstonePrefix ++ s]?
  empty : r.pendingRoutes = [] → r.batch = []

theorem Rebuild.Open.start (m : SegmentManager) : Rebuild.Open { m } :=
  ⟨fun s => by simp [Rebuild.flushed, writeSystem, ByteMap.write], fun s => rfl, fun _ => rfl⟩

def routeOne (m : SegmentManager) (segment : Bytes) (nowMs : UInt64) (k : DocKey) :
    SegmentManager :=
  m.writeSystem [.put (docLocationKey k.collection k.docId) (locationRecord segment nowMs)]

theorem routeOne_location (m : SegmentManager) (segment : Bytes) (nowMs : UInt64) (k : DocKey)
    (s : Bytes) : (m.routeOne segment nowMs k).systemDB[docLocationPrefix ++ s]? =
      if s = k.rest then some (locationRecord segment nowMs)
      else m.systemDB[docLocationPrefix ++ s]? := by
  show (m.systemDB.insert _ _)[docLocationPrefix ++ s]? = _
  rw [ByteMap.get_insert, docLocationKey_eq]
  simp

theorem routeOne_tombstone (m : SegmentManager) (segment : Bytes) (nowMs : UInt64) (k : DocKey)
    (s : Bytes) : (m.routeOne segment nowMs k).systemDB[tombstonePrefix ++ s]? =
      m.systemDB[tombstonePrefix ++ s]? := by
  show (m.systemDB.insert _ _)[tombstonePrefix ++ s]? = _
  rw [ByteMap.get_insert, docLocationKey_eq, if_neg (location_ne_tombstone _ _).symm]

theorem routeOne_sound (hs : m.Sound) (segment : Bytes) (nowMs : UInt64) (k : DocKey) :
    (m.routeOne segment nowMs k).Sound := by
  refine ⟨⟨hs.wellFormed.snapshot, hs.wellFormed.live_eq, hs.wellFormed.colon_not_mem⟩,
    ⟨hs.linked.sealed, hs.linked.active⟩, fun {s v} h => ?_⟩
  rw [routeOne_location] at h
  split at h
  · rename_i he; exact ⟨k, he.symm⟩
  · exact hs.locationKeys h

theorem routeOne_view (hsegment : 58 ∉ segment) (nowMs : UInt64)
    (htomb : m.view.tombstone k = false) (hloc : m.view.location k = none) :
    (m.routeOne segment nowMs k).view = m.view.route segment k := by
  unfold RoutedStore.route
  rw [htomb, hloc]
  unfold view
  simp only [Option.isSome_none, Bool.or_self, Bool.false_eq_true, if_false, RoutedStore.mk.injEq]
  refine ⟨?_, ?_, rfl, rfl⟩
  · funext k'
    rw [routeOne_location]
    by_cases hk : k' = k
    · subst hk
      simp [segmentIdOfRecord_locationRecord hsegment]
    · have hrest : k'.rest ≠ k.rest := fun h => hk (DocKey.rest_injective h)
      rw [if_neg hrest, Function.update_of_ne hk]
  · funext k'
    rw [routeOne_tombstone]

/-- What the loops keep: beside the system database and the open batch nothing moves. -/
structure Rebuild.Inv (m₀ : SegmentManager) (r : Rebuild) : Prop where
  isOpen : r.Open
  sound : m₀.Sound → r.flushed.Sound
  databases : r.m.databases = m₀.databases
  currentSnapshot : r.m.currentSnapshot = m₀.currentSnapshot
  sealedSegments : r.m.sealedSegments = m₀.sealedSegments

theorem Rebuild.Open.put {r : Rebuild} (ho : r.Open) (k : DocKey) (segment : Bytes)
    (nowMs : UInt64) (n : Nat) :
    Rebuild.Open ⟨{ r.m with calls := n },
      r.batch ++ [.put (docLocationKey k.collection k.docId) (locationRecord segment nowMs)],
      docLocationKey k.collection k.docId :: r.pendingRoutes⟩ := by
  have hsys : Rebuild.flushed ⟨{ r.m with calls := n },
      r.batch ++ [.put (docLocationKey k.collection k.docId) (locationRecord segment nowMs)],
      docLocationKey k.collection k.docId :: r.pendingRoutes⟩ =
        { r.flushed.routeOne segment nowMs k with calls := n } := by
    simp [Rebuild.flushed, writeSystem, routeOne, ByteMap.write_append]
  refine ⟨fun s => ?_, fun s => ?_, nofun⟩
  · rw [hsys]
    rw [routeOne_location, docLocationKey_eq, List.mem_cons, List.append_cancel_left_eq, or_assoc,
      ← ho.routed]
    by_cases hs : s = k.rest <;> simp [hs]
  · rw [hsys]
    rw [routeOne_tombstone, ho.tombstone]

/-- **One key of the loop**: its document is routed in the flushed store. -/
theorem rebuildKey_routes {r r' : Rebuild} (hi : r.Inv m₀) (hsegment : segment ∈ m₀.live)
    (h : rebuildKey env segment k.toBytes r = (true, r')) :
    r'.Inv m₀ ∧ (m₀.Sound → r'.flushed.view = r.flushed.view.route segment k) := by
  have htomb : r.m.isTombstoned k.collection k.docId = r.flushed.view.tombstone k := by
    show _ = (r.flushed.systemDB[tombstonePrefix ++ k.rest]?).isSome
    rw [hi.isOpen.tombstone]
    rfl
  have hrouted : (docLocationKey k.collection k.docId ∈ r.pendingRoutes ∨
      (r.m.systemDB[docLocationKey k.collection k.docId]?).isSome = true) ↔
        (r.flushed.view.location k).isSome = true := by
    show _ ↔ ((r.flushed.systemDB[docLocationPrefix ++ k.rest]?).map segmentIdOfRecord).isSome = true
    rw [docLocationKey_eq, Option.isSome_map, hi.isOpen.routed]
  unfold rebuildKey at h
  simp only [parseDocKey_toBytes, htomb, hrouted] at h
  split at h
  · rename_i ht
    cases h
    exact ⟨hi, fun _ => by simp [RoutedStore.route, ht]⟩
  · rename_i ht
    split at h
    · rename_i hl
      cases h
      exact ⟨hi, fun _ => by simp [RoutedStore.route, hl]⟩
    · rename_i hl
      have hview : ∀ n nowMs, m₀.Sound →
          { r.flushed.routeOne segment nowMs k with calls := n }.view =
            r.flushed.view.route segment k := fun n nowMs hs =>
        routeOne_view (hs.wellFormed.colon_not_mem segment hsegment) nowMs (by simpa using ht)
          (by simpa using hl)
      have hsound : ∀ n nowMs, m₀.Sound →
          { r.flushed.routeOne segment nowMs k with calls := n }.Sound := fun n nowMs hs =>
        (routeOne_sound (hi.sound hs) segment nowMs k).still ⟨.of_eq rfl rfl rfl rfl rfl, rfl⟩
      have hput := hi.isOpen.put k segment
      split at h
      · split at h
        · rename_i m₁ h₁
          cases h
          have hflushed : Rebuild.flushed ⟨m₁, [], []⟩ =
              { r.flushed.routeOne segment (env.nowMs r.m.calls) k with
                calls := r.m.calls + 2 } := by
            rw [attempt_ok h₁]
            simp only [Rebuild.flushed, writeSystem, routeOne, ByteMap.write_append, readClock]
            rfl
          refine ⟨⟨.start m₁, ?_, ?_, ?_, ?_⟩, ?_⟩
          · rw [hflushed]; exact hsound _ _
          · rw [attempt_ok h₁]; exact hi.databases
          · rw [attempt_ok h₁]; exact hi.currentSnapshot
          · rw [attempt_ok h₁]; exact hi.sealedSegments
          · rw [hflushed]; exact hview _ _
        · cases h
      · cases h
        have hflushed : Rebuild.flushed ⟨(readClock env r.m).2,
            r.batch ++ [.put (docLocationKey k.collection k.docId)
              (locationRecord segment (readClock env r.m).1)],
            docLocationKey k.collection k.docId :: r.pendingRoutes⟩ =
              { r.flushed.routeOne segment (env.nowMs r.m.calls) k with
                calls := r.m.calls + 1 } := by
          simp [Rebuild.flushed, writeSystem, routeOne, ByteMap.write_append, readClock]
        refine ⟨⟨hput _ _, ?_, hi.databases, hi.currentSnapshot, hi.sealedSegments⟩, ?_⟩
        · rw [hflushed]; exact hsound _ _
        · rw [hflushed]; exact hview _ _

/-! ## The loops -/

noncomputable def documentKeys (keys : List Bytes) : List DocKey :=
  keys.filterMap (Function.partialInv DocKey.toBytes)

theorem partialInv_toBytes {key : Bytes} :
    Function.partialInv DocKey.toBytes key = some k ↔ k.toBytes = key :=
  Function.Injective.isPartialInv (fun _ _ h => DocKey.toBytes_inj.mp h) k key

theorem mem_documentKeys {keys : List Bytes} : k ∈ documentKeys keys ↔ k.toBytes ∈ keys := by
  simp [documentKeys, List.mem_filterMap, partialInv_toBytes]

theorem rebuildKeys_routes (hsegment : segment ∈ m₀.live) :
    ∀ {keys : List Bytes} {r r' : Rebuild}, r.Inv m₀ → rebuildKeys env segment keys r = (true, r') →
      r'.Inv m₀ ∧ (m₀.Sound → r'.flushed.view = r.flushed.view.routeAll segment (documentKeys keys))
  | [], r, r', hi, h => by
    cases h
    exact ⟨hi, fun _ => rfl⟩
  | key :: keys, r, r', hi, h => by
    unfold rebuildKeys at h
    split at h
    · rename_i r₁ h₁
      cases hk : Function.partialInv DocKey.toBytes key with
      | some k =>
        obtain rfl := partialInv_toBytes.mp hk
        obtain ⟨hi₁, hv₁⟩ := rebuildKey_routes hi hsegment h₁
        obtain ⟨hi', hv'⟩ := rebuildKeys_routes hsegment hi₁ h
        refine ⟨hi', fun hs => ?_⟩
        have hkeys : documentKeys (k.toBytes :: keys) = k :: documentKeys keys :=
          List.filterMap_cons_some hk
        rw [hv' hs, hv₁ hs, hkeys]
        rfl
      | none =>
        -- the key is not the key of a document
        have hparse : parseDocKey key = none := by
          rw [← Option.not_isSome_iff_eq_none, parseDocKey_isSome_iff]
          rintro ⟨k, rfl⟩
          rw [partialInv_toBytes.mpr rfl] at hk
          cases hk
        have hr : rebuildKey env segment key r = (true, r) := by
          unfold rebuildKey
          rw [hparse]
        obtain rfl := (Prod.mk.inj (h₁.symm.trans hr)).2
        obtain ⟨hi', hv'⟩ := rebuildKeys_routes hsegment hi h
        refine ⟨hi', fun hs => ?_⟩
        have hkeys : documentKeys (key :: keys) = documentKeys keys := List.filterMap_cons_none hk
        rw [hv' hs, hkeys]
    · cases h

theorem rebuildSegments_routes :
    ∀ {segments : List Bytes} {r r' : Rebuild}, (∀ s ∈ segments, s ∈ m₀.live) → r.Inv m₀ →
      rebuildSegments env segments r = (true, r') →
      r'.Inv m₀ ∧ (m₀.Sound → r'.flushed.view = r.flushed.view.routeSegments
        (fun s => documentKeys ((m₀.database s).prefixKeys (lit "doc:"))) segments)
  | [], r, r', _, hi, h => by
    cases h
    exact ⟨hi, fun _ => rfl⟩
  | s :: segments, r, r', hlive, hi, h => by
    unfold rebuildSegments at h
    have hdb : r.m.database s = m₀.database s := by unfold database; rw [hi.databases]
    rw [hdb] at h
    split at h
    · rename_i r₁ h₁
      obtain ⟨hi₁, hv₁⟩ := rebuildKeys_routes (hlive s (by simp)) hi h₁
      split at h
      · rename_i m₂ h₂
        have hm₂ := attempt_ok h₂
        have hi₂ : Rebuild.Inv m₀ { r₁ with m := m₂ } := by
          rw [hm₂]
          exact ⟨⟨hi₁.isOpen.routed, hi₁.isOpen.tombstone, hi₁.isOpen.empty⟩,
            fun hs => (hi₁.sound hs).still ⟨.of_eq rfl rfl rfl rfl rfl, rfl⟩, hi₁.databases, hi₁.currentSnapshot,
            hi₁.sealedSegments⟩
        have hv₂ : (Rebuild.flushed { r₁ with m := m₂ }).view = r₁.flushed.view := by
          rw [hm₂]
          rfl
        obtain ⟨hi', hv'⟩ := rebuildSegments_routes
          (fun t ht => hlive t (List.mem_cons_of_mem _ ht)) hi₂ h
        refine ⟨hi', fun hs => ?_⟩
        rw [hv' hs, hv₂, hv₁ hs]
        rfl
      · cases h
    · cases h

/-! ## The rebuild -/

theorem rebuildClear_location (m : SegmentManager) (s : Bytes) :
    (m.writeSystem rebuildClear).systemDB[docLocationPrefix ++ s]? =
      if compare s (lit "\xff") = .lt then none else m.systemDB[docLocationPrefix ++ s]? :=
  getElem?_eraseRange_location _ s

theorem rebuildClear_tombstone (m : SegmentManager) (s : Bytes) :
    (m.writeSystem rebuildClear).systemDB[tombstonePrefix ++ s]? =
      m.systemDB[tombstonePrefix ++ s]? := by
  show (m.systemDB.eraseRange _ _)[tombstonePrefix ++ s]? = _
  have hhigh : compare (tombstonePrefix ++ s) (docLocationPrefix ++ lit "\xff") ≠ .lt := by
    show compare (lit "__hlq_" ++ 116 :: (lit "ombstone:" ++ s))
      (lit "__hlq_" ++ 100 :: lit "ocloc:\xff") ≠ .lt
    rw [compare_append_left]
    exact fun h => absurd (Std.OrientedCmp.gt_of_lt h) (by
      rw [compare_cons_of_lt (by decide)]; simp)
  rw [ByteMap.getElem?_eraseRange, if_pos (.inr hhigh)]

theorem rebuildClear_sound (hs : m.Sound) : (m.writeSystem rebuildClear).Sound := by
  refine ⟨⟨hs.wellFormed.snapshot, hs.wellFormed.live_eq, hs.wellFormed.colon_not_mem⟩,
    ⟨hs.linked.sealed, hs.linked.active⟩, fun {s v} h => ?_⟩
  rw [rebuildClear_location] at h
  split at h
  · cases h
  · exact hs.locationKeys h

theorem rebuildClear_sameValues (m : SegmentManager) :
    RoutedStore.SameValues m.view (m.writeSystem rebuildClear).view :=
  ⟨funext fun k => by
    show (_ : Option Bytes).isSome = (_ : Option Bytes).isSome
    rw [rebuildClear_tombstone], rfl, rfl⟩

theorem rebuildClear_view_location (m : SegmentManager) (k : DocKey) :
    (m.writeSystem rebuildClear).view.location k = m.view.location k ∨
      ¬ HighKey k ∧ (m.writeSystem rebuildClear).view.location k = none := by
  show Option.map _ _ = Option.map _ _ ∨ _ ∧ Option.map _ _ = none
  rw [rebuildClear_location]
  by_cases hk : compare k.rest (lit "\xff") = .lt
  · exact .inr ⟨fun h => (highKey_iff k).mp h hk, by simp [hk]⟩
  · exact .inl (by simp [hk])

theorem generation_quiet (m : SegmentManager) (value : Bytes) :
    Quiet m (m.writeSystem [.put manifestGenerationKey value]) := by
  exact ⟨⟨fun s => insert_generation_location .., fun s => insert_generation_tombstone ..,
    fun _ => rfl⟩, rfl, rfl, rfl⟩

/-- **A rebuild leaves the view as it was**, and the invariants with it. -/
theorem rebuildDocLocationMap_ok (h : rebuildDocLocationMap env m = (true, m')) :
    m'.sealedSegments = m.sealedSegments ∧
      (m.Sound → m.view.Newest HighKey → m'.Sound ∧ m'.view = m.view) := by
  unfold rebuildDocLocationMap at h
  split at h
  · cases h
  rename_i snapshot hsnapshot
  obtain ⟨m₁, h₁, h⟩ := andThen_ok h
  have hm₁ := attempt_ok h₁
  have hlive : m₁.live = m.live := by rw [hm₁]; rfl
  have hsegments : snapshot.liveNewestFirst = m.live := by unfold live; rw [hsnapshot]
  have hstart : Rebuild.Inv m₁ { m := m₁ } :=
    ⟨.start m₁, fun hs => hs.still ⟨.of_eq rfl rfl rfl rfl rfl, rfl⟩, rfl, rfl, rfl⟩
  split at h
  · cases h
  rename_i r hr
  rw [hsegments, ← hlive] at hr
  obtain ⟨hi, hview⟩ := rebuildSegments_routes (fun s hs => hs) hstart hr
  obtain ⟨m₂, h₂, h⟩ := andThen_ok h
  -- the batch that is left over is written, so that the store is the flushed one
  have hm₂ : ∃ n, m₂ = { r.flushed with calls := n } := by
    split at h₂
    · rename_i hnil
      refine ⟨r.m.calls, ?_⟩
      rw [← (Prod.mk.inj h₂).2, Rebuild.flushed, hi.isOpen.empty hnil]
      rfl
    · exact ⟨r.m.calls + 1, attempt_ok h₂⟩
  obtain ⟨n, rfl⟩ := hm₂
  have q : Still r.flushed m' := by
    rw [attempt_ok h]
    exact ⟨(generation_quiet r.flushed (decimal snapshot.generation.toNat)).trans
      (.of_eq rfl rfl rfl rfl rfl), rfl⟩
  refine ⟨?_, fun hs hn => ?_⟩
  · rw [q.sealedSegments]
    show r.m.sealedSegments = m.sealedSegments
    rw [hi.sealedSegments, hm₁]
    rfl
  · have hs₁ : m₁.Sound := by
      rw [hm₁]
      exact rebuildClear_sound (hs.still ⟨.of_eq rfl rfl rfl rfl rfl, rfl⟩)
    refine ⟨(hi.sound hs₁).still q, ?_⟩
    rw [q.view_eq, hview hs₁]
    have hkeys : ∀ s (k : DocKey), k ∈ documentKeys ((m₁.database s).prefixKeys (lit "doc:")) ↔
          (m.view.segment s k).isSome = true := by
      intro s k
      have hdb : m₁.database s = m.database s := by rw [hm₁]; rfl
      rw [mem_documentKeys, ByteMap.mem_prefixKeys, hdb, Std.ExtTreeMap.mem_iff_isSome_getElem?]
      exact and_iff_left (startsWith_append _ _)
    have hview₁ : m₁.view = (m.writeSystem rebuildClear).view := by rw [hm₁]; rfl
    have hflushed : (Rebuild.flushed { m := m₁ }).view = m₁.view := rfl
    rw [hflushed, hview₁, hlive]
    exact hn.routeSegments (rebuildClear_sameValues m) (rebuildClear_view_location m) hkeys

/-! ## Calls -/

/-- The public calls: those that change documents, a deletion of any range, a read (which may repair
a location record) and the rebuild. -/
inductive Call where
  | change (op : Op)
  | deleteDocumentRange (startKey endKey : Bytes)
  | getDocument (key : Bytes)
  | rebuildDocLocationMap
  deriving DecidableEq

/-- One call; `none` when it does not report success. A range deletion reports how many documents it
deleted, and none of them is no failure. -/
def call (env : Env) (m : SegmentManager) : Call → Option SegmentManager
  | .change op => step env m op
  | .deleteDocumentRange startKey endKey => some (m.deleteDocumentRange env startKey endKey).2
  | .getDocument key => some (m.getDocument env key).2
  | .rebuildDocLocationMap =>
    match m.rebuildDocLocationMap env with
    | (true, m) => some m
    | (false, _) => none

def runCalls (env : Env) (m : SegmentManager) (calls : List Call) : Option SegmentManager :=
  calls.foldlM (call env) m

/-- What every call keeps: the location map names the newest holder of each document, and no
segment is live twice. -/
structure Kept (m : SegmentManager) : Prop where
  sound : m.Sound
  newest : m.view.Newest HighKey
  nodup : m.live.Nodup

theorem initializeEmpty_kept {options : StorageOptions}
    (h : initializeEmpty env options = (true, m)) : m.Kept := by
  obtain ⟨hdocs, hsealed, hw⟩ := initializeEmpty_ok h
  have hrep := initializeEmpty_represented h
  have hloc : ∀ k, m.view.location k = none := fun k => by
    show (m.systemDB[docLocationPrefix ++ k.rest]?).map _ = none
    rw [hdocs.location]
    simp
  have hseg : ∀ s k, m.view.segment s k = none := fun s k => by
    show (m.database s)[k.toBytes]? = none
    rw [hdocs.database]
    simp [database]
  have hlinked : m.Linked := by
    obtain ⟨m', s, c, rfl⟩ := initializeEmpty_spec h
    exact ⟨c.manifest_sealed.trans hsealed.symm, s, c.ne_nil, c.activeSegment, c.manifest_active⟩
  obtain ⟨active, -, hlive⟩ := hw.live_eq
  refine ⟨⟨hw, hlinked, hrep.locationKeys⟩, ⟨fun {k s} hk => ?_, fun _ _ s => hseg s _,
    fun _ k => hseg _ k⟩, by rw [hlive, hsealed]; simp⟩
  exact absurd ((hloc k).symm.trans hk) (by simp)

theorem Advances.kept (ha : Advances m m') (hk : m.Kept)
    (hfew : m'.sealedSegments.length < 2 ^ 64) : m'.Kept := by
  obtain ⟨hs, hmoves⟩ := ha.sound hk.sound hfew
  exact ⟨hs, hk.newest.moves hmoves, RoutedStore.nodup_moves hmoves hk.nodup⟩

theorem repairDocLocation_sealedSegments (env : Env) (m : SegmentManager) (key segment : Bytes) :
    (repairDocLocation env m key segment).2.sealedSegments = m.sealedSegments := by
  unfold repairDocLocation attempt readClock
  split
  · rfl
  · dsimp only
    split <;> rfl

theorem getDocument_sealedSegments (env : Env) (m : SegmentManager) (key : Bytes) :
    (m.getDocument env key).2.sealedSegments = m.sealedSegments := by
  unfold getDocument
  split
  · rfl
  split
  · rfl
  split
  · rfl
  split
  · exact repairDocLocation_sealedSegments env m key _
  · rfl

/-- **One call** keeps the invariant. -/
theorem call_kept {c : Call} (h : call env m c = some m') :
    m.sealedSegments.length ≤ m'.sealedSegments.length ∧
      (m.Kept → m'.sealedSegments.length < 2 ^ 64 → m'.Kept) := by
  cases c with
  | change op => exact ⟨(step_advances h).sealed_le, fun hk => (step_advances h).kept hk⟩
  | deleteDocumentRange startKey endKey =>
    cases h
    have ha := deleteDocumentRange_advances env m startKey endKey
    exact ⟨ha.sealed_le, fun hk => ha.kept hk⟩
  | getDocument key =>
    cases h
    refine ⟨by rw [getDocument_sealedSegments], fun hk _ => ?_⟩
    rw [getDocument_state fun _ => hk.newest.scan_eq_none]
    exact hk
  | rebuildDocLocationMap =>
    simp only [call] at h
    split at h
    · rename_i m₁ h₁
      obtain rfl := Option.some.inj h
      obtain ⟨hsealed, hview⟩ := rebuildDocLocationMap_ok h₁
      refine ⟨by rw [hsealed], fun hk _ => ?_⟩
      obtain ⟨hs, hv⟩ := hview hk.sound hk.newest
      have hlive : m₁.live = m.live := congrArg RoutedStore.live hv
      exact ⟨hs, by rw [hv]; exact hk.newest, by rw [hlive]; exact hk.nodup⟩
    · cases h

/-- By induction on the calls: **every run** keeps the invariant. -/
theorem runCalls_kept : ∀ {calls : List Call} {m m' : SegmentManager},
    runCalls env m calls = some m' → m.sealedSegments.length ≤ m'.sealedSegments.length ∧
      (m.Kept → m'.sealedSegments.length < 2 ^ 64 → m'.Kept)
  | [], m, m', h => by
    cases h
    exact ⟨Nat.le_refl _, fun hk _ => hk⟩
  | c :: calls, m, m', h => by
    obtain ⟨m₁, h₁, h⟩ := Option.bind_eq_some_iff.mp h
    obtain ⟨hle₁, hk₁⟩ := call_kept h₁
    obtain ⟨hle, hk⟩ := runCalls_kept h
    exact ⟨hle₁.trans hle, fun h₀ hfew => hk (hk₁ h₀ (Nat.lt_of_le_of_lt hle hfew)) hfew⟩

/-! ## Answers -/

/-- Every read and every page of every listing give the same. -/
structure SameAnswers (env : Env) (m m' : SegmentManager) : Prop where
  getDocument : ∀ key, (m'.getDocument env key).1 = (m.getDocument env key).1
  prefixKeys : ∀ docPrefix offset limit,
    m'.prefixKeys docPrefix offset limit = m.prefixKeys docPrefix offset limit

theorem prefixKeys_page (m : SegmentManager) (docPrefix : Bytes) (offset limit : Nat) :
    m.prefixKeys docPrefix offset limit =
      if limit = 0 then (m.prefixKeys docPrefix 0 0).drop offset
      else ((m.prefixKeys docPrefix 0 0).drop offset).take limit := by
  unfold prefixKeys
  dsimp only
  split <;> simp

theorem SameAnswers.of_view (h : m'.view = m.view) (env : Env) : SameAnswers env m m' := by
  refine ⟨fun key => ?_, fun docPrefix offset limit => ?_⟩
  · by_cases hk : ∃ k : DocKey, key = k.toBytes
    · obtain ⟨k, rfl⟩ := hk
      rw [getDocument_toBytes, getDocument_toBytes, h]
    · have hparse : parseDocKey key = none := by
        rw [← Option.not_isSome_iff_eq_none, parseDocKey_isSome_iff]
        exact hk
      simp [SegmentManager.getDocument, hparse]
  · rw [prefixKeys_page, prefixKeys_page m]
    have hall : m'.prefixKeys docPrefix 0 0 = m.prefixKeys docPrefix 0 0 := by
      cases hp : stripPrefix (lit "doc:") docPrefix with
      | none => simp [SegmentManager.prefixKeys, locationPrefixFromDocPrefix, hp]
      | some p =>
        rw [stripPrefix_eq_some.mp hp]
        refine ByteMap.eq_of_sorted (prefixKeys_pairwise m' p) (prefixKeys_pairwise m p) fun key => ?_
        rw [mem_prefixKeys_iff, mem_prefixKeys_iff, h]
    rw [hall]

/-- **A rebuild changes no answer**, in every state that calls which report success lead to; and
where the database answers it ends with success. The number of sealed segments is the size of a
`std::vector`. -/
theorem rebuild_sameAnswers {env : Env} {options : StorageOptions} {m₀ m : SegmentManager}
    {calls : List Call} (h₀ : initializeEmpty env options = (true, m₀))
    (hrun : runCalls env m₀ calls = some m) (hsize : m.sealedSegments.length < 2 ^ 64)
    (env' : Env) :
    ((rebuildDocLocationMap env' m).1 = true →
        SameAnswers env' m (rebuildDocLocationMap env' m).2) ∧
      ((∀ n, env'.ok n = true) → (rebuildDocLocationMap env' m).1 = true) := by
  have hk : m.Kept := (runCalls_kept hrun).2 (initializeEmpty_kept h₀) hsize
  refine ⟨fun htrue => ?_, fun henv => rebuildDocLocationMap_of_ok henv hk.sound.wellFormed⟩
  obtain ⟨-, hview⟩ := rebuildDocLocationMap_ok (Prod.ext htrue rfl)
  exact .of_view (hview hk.sound hk.newest).2 env'

/-- A run with a rotation, an overwritten document of a sealed segment, a deletion, a clear that
leaves a record behind, and a rebuild. -/
def rebuildingRun : List Call :=
  [.change (.batchSetDocuments [(lit "doc:c:1", lit "a"), (lit "doc:c:2", lit "b")]),
    .change (.setDocument (lit "doc:c:1") (lit "z")), .getDocument (lit "doc:c:1"),
    .change (.deleteDocument (lit "doc:c:2")), .rebuildDocLocationMap,
    .change (.setDocument (lit "doc:\xffc:1") (lit "v")), .change .clearAllDocuments,
    .change (.setDocument (lit "doc:c:2") (lit "y"))]

theorem rebuild_sameAnswers_rebuildingRun :
    ∃ m, runCalls calmEnv emptyStore rebuildingRun = some m ∧ 0 < m.sealedSegments.length ∧
      m.sealedSegments.length < 2 ^ 64 ∧ (rebuildDocLocationMap calmEnv m).1 = true ∧
      SameAnswers calmEnv m (rebuildDocLocationMap calmEnv m).2 := by
  have hrun : (runCalls calmEnv emptyStore rebuildingRun).map
      (fun m => m.sealedSegments.length) = some 2 := by
    decide +kernel
  obtain ⟨m, hm, hlen⟩ := Option.map_eq_some_iff.mp hrun
  have hsize : m.sealedSegments.length < 2 ^ 64 := by rw [hlen]; decide
  have hsame := rebuild_sameAnswers emptyStore_eq hm hsize calmEnv
  have htrue := hsame.2 fun _ => rfl
  exact ⟨m, hm, by rw [hlen]; decide, hsize, htrue, hsame.1 htrue⟩

end Hlquery.Store.SegmentManager
