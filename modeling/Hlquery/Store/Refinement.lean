import Hlquery.Lib.RoutedStore
import Hlquery.Store.Documents

/-!
# The segmented store is a map of documents

The abstract store is a plain ordered map from document keys to values, and each call has the
obvious meaning there (`specStep`). The concrete store is an instance of the routed store: the
location records are its index, `view` reads them off the system database, and `Represented m A`
says that the view stands for the map `A`.

Every call keeps `Represented` and moves `A` as `specStep` says, except one.
`ClearAllDocuments` deletes the location records from `__hlq_docloc:` up to, not including,
`__hlq_docloc:\xff`. A record of a collection whose name starts with the byte `0xff` lies at or
above that bound and survives, while the document itself is gone from every segment; from then on
`PrefixKeys` lists a key that `GetDocument` does not find. `clearAllDocuments_represented` is the
step lemma under the condition that no live document belongs to such a collection, and
`prefixKeys_after_clear` is what happens otherwise.
-/

set_option autoImplicit false

namespace Hlquery.Store.SegmentManager

open Hlquery.Bytes

/-! ## The abstract store -/

def specStep (docs : ByteMap Bytes) : Op → ByteMap Bytes
  | .setDocument key value => docs.insert key value
  | .batchSetDocuments keyValues => keyValues.foldl (fun docs kv => docs.insert kv.1 kv.2) docs
  | .deleteDocument key => docs.erase key
  | .deleteCollection collection =>
    docs.filter fun key _ => !startsWith key (collectionStart collection)
  | .clearAllDocuments => ∅

def specRun (ops : List Op) : ByteMap Bytes := ops.foldl specStep ∅

/-- The store behaves like the map: `GetDocument` returns the value or the empty string,
`PrefixKeys` lists the keys of each collection in order, and no document has both records. -/
structure Agrees (env : Env) (m : SegmentManager) (docs : ByteMap Bytes) : Prop where
  getDocument : ∀ key, (m.getDocument env key).1 = (docs[key]?).getD []
  prefixKeys : ∀ collection, m.prefixKeys (collectionStart collection) 0 0 =
    docs.prefixKeys (collectionStart collection)
  oneRecord : ∀ collection docId, m.systemDB[docLocationKey collection docId]? = none ∨
    m.systemDB[tombstoneKey collection docId]? = none

/-! ## The view -/

def view (m : SegmentManager) : RoutedStore DocKey Bytes Bytes where
  location k := (m.systemDB[docLocationPrefix ++ k.rest]?).map segmentIdOfRecord
  tombstone k := (m.systemDB[tombstonePrefix ++ k.rest]?).isSome
  segment s k := (m.database s)[k.toBytes]?
  live := m.live

/-- The store stands for the map `docs`. -/
structure Represented (m : SegmentManager) (docs : ByteMap Bytes) : Prop where
  wellFormed : m.WellFormed
  /-- Location records belong to document keys. -/
  locationKeys : ∀ {s v}, m.systemDB[docLocationPrefix ++ s]? = some v →
    ∃ k : DocKey, k.rest = s
  /-- So do the keys of the map. -/
  docKeys : ∀ {key}, key ∈ docs → ∃ k : DocKey, key = k.toBytes
  represents : m.view.Represents fun k => docs[k.toBytes]?

variable {m : SegmentManager} {docs : ByteMap Bytes} {m' : SegmentManager}

theorem view_of_rotated (h : Rotated m m') : m'.view = m.view.grow m'.live := by
  unfold view RoutedStore.grow
  congr 1
  · funext k; rw [h.location]
  · funext k; rw [h.tombstone]
  · funext s k; rw [h.database]

theorem Quiet.view_eq (q : Quiet m m') : m'.view = m.view := by
  have hlive := live_congr q.currentSnapshot
  unfold view
  congr 1
  · funext k; rw [q.location]
  · funext k; rw [q.tombstone]
  · funext s k; rw [q.database]

/-- Rotation changes nothing that a reader can see. -/
theorem Represented.rotated (h : m.Represented docs) (hr : Rotated m m') : m'.Represented docs where
  wellFormed := hr.wellFormed
  locationKeys := fun hs => h.locationKeys (by rwa [hr.location] at hs)
  docKeys := h.docKeys
  represents := by
    rw [view_of_rotated hr]
    exact h.represents.grow hr.live_subset

theorem Represented.quiet (h : m.Represented docs) (hq : Quiet m m') : m'.Represented docs :=
  h.rotated (.of_quiet h.wellFormed hq)

theorem initializeEmpty_represented {env : Env} {options : StorageOptions}
    (h : initializeEmpty env options = (true, m)) : m.Represented ∅ := by
  obtain ⟨hd, -, hw⟩ := initializeEmpty_ok h
  have hloc : ∀ s, m.systemDB[docLocationPrefix ++ s]? = none := fun s => by
    rw [hd.location]; simp
  refine ⟨hw, fun {s v} hs => absurd (hloc s) (by rw [hs]; simp), nofun, ?_⟩
  have hrep : m.view.Represents fun _ => none := by
    refine RoutedStore.represents_empty (fun k => ?_) (fun s k => ?_)
    · simp [view, hloc]
    show (m.database s)[k.toBytes]? = none
    rw [hd.database]
    simp [database]
  simpa using hrep

/-! ## Reading -/

theorem findSegment_eq (m : SegmentManager) (s : Bytes) :
    m.findSegment s = if s ∈ m.live then some s else none := by
  unfold findSegment
  induction m.live with
  | nil => rfl
  | cons t live ih =>
    by_cases h : t = s
    · simp [h]
    · simp [h, ih, Ne.symm h]

theorem readLocated_eq (m : SegmentManager) (k : DocKey) :
    m.readLocated k.toBytes k.collection k.docId = m.view.located k := by
  unfold readLocated RoutedStore.located
  rw [docLocationKey_eq]
  simp only [findSegment_eq, view]
  cases m.systemDB[docLocationPrefix ++ k.rest]? with
  | none => rfl
  | some docloc =>
    by_cases hmem : segmentIdOfRecord docloc ∈ m.live <;> simp [hmem]

theorem readNewest_map_snd (m : SegmentManager) (k : DocKey) :
    (m.readNewest k.toBytes).map Prod.snd = m.view.scan k := by
  unfold readNewest RoutedStore.scan view
  induction m.live with
  | nil => rfl
  | cons s live ih =>
    simp only [List.findSome?_cons]
    cases hv : (m.database s)[k.toBytes]? with
    | none => simpa using ih
    | some v => rfl

theorem getDocument_toBytes (env : Env) (m : SegmentManager) (k : DocKey) :
    (m.getDocument env k.toBytes).1 = (m.view.read k).getD [] := by
  have htomb : m.isTombstoned k.collection k.docId = m.view.tombstone k := rfl
  unfold getDocument RoutedStore.read
  simp only [parseDocKey_toBytes, htomb, readLocated_eq, ← readNewest_map_snd]
  cases m.view.tombstone k with
  | true => rfl
  | false =>
    cases m.view.located k with
    | some v => rfl
    | none => cases m.readNewest k.toBytes <;> rfl

theorem Represented.getDocument (h : m.Represented docs) (env : Env) (key : Bytes) :
    (m.getDocument env key).1 = (docs[key]?).getD [] := by
  by_cases hk : ∃ k : DocKey, key = k.toBytes
  · obtain ⟨k, rfl⟩ := hk
    rw [getDocument_toBytes, RoutedStore.read_eq h.represents]
  · have hparse : parseDocKey key = none := by
      rw [← Option.not_isSome_iff_eq_none, parseDocKey_isSome_iff]; exact hk
    have hdocs : docs[key]? = none := by
      rw [← Option.not_isSome_iff_eq_none, ← Std.ExtTreeMap.mem_iff_isSome_getElem?]
      exact fun hmem => hk (h.docKeys hmem)
    simp [SegmentManager.getDocument, hparse, hdocs]

/-- No read writes, where the newest-first search finds nothing that the index does not name. -/
theorem getDocument_state
    (h : ∀ k, m.view.tombstone k = false → m.view.located k = none → m.view.scan k = none)
    (env : Env) (key : Bytes) : (m.getDocument env key).2 = m := by
  unfold SegmentManager.getDocument
  cases hp : parseDocKey key with
  | none => rfl
  | some cd =>
    obtain ⟨c, d⟩ := cd
    obtain ⟨k, rfl, rfl, rfl⟩ := parseDocKey_eq_some hp
    have htomb : m.isTombstoned k.collection k.docId = m.view.tombstone k := rfl
    simp only [htomb, readLocated_eq]
    cases ht : m.view.tombstone k with
    | true => rfl
    | false =>
      cases hv : m.view.located k with
      | some v => rfl
      | none =>
        have hn : m.readNewest k.toBytes = none := by
          rw [← Option.map_eq_none_iff, readNewest_map_snd]
          exact h k ht hv
        simp [hn]

/-! ## Listing -/

theorem mem_scanPrefix_location {p lk v : Bytes} :
    (lk, v) ∈ m.systemDB.scanPrefix (docLocationPrefix ++ p) ↔
      ∃ t, lk = docLocationPrefix ++ (p ++ t) ∧
        m.systemDB[docLocationPrefix ++ (p ++ t)]? = some v := by
  rw [ByteMap.mem_scanPrefix, startsWith_iff]
  constructor
  · rintro ⟨hget, t, rfl⟩
    exact ⟨t, List.append_assoc .., by rwa [← List.append_assoc]⟩
  · rintro ⟨t, rfl, hget⟩
    exact ⟨hget, t, (List.append_assoc ..).symm⟩

variable {k : DocKey}

theorem startsWith_toBytes_iff {p : Bytes} :
    startsWith k.toBytes (lit "doc:" ++ p) = true ↔ ∃ t, k.rest = p ++ t := by
  rw [startsWith_iff]
  refine exists_congr fun t => ?_
  exact List.append_right_inj _

theorem location_isSome_iff : (m.view.location k).isSome = true ↔
    ∃ v, m.systemDB[docLocationPrefix ++ k.rest]? = some v := by
  show ((m.systemDB[docLocationPrefix ++ k.rest]?).map segmentIdOfRecord).isSome = true ↔ _
  rw [Option.isSome_map, Option.isSome_iff_exists]

/-- A listing without offset and limit contains the documents that have a location record and
no tombstone. -/
theorem mem_prefixKeys_iff {p key : Bytes} : key ∈ m.prefixKeys (lit "doc:" ++ p) 0 0 ↔
      startsWith key (lit "doc:" ++ p) = true ∧
      ∃ k : DocKey, key = k.toBytes ∧ (m.view.location k).isSome = true ∧
        m.view.tombstone k = false := by
  unfold prefixKeys
  rw [locationPrefixFromDocPrefix_append, if_neg (by simp [docLocationPrefix, lit])]
  simp only [List.drop_zero, if_true, List.mem_filterMap, Prod.exists, mem_scanPrefix_location]
  constructor
  · rintro ⟨_, v, ⟨t, rfl, hget⟩, hkey⟩
    rw [docKeyFromLocationKey_append] at hkey
    cases hparse : parseDocKey (lit "doc:" ++ (p ++ t)) with
    | none => simp [hparse] at hkey
    | some cd =>
      obtain ⟨c, d⟩ := cd
      obtain ⟨k, rfl, rfl, hk⟩ := parseDocKey_eq_some hparse
      have hrest : k.rest = p ++ t := List.append_cancel_left hk.symm
      simp only [hparse] at hkey
      split at hkey
      · cases hkey
      · rename_i htomb
        cases hkey
        refine ⟨hk ▸ startsWith_toBytes_iff.mpr ⟨t, hrest⟩, k, hk, ?_, Bool.not_eq_true _ ▸ htomb⟩
        exact location_isSome_iff.mpr ⟨v, hrest ▸ hget⟩
  · rintro ⟨hpre, k, rfl, hloc, htomb⟩
    obtain ⟨t, hrest⟩ := startsWith_toBytes_iff.mp hpre
    obtain ⟨v, hv⟩ := location_isSome_iff.mp hloc
    refine ⟨docLocationPrefix ++ k.rest, v, ⟨t, by rw [hrest], hrest ▸ hv⟩, ?_⟩
    rw [docKeyFromLocationKey_append, show lit "doc:" ++ k.rest = k.toBytes from rfl,
      parseDocKey_toBytes]
    exact if_neg (by rw [show m.isTombstoned k.collection k.docId = _ from htomb]; simp)

theorem listed_key {locKey key : Bytes} (h : (match parseDocKey (docKeyFromLocationKey locKey) with
      | none => none
      | some (c, d) =>
        if m.isTombstoned c d then none else some (docKeyFromLocationKey locKey)) = some key) :
    ∃ s, locKey = docLocationPrefix ++ s ∧ key = lit "doc:" ++ s := by
  cases hparse : parseDocKey (docKeyFromLocationKey locKey) with
  | none => simp [hparse] at h
  | some cd =>
    obtain ⟨s, hlk, hdk⟩ := docKeyFromLocationKey_of_parse (by rw [hparse]; rfl)
    simp only [hparse] at h
    split at h
    · cases h
    · exact ⟨s, hlk, by rw [← Option.some.inj h, hdk]⟩

theorem prefixKeys_pairwise (m : SegmentManager) (p : Bytes) :
    (m.prefixKeys (lit "doc:" ++ p) 0 0).Pairwise fun a b => compare a b = .lt := by
  unfold prefixKeys
  -- the two prefixes cancel, so the order of the scan is the order of the documents
  refine (ByteMap.scanPrefix_sorted m.systemDB (docLocationPrefix ++ p)).filterMap _ ?_
  rintro ⟨a, va⟩ ⟨b, vb⟩ hlt ka hka kb hkb
  obtain ⟨s, rfl, rfl⟩ := listed_key hka
  obtain ⟨t, rfl, rfl⟩ := listed_key hkb
  exact hlt

theorem Represented.location_iff (h : m.Represented docs) :
    (m.view.location k).isSome = true ↔ k.toBytes ∈ docs := by
  rw [h.represents.location_isSome k, Std.ExtTreeMap.mem_iff_isSome_getElem?]

theorem Represented.tombstone_none (h : m.Represented docs)
    (hk : (m.view.location k).isSome = true) : m.systemDB[tombstonePrefix ++ k.rest]? = none := by
  obtain ⟨s, hs⟩ := Option.isSome_iff_exists.mp hk
  exact Option.isSome_eq_false_iff.mp (h.represents.routed hs).2.1 |> Option.isNone_iff_eq_none.mp

theorem Represented.prefixKeys (h : m.Represented docs) (p : Bytes) :
    m.prefixKeys (lit "doc:" ++ p) 0 0 = docs.prefixKeys (lit "doc:" ++ p) := by
  refine ByteMap.eq_of_sorted (prefixKeys_pairwise m p) (ByteMap.prefixKeys_sorted _ _) fun key => ?_
  rw [mem_prefixKeys_iff, ByteMap.mem_prefixKeys]
  constructor
  · rintro ⟨hpre, k, rfl, hloc, -⟩
    exact ⟨h.location_iff.mp hloc, hpre⟩
  · rintro ⟨hmem, hpre⟩
    obtain ⟨k, rfl⟩ := h.docKeys hmem
    have hloc := h.location_iff.mpr hmem
    exact ⟨hpre, k, rfl, hloc, congrArg Option.isSome (h.tombstone_none hloc)⟩

/-- **A represented map is what the store behaves like.** -/
theorem Represented.agrees (h : m.Represented docs) (env : Env) : Agrees env m docs where
  getDocument := h.getDocument env
  prefixKeys := fun c => h.prefixKeys (c ++ [58])
  oneRecord := by
    intro c d
    cases hl : m.systemDB[docLocationKey c d]? with
    | none => exact .inl rfl
    | some v =>
      obtain ⟨k, hk⟩ := h.locationKeys hl
      refine .inr ?_
      show m.systemDB[tombstonePrefix ++ (c ++ 58 :: d)]? = none
      rw [← hk]
      exact h.tombstone_none (location_isSome_iff.mpr ⟨v, hk ▸ hl⟩)

/-! ## Writing -/

def putOne (m : SegmentManager) (active : Bytes) (timestampMs : UInt64) (key value : Bytes) :
    SegmentManager :=
  (m.setDatabase active ((m.database active).insert key value)).writeSystem
    (locationUpdates active timestampMs key)

/-- A whole batch, as `writeToActive` applies it. -/
def putBatch (m : SegmentManager) (active : Bytes) (timestampMs : UInt64)
    (keyValues : List (Bytes × Bytes)) : SegmentManager :=
  (m.setDatabase active
    ((m.database active).write (keyValues.map fun kv => .put kv.1 kv.2))).writeSystem
    (keyValues.flatMap fun kv => locationUpdates active timestampMs kv.1)

theorem putBatch_cons_quiet (m : SegmentManager) (active : Bytes) (timestampMs : UInt64)
    (kv : Bytes × Bytes) (keyValues : List (Bytes × Bytes)) :
    Quiet ((m.putOne active timestampMs kv.1 kv.2).putBatch active timestampMs keyValues)
      (m.putBatch active timestampMs (kv :: keyValues)) := by
  have hsys : (m.putBatch active timestampMs (kv :: keyValues)).systemDB =
      ((m.putOne active timestampMs kv.1 kv.2).putBatch active timestampMs keyValues).systemDB :=
    ByteMap.write_append ..
  refine ⟨⟨fun s => by rw [hsys], fun s => by rw [hsys], fun id => ?_⟩, rfl, rfl, rfl⟩
  have hone : ∀ id, (m.putOne active timestampMs kv.1 kv.2).database id =
      if id = active then (m.database active).insert kv.1 kv.2 else m.database id :=
    fun id => database_setDatabase ..
  refine (database_setDatabase ..).trans (Eq.trans ?_ (database_setDatabase ..).symm)
  split
  · rw [hone, if_pos rfl]; rfl
  · rename_i hne; rw [hone, if_neg hne]

theorem getElem?_locationUpdates (db : ByteMap Bytes) (segment : Bytes) (timestampMs : UInt64)
    (k : DocKey) (s : Bytes) :
    (db.write (locationUpdates segment timestampMs k.toBytes))[docLocationPrefix ++ s]? =
        (if s = k.rest then some (locationRecord segment timestampMs)
          else db[docLocationPrefix ++ s]?) ∧
      (db.write (locationUpdates segment timestampMs k.toBytes))[tombstonePrefix ++ s]? =
        if s = k.rest then none else db[tombstonePrefix ++ s]? := by
  have hwrite : db.write (locationUpdates segment timestampMs k.toBytes) =
      (db.insert (docLocationKey k.collection k.docId)
        (locationRecord segment timestampMs)).erase (tombstoneKey k.collection k.docId) := by
    unfold locationUpdates
    rw [parseDocKey_toBytes]
    rfl
  rw [hwrite]
  simp [ByteMap.get_erase, ByteMap.get_insert, tombstoneKey_eq, docLocationKey_eq,
    location_ne_tombstone, (location_ne_tombstone _ _).symm]

section PutOne

variable (m : SegmentManager) (active : Bytes) (timestampMs : UInt64) (k : DocKey) (value : Bytes)

theorem putOne_location (s : Bytes) :
    (m.putOne active timestampMs k.toBytes value).systemDB[docLocationPrefix ++ s]? =
      if s = k.rest then some (locationRecord active timestampMs)
      else m.systemDB[docLocationPrefix ++ s]? :=
  (getElem?_locationUpdates m.systemDB active timestampMs k s).1

theorem putOne_tombstone (s : Bytes) :
    (m.putOne active timestampMs k.toBytes value).systemDB[tombstonePrefix ++ s]? =
      if s = k.rest then none else m.systemDB[tombstonePrefix ++ s]? :=
  (getElem?_locationUpdates m.systemDB active timestampMs k s).2

theorem putOne_view (hactive : 58 ∉ active) :
    (m.putOne active timestampMs k.toBytes value).view = m.view.put active k value := by
  unfold view RoutedStore.put
  congr 1
  · funext k'
    rw [putOne_location]
    by_cases hk : k' = k <;> simp [hk, segmentIdOfRecord_locationRecord hactive]
  · funext k'
    rw [putOne_tombstone]
    by_cases hk : k' = k <;> simp [hk]
  · funext s k'
    have hdb : (m.putOne active timestampMs k.toBytes value).database s =
        if s = active then (m.database active).insert k.toBytes value else m.database s :=
      database_setDatabase ..
    rw [hdb]
    by_cases hs : s = active <;> by_cases hk : k' = k <;> simp [hs, hk, ByteMap.get_insert]

end PutOne

/-! ## The store while writes are on their way -/

/-- The store stands for `docs` once the pending keys have reached the index. -/
structure Settling (m : SegmentManager) (pending : DocKey → Bool) (docs : ByteMap Bytes) : Prop where
  wellFormed : m.WellFormed
  locationKeys : ∀ {s v}, m.systemDB[docLocationPrefix ++ s]? = some v → ∃ k : DocKey, k.rest = s
  docKeys : ∀ {key}, key ∈ docs → ∃ k : DocKey, key = k.toBytes
  represents : ∀ active, m.activeSegment = some active →
    (m.view.settle pending active).Represents fun k => docs[k.toBytes]?

section Settling

variable {m m' : SegmentManager} {pending pending' : DocKey → Bool} {docs : ByteMap Bytes}

theorem Settling.represented (h : m.Settling pending docs) (hp : ∀ k, pending k = false) :
    m.Represented docs := by
  obtain ⟨active, hactive, -⟩ := h.wellFormed.live_eq
  refine ⟨h.wellFormed, h.locationKeys, h.docKeys, ?_⟩
  have hr := h.represents active hactive
  rwa [RoutedStore.settle_of_none active hp] at hr

theorem Represented.settling (h : m.Represented docs) (hp : ∀ k, pending k = false) :
    m.Settling pending docs :=
  ⟨h.wellFormed, h.locationKeys, h.docKeys, fun active _ => by
    rw [RoutedStore.settle_of_none active hp]
    exact h.represents⟩

theorem Represented.settled (h : m.Represented docs) : m.Settling (fun _ => false) docs :=
  h.settling fun _ => rfl

theorem Settling.quiet (h : m.Settling pending docs) (q : Quiet m m') : m'.Settling pending docs where
  wellFormed := h.wellFormed.of_quiet q
  locationKeys := fun hs => h.locationKeys (by rwa [q.location] at hs)
  docKeys := h.docKeys
  represents := fun active hactive => by
    rw [q.view_eq]
    exact h.represents active (q.activeSegment ▸ hactive)

theorem Settling.rotated (h : m.Settling pending docs) (hp : ∀ k, pending k = false)
    (hr : Rotated m m') : m'.Settling pending docs :=
  ((h.represented hp).rotated hr).settling hp

variable {entries : List (Bytes × Bytes)}

theorem insertAll_docKeys (h : ∀ {key}, key ∈ docs → ∃ k : DocKey, key = k.toBytes)
    (hkeys : ∀ key ∈ entries.map Prod.fst, ∃ k : DocKey, key = k.toBytes) {key : Bytes}
    (hmem : key ∈ docs.insertAll entries) : ∃ k : DocKey, key = k.toBytes := by
  rw [Std.ExtTreeMap.mem_iff_isSome_getElem?, Option.isSome_iff_exists] at hmem
  obtain ⟨v, hv⟩ := hmem
  rcases ByteMap.mem_of_get_insertAll hv with hin | hold
  · exact hkeys key (List.mem_map.mpr ⟨_, hin, rfl⟩)
  refine h ?_
  rw [Std.ExtTreeMap.mem_iff_isSome_getElem?, hold]
  rfl

theorem Settling.store (h : m.Settling pending docs) {active : Bytes}
    (hactive : m.activeSegment = some active)
    (hkeys : ∀ key ∈ entries.map Prod.fst, ∃ k : DocKey, key = k.toBytes)
    (hpending : ∀ k, pending' k = true ↔ pending k = true ∨ k.toBytes ∈ entries.map Prod.fst) :
    (m.setDatabase active ((m.database active).write (entries.map fun kv => .put kv.1 kv.2))).Settling
      pending' (docs.insertAll entries) where
  wellFormed := h.wellFormed.same rfl rfl rfl
  locationKeys := h.locationKeys
  docKeys := insertAll_docKeys h.docKeys hkeys
  represents := by
    intro active' hactive'
    obtain rfl : active = active' := Option.some.inj (hactive.symm.trans hactive')
    obtain ⟨a, ha, hlive⟩ := h.wellFormed.live_eq
    obtain rfl : active = a := Option.some.inj (hactive.symm.trans ha)
    have hget : ∀ t (k : DocKey), (m.setDatabase active ((m.database active).write
          (entries.map fun kv => .put kv.1 kv.2))).view.segment t k =
        (if t = active then (m.database active).insertAll entries else m.database t)[k.toBytes]? := by
      intro t k
      show (SegmentManager.database _ t)[k.toBytes]? = _
      rw [database_setDatabase, ByteMap.write_puts]
    refine RoutedStore.Represents.store
      (fun k => k.toBytes ∈ entries.map Prod.fst) (h.represents active hactive)
      (show active ∈ m.live by rw [hlive]; simp) rfl rfl rfl hpending ?_ ?_ ?_
    · intro k hw
      rw [hget, if_pos rfl]
      exact ⟨ByteMap.get_insertAll_of_mem hw _ _, ByteMap.isSome_insertAll hw docs⟩
    · intro t k ht
      rw [hget, if_neg ht]
      rfl
    · intro k hw
      rw [hget, if_pos rfl]
      exact ⟨ByteMap.get_insertAll_of_not_mem hw _, ByteMap.get_insertAll_of_not_mem hw docs⟩

/-- What the batch of location records does to the record and the tombstone of each key. -/
theorem writeSystem_locations (segment : Bytes) (timestampMs : UInt64) (s : Bytes) :
    ∀ {entries : List (Bytes × Bytes)} (db : ByteMap Bytes),
      (∀ key ∈ entries.map Prod.fst, ∃ k : DocKey, key = k.toBytes) →
      let db' := db.write (entries.flatMap fun kv => locationUpdates segment timestampMs kv.1)
      (lit "doc:" ++ s ∈ entries.map Prod.fst →
        db'[docLocationPrefix ++ s]? = some (locationRecord segment timestampMs) ∧
          db'[tombstonePrefix ++ s]? = none) ∧
      (lit "doc:" ++ s ∉ entries.map Prod.fst →
        db'[docLocationPrefix ++ s]? = db[docLocationPrefix ++ s]? ∧
          db'[tombstonePrefix ++ s]? = db[tombstonePrefix ++ s]?)
  | [], db, _ => ⟨nofun, fun _ => ⟨rfl, rfl⟩⟩
  | kv :: entries, db, hkeys => by
    obtain ⟨k, hk⟩ := hkeys kv.1 (by simp)
    have hkeys' : ∀ key ∈ entries.map Prod.fst, ∃ k : DocKey, key = k.toBytes :=
      fun key hkey => hkeys key (List.mem_cons_of_mem _ hkey)
    obtain ⟨hin, hout⟩ := writeSystem_locations segment timestampMs s
      (db.write (locationUpdates segment timestampMs kv.1)) hkeys'
    obtain ⟨hloc, htomb⟩ := getElem?_locationUpdates db segment timestampMs k s
    rw [← hk] at hloc htomb
    have hself : lit "doc:" ++ s = kv.1 ↔ s = k.rest := by
      rw [hk]
      exact List.append_right_inj _
    simp only [List.flatMap_cons, ByteMap.write_append, List.map_cons, List.mem_cons, hself]
    by_cases hmem : lit "doc:" ++ s ∈ entries.map Prod.fst
    · exact ⟨fun _ => hin hmem, fun hn => absurd (.inr hmem) hn⟩
    rw [(hout hmem).1, (hout hmem).2, hloc, htomb]
    refine ⟨fun hs => ?_, fun hn => ?_⟩
    · rcases hs with hs | hs
      · simp [hs]
      · exact absurd hs hmem
    · have hs : s ≠ k.rest := fun e => hn (.inl e)
      simp [hs]

theorem Settling.index (h : m.Settling pending docs) {active : Bytes}
    (hactive : m.activeSegment = some active)
    (hkeys : ∀ key ∈ entries.map Prod.fst, ∃ k : DocKey, key = k.toBytes)
    (hpending : ∀ k, pending k = true ↔ pending' k = true ∨ k.toBytes ∈ entries.map Prod.fst)
    (timestampMs : UInt64) :
    (m.writeSystem (entries.flatMap fun kv => locationUpdates active timestampMs kv.1)).Settling
      pending' docs where
  wellFormed := h.wellFormed.same rfl rfl rfl
  locationKeys := by
    intro s v hs
    obtain ⟨-, hout⟩ := writeSystem_locations active timestampMs s m.systemDB hkeys
    by_cases hmem : lit "doc:" ++ s ∈ entries.map Prod.fst
    · obtain ⟨k, hk⟩ := hkeys _ hmem
      exact ⟨k, (List.append_cancel_left hk).symm⟩
    · exact h.locationKeys ((hout hmem).1 ▸ hs)
  docKeys := h.docKeys
  represents := by
    intro active' hactive'
    obtain rfl : active = active' := Option.some.inj (hactive.symm.trans hactive')
    have hcolon : 58 ∉ active := by
      obtain ⟨a, ha, hlive⟩ := h.wellFormed.live_eq
      obtain rfl : active = a := Option.some.inj (hactive.symm.trans ha)
      exact h.wellFormed.colon_not_mem _ (by rw [hlive]; simp)
    have hsettle : (m.writeSystem (entries.flatMap fun kv =>
        locationUpdates active timestampMs kv.1)).view.settle pending' active =
          m.view.settle pending active := by
      refine RoutedStore.settle_index (fun k => k.toBytes ∈ entries.map Prod.fst) rfl rfl hpending
        (fun k hw => ?_) (fun k hw => ?_)
      · obtain ⟨hloc, htomb⟩ :=
          (writeSystem_locations active timestampMs k.rest m.systemDB hkeys).1 hw
        refine ⟨(congrArg (Option.map segmentIdOfRecord) hloc).trans ?_, congrArg Option.isSome htomb⟩
        rw [Option.map_some, segmentIdOfRecord_locationRecord hcolon]
      · obtain ⟨hloc, htomb⟩ :=
          (writeSystem_locations active timestampMs k.rest m.systemDB hkeys).2 hw
        exact ⟨congrArg (Option.map segmentIdOfRecord) hloc, congrArg Option.isSome htomb⟩
    rw [hsettle]
    exact h.represents active hactive

end Settling

variable {docs : ByteMap Bytes} {m : SegmentManager} {active : Bytes}
  {keyValues : List (Bytes × Bytes)}

/-- **A batch** writes its documents in order. -/
theorem Represented.putBatch (h : m.Represented docs) (hactive : m.activeSegment = some active)
    (timestampMs : UInt64) (hkeys : ∀ kv ∈ keyValues, ∃ k : DocKey, kv.1 = k.toBytes) :
    (m.putBatch active timestampMs keyValues).Represented
      (keyValues.foldl (fun docs kv => docs.insert kv.1 kv.2) docs) := by
  have hkeys' : ∀ key ∈ keyValues.map Prod.fst, ∃ k : DocKey, key = k.toBytes :=
    List.forall_mem_map.mpr hkeys
  -- between the two writes just the keys of the batch are on their way
  have hpending : ∀ k : DocKey, decide (k.toBytes ∈ keyValues.map Prod.fst) = true ↔
      (fun _ => false : DocKey → Bool) k = true ∨ k.toBytes ∈ keyValues.map Prod.fst := by simp
  have hstored := h.settled.store hactive hkeys' hpending
  exact (hstored.index hactive hkeys' hpending timestampMs).represented fun _ => rfl

/-- **The rule of the loop**: what the steps that make room keep and the batch turns into something
that the steps after it keep holds in the end. -/
theorem writeDocuments_rule {env : Env} {P Q : SegmentManager → Prop}
    (hroom : ∀ {m m' documents bytes}, P m →
      ensureActiveSegmentCapacity env m documents bytes = (true, m') → P m')
    (hbefore : ∀ {m m'}, P m → Still m m' → P m')
    (hput : ∀ {m active} timestampMs, P m → m.activeSegment = some active →
      Q (m.putBatch active timestampMs keyValues))
    (hafter : ∀ {m m'}, Q m → Still m m' → Q m')
    (hrotate : ∀ {m m'}, Q m → rotateActiveSegmentIfNeeded env m = (true, m') → Q m') :
    ∀ {rounds : Nat} {m m' : SegmentManager}, P m →
      writeDocuments env keyValues rounds m = (true, m') → Q m'
  | 0, m, m', _, hw => nomatch hw
  | rounds + 1, m, m', h, hw => by
    simp only [writeDocuments] at hw
    split at hw
    · rename_i active hactive _
      generalize keyValues.length.toUInt64 = documents at hw
      generalize documentBytes keyValues = bytes at hw
      obtain ⟨m₁, h₁, hw⟩ := andThenOr_ok hw
      obtain ⟨m₂, h₂, hw⟩ := andThenOr_ok hw
      obtain ⟨m₃, h₃, hw⟩ := andThen_ok hw
      have hreserved : P (m.reserve documents bytes) :=
        hbefore h ⟨.of_eq rfl rfl rfl rfl rfl, rfl⟩
      have hwritten : Q ((m₂.unreserve documents bytes).countWritten active documents bytes) := by
        refine hafter (hput (readClock env m₁).1 hreserved hactive) ?_
        rw [attempt_ok h₂, attempt_ok h₁]
        exact ⟨.of_eq rfl rfl rfl rfl rfl, rfl⟩
      have hpersisted := hafter hwritten (persistActiveMetadataIfNeededLocked_ok h₃)
      split at hw
      · exact hrotate hpersisted hw
      · cases hw; exact hpersisted
    · obtain ⟨m₁, h₁, hw⟩ := andThen_ok hw
      exact writeDocuments_rule hroom hbefore hput hafter hrotate (hroom h h₁) hw

theorem writeDocuments_represented {env : Env} {rounds : Nat} {m m' : SegmentManager}
    (hkeys : ∀ kv ∈ keyValues, ∃ k : DocKey, kv.1 = k.toBytes) (h : m.Represented docs)
    (hw : writeDocuments env keyValues rounds m = (true, m')) :
    m'.Represented (keyValues.foldl (fun docs kv => docs.insert kv.1 kv.2) docs) :=
  writeDocuments_rule (P := fun m => m.Represented docs) (Q := fun m => m.Represented _)
    (fun h hr => h.rotated (ensureActiveSegmentCapacity_ok h.wellFormed hr))
    (fun h q => h.quiet q.toQuiet) (fun timestampMs h hactive => h.putBatch hactive timestampMs hkeys)
    (fun h q => h.quiet q.toQuiet)
    (fun h hr => h.rotated (rotateActiveSegmentIfNeeded_ok h.wellFormed hr)) h hw

/-! ## Deleting -/

section BuryOne

variable (m : SegmentManager) (k : DocKey) (nowMs : UInt64)

theorem tombstoneUpdates_location (s : Bytes) :
    (m.writeSystem (tombstoneUpdates k.collection k.docId nowMs)).systemDB[docLocationPrefix ++ s]? =
      if s = k.rest then none else m.systemDB[docLocationPrefix ++ s]? := by
  show ((m.systemDB.insert _ _).erase _)[docLocationPrefix ++ s]? = _
  rw [ByteMap.get_erase, ByteMap.get_insert]
  simp [tombstoneKey_eq, docLocationKey_eq, location_ne_tombstone]

theorem tombstoneUpdates_tombstone (s : Bytes) :
    (m.writeSystem (tombstoneUpdates k.collection k.docId nowMs)).systemDB[tombstonePrefix ++ s]? =
      if s = k.rest then some (decimal nowMs.toNat) else m.systemDB[tombstonePrefix ++ s]? := by
  show ((m.systemDB.insert _ _).erase _)[tombstonePrefix ++ s]? = _
  rw [ByteMap.get_erase, ByteMap.get_insert]
  simp [tombstoneKey_eq, docLocationKey_eq, (location_ne_tombstone _ _).symm]

theorem tombstoneUpdates_view : (m.writeSystem (tombstoneUpdates k.collection k.docId nowMs)).view =
      m.view.bury fun k' => k' = k := by
  unfold view RoutedStore.bury
  congr 1
  · funext k'
    rw [tombstoneUpdates_location]
    by_cases hk : k' = k <;> simp [hk]
  · funext k'
    rw [tombstoneUpdates_tombstone]
    by_cases hk : k' = k <;> simp [hk]

end BuryOne

variable {m : SegmentManager} {docs : ByteMap Bytes} {env : Env} {m' : SegmentManager} {k : DocKey}

section Settling

variable {pending : DocKey → Bool}

theorem Settling.bury (h : m.Settling pending docs) {k : DocKey} (hk : pending k = false)
    (nowMs : UInt64) :
    (m.writeSystem (tombstoneUpdates k.collection k.docId nowMs)).Settling pending
      (docs.erase k.toBytes) where
  wellFormed := h.wellFormed.same rfl rfl rfl
  locationKeys := by
    intro s v hs
    rw [tombstoneUpdates_location] at hs
    split at hs
    · cases hs
    · exact h.locationKeys hs
  docKeys := fun hmem => h.docKeys (Std.ExtTreeMap.mem_of_mem_erase hmem)
  represents := by
    intro active hactive
    have hmap : (fun k' : DocKey => (docs.erase k.toBytes)[k'.toBytes]?) =
        fun k' => if decide (k' = k) then none else docs[k'.toBytes]? := by
      funext k'
      rw [ByteMap.get_erase]
      simp
    rw [tombstoneUpdates_view, RoutedStore.settle_bury active (by simpa using hk), hmap]
    exact (h.represents active hactive).bury _

end Settling

theorem Represented.buryOne (h : m.Represented docs) (k : DocKey) (nowMs : UInt64) :
    (m.writeSystem (tombstoneUpdates k.collection k.docId nowMs)).Represented
      (docs.erase k.toBytes) :=
  (h.settled.bury rfl nowMs).represented fun _ => rfl

theorem buryOne_location (m : SegmentManager) (k : DocKey) (nowMs : UInt64) :
    (m.writeSystem (tombstoneUpdates k.collection k.docId nowMs)).view.location k = none := by
  rw [tombstoneUpdates_view]
  simp [RoutedStore.bury]

theorem eraseFrom_view (m : SegmentManager) (s : Bytes) (k : DocKey) :
    (m.setDatabase s ((m.database s).erase k.toBytes)).view = m.view.dropFrom s k := by
  unfold view RoutedStore.dropFrom
  congr 1
  funext s' k'
  rw [database_setDatabase]
  by_cases hs : s' = s <;> by_cases hk : k' = k <;> simp [hs, hk, ByteMap.get_erase]

theorem Settling.eraseFromActive {pending : DocKey → Bool} (h : m.Settling pending docs) (env : Env) {k : DocKey}
    (hk : pending k = false) (hloc : m.view.location k = none) :
    (m.eraseFromActive env k.toBytes).Settling pending docs := by
  have herase : ∀ s, (m.setDatabase s ((m.database s).erase k.toBytes)).Settling pending docs := by
    intro s
    refine ⟨h.wellFormed.same rfl rfl rfl, h.locationKeys, h.docKeys, fun active hactive => ?_⟩
    rw [eraseFrom_view]
    refine RoutedStore.Represents.dropFrom (h.represents active hactive) s ?_
    simp [RoutedStore.settle, hk, hloc]
  unfold SegmentManager.eraseFromActive attempt
  split
  · exact h
  split
  · exact (herase _).quiet (.of_eq rfl rfl rfl rfl rfl)
  · exact h.quiet (.of_eq rfl rfl rfl rfl rfl)

theorem eraseFromActive_frame (env : Env) (m : SegmentManager) (key : Bytes) :
    (m.eraseFromActive env key).currentSnapshot = m.currentSnapshot ∧
      (m.eraseFromActive env key).activeSegment = m.activeSegment ∧
      (m.eraseFromActive env key).systemDB = m.systemDB := by
  unfold eraseFromActive attempt
  split
  · exact ⟨rfl, rfl, rfl⟩
  · split <;> exact ⟨rfl, rfl, rfl⟩

theorem Represented.eraseFromActive (h : m.Represented docs) (env : Env)
    (hk : m.view.location k = none) : (m.eraseFromActive env k.toBytes).Represented docs :=
  (h.settled.eraseFromActive env rfl hk).represented fun _ => rfl

/-- What `DeleteDocument` does when it reports success. -/
theorem deleteDocument_ok {key : Bytes} (hd : (m.deleteDocument env key).1 = 1) :
    ∃ (k : DocKey) (nowMs : UInt64) (m₁ : SegmentManager), key = k.toBytes ∧
      Still (m.writeSystem (tombstoneUpdates k.collection k.docId nowMs)) m₁ ∧
      (m.deleteDocument env key).2 = m₁.eraseFromActive env k.toBytes := by
  revert hd
  unfold deleteDocument
  split
  · nofun
  rename_i c d hp
  obtain ⟨k, rfl, rfl, rfl⟩ := parseDocKey_eq_some hp
  dsimp only [readClock]
  split
  · nofun
  rename_i m₁ h₁
  refine fun _ => ⟨k, (readClock env m).1, m₁, rfl, ?_, rfl⟩
  rw [attempt_ok h₁]
  exact ⟨.of_eq rfl rfl rfl rfl rfl, rfl⟩

theorem deleteDocument_represented {key : Bytes} (h : m.Represented docs)
    (hd : (m.deleteDocument env key).1 = 1) :
    (m.deleteDocument env key).2.Represented (docs.erase key) := by
  obtain ⟨k, nowMs, m₁, rfl, q, hm⟩ := deleteDocument_ok hd
  rw [hm]
  refine ((h.buryOne k nowMs).quiet q.toQuiet).eraseFromActive env ?_
  rw [q.view_eq]
  exact buryOne_location m k nowMs

theorem tombstoneBatch_state (env : Env) : ∀ (docs : List (Bytes × Bytes)) (m : SegmentManager),
      (tombstoneBatch env docs m).2 = { m with calls := m.calls + docs.length }
  | [], _ => rfl
  | _ :: docs, m => by
    show (tombstoneBatch env docs (readClock env m).2).2 = _
    rw [tombstoneBatch_state env docs, readClock, List.length_cons, Nat.add_assoc, Nat.add_comm 1]

/-- A batch of tombstones hides its documents one after the other. -/
theorem Represented.buryAll (env : Env) :
    ∀ (keys : List DocKey) (m₀ : SegmentManager) {m : SegmentManager} {docs : ByteMap Bytes},
      m.Represented docs → (m.writeSystem (tombstoneBatch env
        (keys.map fun k => (k.collection, k.docId)) m₀).1).Represented
          (keys.foldl (fun docs k => docs.erase k.toBytes) docs)
  | [], _, _, _, h => h
  | k :: keys, m₀, _, _, h => by
    have ih := Represented.buryAll env keys (readClock env m₀).2 (h.buryOne k (readClock env m₀).1)
    refine ih.quiet (.of_eq ?_ rfl rfl rfl rfl)
    exact ByteMap.write_append ..

/-- The documents that a range deletion of a whole collection visits are those with a location
record below the collection's prefix. -/
theorem mem_documentsInRange_iff {collection c d : Bytes} :
    (c, d) ∈ m.documentsInRange (collectionStart collection) (collectionEnd collection) ↔
      ∃ k : DocKey, k.collection = c ∧ k.docId = d ∧
        startsWith k.toBytes (collectionStart collection) = true ∧
        (m.view.location k).isSome = true := by
  have hlocp : locationPrefixFromDocPrefix (collectionStart collection) =
      docLocationPrefix ++ (collection ++ [58]) := locationPrefixFromDocPrefix_append _
  unfold documentsInRange
  rw [hlocp]
  simp only [List.mem_filterMap, Prod.exists, mem_scanPrefix_location]
  constructor
  · rintro ⟨_, v, ⟨t, rfl, hget⟩, hkey⟩
    split at hkey
    · simp at hkey
    · obtain ⟨k, rfl, rfl, hk⟩ := parseDocKey_eq_some hkey
      have hrest : k.rest = collection ++ [58] ++ t := List.append_cancel_left hk.symm
      exact ⟨k, rfl, rfl, startsWith_toBytes_iff.mpr ⟨t, hrest⟩,
        location_isSome_iff.mpr ⟨v, hrest ▸ hget⟩⟩
  · rintro ⟨k, rfl, rfl, hpre, hloc⟩
    obtain ⟨t, hrest⟩ := startsWith_toBytes_iff.mp hpre
    obtain ⟨v, hv⟩ := location_isSome_iff.mp hloc
    refine ⟨docLocationPrefix ++ k.rest, v, ⟨t, by rw [hrest], hrest ▸ hv⟩, ?_⟩
    rw [docKeyFromLocationKey_append, if_neg]
    · exact parseDocKey_toBytes k
    · -- the key is not below the start, which is its prefix, nor at or above the end
      rw [hrest]
      unfold collectionStart collectionEnd
      rintro (hnil | hlt | hge)
      · simp [lit] at hnil
      · exact compare_prefix_ne_gt _ t (Std.OrientedCmp.gt_of_lt hlt)
      · refine hge ?_
        rw [compare_append_left, List.append_assoc, compare_append_left]
        exact compare_cons_of_lt (by decide) _ _

theorem getElem?_foldl_erase (keys : List DocKey) (docs : ByteMap Bytes) (key : Bytes) :
    (keys.foldl (fun docs k => docs.erase k.toBytes) docs)[key]? =
      if ∃ k ∈ keys, key = k.toBytes then none else docs[key]? := by
  induction keys generalizing docs with
  | nil => simp
  | cons k keys ih =>
    rw [List.foldl_cons, ih, ByteMap.get_erase]
    by_cases hk : key = k.toBytes <;> simp [hk]

theorem documentsInRange_keys (m : SegmentManager) (startKey endKey : Bytes) : ∃ keys : List DocKey,
      m.documentsInRange startKey endKey = keys.map fun k => (k.collection, k.docId) := by
  have hrange : m.documentsInRange startKey endKey ∈
      Set.range (List.map fun k : DocKey => (k.collection, k.docId)) := by
    rw [Set.range_list_map]
    rintro ⟨c, d⟩ hcd
    simp only [SegmentManager.documentsInRange, List.mem_filterMap] at hcd
    obtain ⟨kv, -, hkv⟩ := hcd
    split at hkv
    · cases hkv
    · obtain ⟨k, rfl, rfl, -⟩ := parseDocKey_eq_some hkv
      exact ⟨k, rfl⟩
  obtain ⟨keys, hkeys⟩ := hrange
  exact ⟨keys, hkeys.symm⟩

/-- What `DeleteDocumentRange` does: nothing, or all the tombstones. -/
theorem deleteDocumentRange_ok (env : Env) (m : SegmentManager) (startKey endKey : Bytes) :
    (m.deleteDocumentRange env startKey endKey).1 = 0 ∧
        Still m (m.deleteDocumentRange env startKey endKey).2 ∨
      Still (m.writeSystem (tombstoneBatch env (m.documentsInRange startKey endKey) m).1)
        (m.deleteDocumentRange env startKey endKey).2 := by
  have hcalls : ∀ n, Still m { m with calls := n } := fun n => ⟨.of_eq rfl rfl rfl rfl rfl, rfl⟩
  unfold deleteDocumentRange
  split
  · dsimp only
    rw [tombstoneBatch_state]
    split
    · exact .inl ⟨rfl, hcalls _⟩
    · unfold attempt
      cases env.ok (m.calls + (m.documentsInRange startKey endKey).length) with
      | true => exact .inr ⟨.of_eq rfl rfl rfl rfl rfl, rfl⟩
      | false => exact .inl ⟨rfl, hcalls _⟩
  · exact .inl ⟨rfl, hcalls m.calls⟩

/-- **The documents found in the range are the documents of the collection.** -/
theorem Represented.documentsInRange (h : m.Represented docs) (collection : Bytes) :
    ∃ keys : List DocKey,
      m.documentsInRange (collectionStart collection) (collectionEnd collection) =
        (keys.map fun k => (k.collection, k.docId)) ∧
      specStep docs (.deleteCollection collection) =
        keys.foldl (fun docs k => docs.erase k.toBytes) docs := by
  obtain ⟨keys, hkeys⟩ := documentsInRange_keys m (collectionStart collection) (collectionEnd collection)
  have hinj : Function.Injective fun k : DocKey => (k.collection, k.docId) :=
    fun k k' he => DocKey.ext (Prod.mk.inj he).1 (Prod.mk.inj he).2
  have hmem : ∀ k : DocKey, k ∈ keys ↔ startsWith k.toBytes (collectionStart collection) = true ∧
      (m.view.location k).isSome = true := by
    intro k
    rw [← List.mem_map_of_injective hinj, ← hkeys, mem_documentsInRange_iff]
    constructor
    · rintro ⟨k', h₁, h₂, hk'⟩
      rwa [← DocKey.ext h₁ h₂]
    · exact fun hk => ⟨k, rfl, rfl, hk⟩
  refine ⟨keys, hkeys, Std.ExtTreeMap.ext_getElem? fun key => ?_⟩
  rw [getElem?_foldl_erase]
  show (docs.filter fun key _ => !startsWith key (collectionStart collection))[key]? = _
  rw [Std.ExtTreeMap.getElem?_filter']
  cases hv : docs[key]? with
  | none => simp
  | some v =>
    have hdoc : key ∈ docs := Std.ExtTreeMap.mem_iff_isSome_getElem?.mpr (by rw [hv]; rfl)
    obtain ⟨k, rfl⟩ := h.docKeys hdoc
    have hloc := h.location_iff.mpr hdoc
    have hiff : (∃ k' ∈ keys, k.toBytes = k'.toBytes) ↔
        startsWith k.toBytes (collectionStart collection) = true := by
      constructor
      · rintro ⟨k', hk', he⟩
        rw [he]; exact ((hmem k').mp hk').1
      · exact fun hpre => ⟨k, (hmem k).mpr ⟨hpre, hloc⟩, rfl⟩
    by_cases hpre : startsWith k.toBytes (collectionStart collection) = true
    · rw [if_pos (hiff.mpr hpre)]; simp [Option.filter, hpre]
    · rw [if_neg (fun he => hpre (hiff.mp he))]; simp [Option.filter, hpre]

theorem deleteDocumentRange_represented {collection : Bytes} (h : m.Represented docs)
    (hd : (m.deleteDocumentRange env (collectionStart collection) (collectionEnd collection)).1 = 1
      ∨ m.documentsInRange (collectionStart collection) (collectionEnd collection) = []) :
    (m.deleteDocumentRange env (collectionStart collection) (collectionEnd collection)).2.Represented
      (specStep docs (.deleteCollection collection)) := by
  obtain ⟨keys, hkeys, hspec⟩ := h.documentsInRange collection
  rw [hspec]
  rcases deleteDocumentRange_ok env m (collectionStart collection) (collectionEnd collection) with
    ⟨hzero, q⟩ | q
  · -- nothing was deleted, and so nothing was there
    rw [hzero, hkeys] at hd
    obtain rfl : keys = [] := by simpa using hd
    exact h.quiet q.toQuiet
  · rw [hkeys] at q
    exact (Represented.buryAll env keys m h).quiet q.toQuiet

/-! ## Clearing -/

/-- No live document belongs to a collection whose name starts with `0xff`. -/
def NoHighCollection (docs : ByteMap Bytes) : Prop :=
  ∀ key ∈ docs, startsWith key (lit "doc:\xff") = false

/-- The bound of the range that `ClearAllDocuments` deletes separates the collections by their
first byte. -/
theorem compare_rest_high (k : DocKey) :
    compare k.rest (lit "\xff") = .lt ↔ startsWith k.toBytes (lit "doc:\xff") = false := by
  obtain ⟨b, c, hc⟩ := List.exists_cons_of_ne_nil k.collection_ne_nil
  have hrest : k.rest = b :: (c ++ 58 :: k.docId) := by rw [DocKey.rest, hc]; rfl
  have hsw : startsWith k.toBytes (lit "doc:\xff") = (255 == b) := by
    rw [DocKey.toBytes, hrest]
    simp [startsWith, lit, List.isPrefixOf]
  rw [hrest, hsw, show lit "\xff" = [255] from rfl]
  by_cases hb : b = 255
  · subst hb
    have : compare (255 :: (c ++ 58 :: k.docId)) [255] = compare (c ++ 58 :: k.docId) [] :=
      compare_append_left [255] _ []
    have hgt : compare (c ++ 58 :: k.docId) ([] : Bytes) = .gt := by
      cases c <;> exact List.compareLex_cons_nil
    simp [hgt]
  · have hlt : b < 255 := by grind
    rw [compare_cons_of_lt hlt]
    simp [Ne.symm hb]

variable (db : ByteMap Bytes)

/-- The range `[doc:, doc;)` holds every document of a segment. -/
theorem eraseRange_doc (k : DocKey) :
    (db.eraseRange (lit "doc:") (lit "doc;"))[k.toBytes]? = none := by
  rw [ByteMap.getElem?_eraseRange, if_neg]
  rintro (hlt | hge)
  · exact compare_prefix_ne_gt _ k.rest (Std.OrientedCmp.gt_of_lt hlt)
  refine hge ?_
  show compare (lit "doc" ++ 58 :: k.rest) (lit "doc" ++ [59]) = .lt
  rw [compare_append_left]
  exact compare_cons_of_lt (by decide) _ _

theorem getElem?_eraseRange_none {db : ByteMap Bytes} {lo hi k : Bytes} (h : db[k]? = none) :
    (db.eraseRange lo hi)[k]? = none := by
  rw [ByteMap.getElem?_eraseRange, h, ite_self]

/-- What the loop over the segments does: the documents of the segments it visits are gone, and
nothing comes back. -/
structure SegmentsCleared (segments : List Bytes) (m m' : SegmentManager) : Prop where
  systemDB : m'.systemDB = m.systemDB
  activeSegment : m'.activeSegment = m.activeSegment
  sealedSegments : m'.sealedSegments = m.sealedSegments
  currentSnapshot : m'.currentSnapshot = m.currentSnapshot
  visited : ∀ s ∈ segments, ∀ k : DocKey, (m'.database s)[k.toBytes]? = none
  kept : ∀ s (k : DocKey), (m.database s)[k.toBytes]? = none → (m'.database s)[k.toBytes]? = none

theorem persistSegmentMetadata_databases {s : Bytes}
    (h : persistSegmentMetadata env m s = (true, m')) :
    m'.systemDB = m.systemDB ∧ m'.databases = m.databases := by
  unfold persistSegmentMetadata saveAtomic at h
  split at h
  · cases h
  · rw [attempt_ok h]; exact ⟨rfl, rfl⟩

theorem clearSegments_ok : ∀ {segments : List Bytes} {m m' : SegmentManager},
      clearSegments env segments m = (true, m') → SegmentsCleared segments m m'
  | [], m, m', h => by
    cases h
    exact ⟨rfl, rfl, rfl, rfl, fun s hs => absurd hs (by simp), fun _ _ hk => hk⟩
  | segment :: segments, m, m', h => by
    obtain ⟨m₁, h₁, h⟩ := andThen_ok h
    obtain ⟨m₂, h₂, h⟩ := andThen_ok h
    have ih := clearSegments_ok h
    obtain ⟨hsys, hdbs⟩ := persistSegmentMetadata_databases h₂
    have hq := persistSegmentMetadata_ok h₂
    have hdb : ∀ s, m₂.database s =
        if s = segment then (m.database segment).eraseRange (lit "doc:") (lit "doc;")
        else m.database s := by
      intro s
      refine (hq.database s).trans ?_
      rw [attempt_ok h₁]
      exact database_setDatabase ..
    have hnone : ∀ s (k : DocKey), s = segment ∨ (m.database s)[k.toBytes]? = none →
        (m₂.database s)[k.toBytes]? = none := by
      intro s k hsk
      rw [hdb]
      split
      · exact eraseRange_doc _ k
      · rename_i hne
        exact hsk.resolve_left hne
    rw [attempt_ok h₁] at hsys hq
    refine ⟨ih.systemDB.trans hsys, ih.activeSegment.trans hq.activeSegment,
      ih.sealedSegments.trans hq.sealedSegments, ih.currentSnapshot.trans hq.currentSnapshot,
      ?_, fun s k hk => ih.kept s k (hnone s k (.inr hk))⟩
    intro s hs k
    rcases List.mem_cons.mp hs with rfl | hs
    · exact ih.kept s k (hnone s k (.inl rfl))
    · exact ih.visited s hs k

/-- The range of `ClearAllDocuments` takes the location records of the documents below `0xff`. -/
theorem getElem?_eraseRange_location (s : Bytes) :
    (db.eraseRange docLocationPrefix (docLocationPrefix ++ lit "\xff"))[docLocationPrefix ++ s]? =
      if compare s (lit "\xff") = .lt then none else db[docLocationPrefix ++ s]? := by
  have hge : compare (docLocationPrefix ++ s) docLocationPrefix ≠ .lt := fun hlt =>
    compare_prefix_ne_gt _ s (Std.OrientedCmp.gt_of_lt hlt)
  rw [ByteMap.getElem?_eraseRange, compare_append_left]
  by_cases hs : compare s (lit "\xff") = .lt <;> simp [hge, hs]

theorem clearUpdates_location (generation : UInt64) (s : Bytes) :
    (db.write (clearUpdates generation))[docLocationPrefix ++ s]? =
      if compare s (lit "\xff") = .lt then none else db[docLocationPrefix ++ s]? := by
  show (((db.eraseRange _ _).eraseRange _ _).insert _ _)[docLocationPrefix ++ s]? = _
  have hlow : compare (docLocationPrefix ++ s) tombstonePrefix = .lt := by
    show compare (lit "__hlq_" ++ 100 :: (lit "ocloc:" ++ s)) (lit "__hlq_" ++ 116 :: lit "ombstone:")
      = .lt
    rw [compare_append_left]
    exact compare_cons_of_lt (by decide) _ _
  rw [ByteMap.get_insert, if_neg (location_ne_generation s), ByteMap.getElem?_eraseRange,
    if_pos (.inl hlow), getElem?_eraseRange_location]

theorem clearUpdates_tombstone_none {db : ByteMap Bytes} {s : Bytes}
    (h : db[tombstonePrefix ++ s]? = none) (generation : UInt64) :
    (db.write (clearUpdates generation))[tombstonePrefix ++ s]? = none := by
  show (((db.eraseRange _ _).eraseRange _ _).insert _ _)[tombstonePrefix ++ s]? = none
  rw [ByteMap.get_insert, if_neg (tombstone_ne_generation s)]
  exact getElem?_eraseRange_none (getElem?_eraseRange_none h)

/-- The state after `ClearAllDocuments`. -/
structure Cleared (m m' : SegmentManager) : Prop where
  wellFormed : m'.WellFormed
  location : ∀ s, m'.systemDB[docLocationPrefix ++ s]? =
    if compare s (lit "\xff") = .lt then none else m.systemDB[docLocationPrefix ++ s]?
  tombstone : ∀ s, m.systemDB[tombstonePrefix ++ s]? = none →
    m'.systemDB[tombstonePrefix ++ s]? = none
  segment : ∀ s (k : DocKey), (m'.database s)[k.toBytes]? = none

/-- What `ClearAllDocuments` does, whatever the store was like: the location records up to the bound
are gone, no tombstone has come, and the live segments hold no document. -/
structure Emptied (m m' : SegmentManager) : Prop where
  activeSegment : m'.activeSegment = m.activeSegment
  sealedSegments : m'.sealedSegments = m.sealedSegments
  currentSnapshot : m'.currentSnapshot = m.currentSnapshot
  location : ∀ s, m'.systemDB[docLocationPrefix ++ s]? =
    if compare s (lit "\xff") = .lt then none else m.systemDB[docLocationPrefix ++ s]?
  tombstone : ∀ s, m.systemDB[tombstonePrefix ++ s]? = none →
    m'.systemDB[tombstonePrefix ++ s]? = none
  segment : ∀ s (k : DocKey), s ∈ m.live ∨ (m.database s)[k.toBytes]? = none →
    (m'.database s)[k.toBytes]? = none

theorem clearAllDocuments_emptied (hc : clearAllDocuments env m = (true, m')) : Emptied m m' := by
  unfold clearAllDocuments at hc
  split at hc
  · cases hc
  rename_i snapshot hsnap
  obtain ⟨m₁, h₁, hc⟩ := andThen_ok hc
  have hseg := clearSegments_ok h₁
  have hlive : m.live = snapshot.liveNewestFirst := by unfold live; rw [hsnap]
  have hm' := attempt_ok hc
  have hsys : m'.systemDB = m.systemDB.write (clearUpdates snapshot.generation) := by
    rw [hm', ← hseg.systemDB]; rfl
  have hdb : ∀ s, m'.database s = m₁.database s := by
    intro s
    rw [hm']
    rfl
  refine ⟨?_, ?_, ?_, ?_, ?_, ?_⟩
  · rw [hm']; exact hseg.activeSegment
  · rw [hm']; exact hseg.sealedSegments
  · rw [hm']; exact hseg.currentSnapshot
  · intro s; rw [hsys]; exact clearUpdates_location ..
  · intro s hs; rw [hsys]; exact clearUpdates_tombstone_none hs _
  intro s k hs
  rw [hdb]
  rcases hs with hs | hs
  · exact hseg.visited s (hlive ▸ hs) k
  · exact hseg.kept s k hs

theorem Emptied.live_eq (h : Emptied m m') : m'.live = m.live := live_congr h.currentSnapshot

theorem Emptied.wellFormed (h : Emptied m m') (hw : m.WellFormed) : m'.WellFormed :=
  hw.same h.activeSegment h.sealedSegments h.currentSnapshot

theorem clearAllDocuments_ok (h : m.Represented docs) (hc : clearAllDocuments env m = (true, m')) :
    Cleared m m' := by
  have he := clearAllDocuments_emptied hc
  refine ⟨he.wellFormed h.wellFormed, he.location, he.tombstone, fun s k => he.segment s k ?_⟩
  by_cases hs : s ∈ m.live
  · exact .inl hs
  · exact .inr (h.represents.unused hs k)

/-- The location record of a live document of an ordinary collection is deleted. -/
theorem Cleared.location_none (hc : Cleared m m') (h : m.Represented docs)
    (hlow : NoHighCollection docs) (s : Bytes) : m'.systemDB[docLocationPrefix ++ s]? = none := by
  rw [hc.location]
  split
  · rfl
  rename_i hs
  cases hl : m.systemDB[docLocationPrefix ++ s]? with
  | none => rfl
  | some v =>
    obtain ⟨k, rfl⟩ := h.locationKeys hl
    have hmem : k.toBytes ∈ docs := h.location_iff.mp (location_isSome_iff.mpr ⟨v, hl⟩)
    exact absurd ((compare_rest_high k).mpr (hlow _ hmem)) hs

theorem clearAllDocuments_represented (h : m.Represented docs) (hlow : NoHighCollection docs)
    (hc : clearAllDocuments env m = (true, m')) : m'.Represented ∅ := by
  have hcl := clearAllDocuments_ok h hc
  have hnone := hcl.location_none h hlow
  refine ⟨hcl.wellFormed, fun {s _} hs => absurd (hnone s) (by rw [hs]; simp), nofun, ?_⟩
  have hrep : m'.view.Represents fun _ => none :=
    RoutedStore.represents_empty (fun k => by simp [view, hnone]) hcl.segment
  simpa using hrep

/-- **A document of a collection above the bound is still listed after everything was
cleared.** -/
theorem prefixKeys_after_clear (h : m.Represented docs)
    (hc : clearAllDocuments env m = (true, m')) (hk : k.toBytes ∈ docs)
    (hhigh : startsWith k.toBytes (lit "doc:\xff") = true) :
    k.toBytes ∈ m'.prefixKeys (collectionStart k.collection) 0 0 := by
  have hcl := clearAllDocuments_ok h hc
  have hloc := h.location_iff.mpr hk
  have hge : compare k.rest (lit "\xff") ≠ .lt := fun hlt => by
    rw [(compare_rest_high k).mp hlt] at hhigh; cases hhigh
  refine mem_prefixKeys_iff.mpr ⟨?_, k, rfl, ?_, ?_⟩
  · refine startsWith_iff.mpr ⟨k.docId, ?_⟩
    simp [DocKey.toBytes, DocKey.rest]
  · show ((m'.systemDB[docLocationPrefix ++ k.rest]?).map segmentIdOfRecord).isSome = true
    rw [hcl.location, if_neg hge]
    exact hloc
  · show (m'.systemDB[tombstonePrefix ++ k.rest]?).isSome = false
    rw [hcl.tombstone _ (h.tombstone_none hloc)]; rfl

theorem noHighCollection_of_agrees (h : m.Represented docs)
    (hc : clearAllDocuments env m = (true, m')) (ha : Agrees env m' ∅) : NoHighCollection docs := by
  intro key hmem
  by_contra hhigh
  obtain ⟨k, rfl⟩ := h.docKeys hmem
  have hlisted := prefixKeys_after_clear h hc hmem (by simpa using hhigh)
  rw [ha.prefixKeys] at hlisted
  exact absurd (ByteMap.mem_prefixKeys.mp hlisted).1 (by simp)

end Hlquery.Store.SegmentManager
