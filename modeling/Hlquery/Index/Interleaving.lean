import Hlquery.Index.Flushes

/-!
# Flushes among other calls

`FlushToDisk` holds the lock of the index for two short moments of each collection: when it copies
the postings, and when it installs the snapshot that it has written from them. In between it sets a
mark, writes the files and opens them, and other threads go on with the index. A `Turn` is what one
thread does without letting go of the lock: a whole call, the copying at the beginning of a flush,
or the next step for one of the collections that are being flushed. Several flushes may be under way,
as the background thread, a shutdown and a rebuild all start one.

While the files of a collection are being written its directory may hold anything (`writing`).

When the snapshot is installed the collection loses its dirty mark, unless the clock says that it
has changed since the copy was made. **A collection without a dirty mark is on disk as it is in
memory, if each change reads a later clock than the copy under way and no two flushes have the
collection in hand** (`clean_collection_stored`).
-/

set_option autoImplicit false

namespace Hlquery.Index

open Bytes

/-! ## Calls under the lock -/

inductive LockedCall (S : Type) where
  | addDocument (env : Surroundings S) (name : Bytes) (doc : Document)
  | updateDocument (env : Surroundings S) (name : Bytes) (oldDoc newDoc : Document)
  | deleteDocument (env : Surroundings S) (name docId : Bytes)
  | deleteCollection (name : Bytes) (deletesMark : Bool)
  | clear
  | search (name : Bytes) (now : Nat)
  | evict (estimateMemory : Bytes → CollectionIndex S → Nat) (maxBytes : Nat)

namespace LockedCall

variable {S : Type}

def changes : LockedCall S → Option (Bytes × Nat)
  | .addDocument env name _ | .updateDocument env name _ _ | .deleteDocument env name _ =>
      some (name, env.mutationTime)
  | _ => none

def enters : LockedCall S → Option Bytes
  | .addDocument _ name _ | .updateDocument _ name _ _ => some name
  | _ => none

end LockedCall

namespace IndexStore

variable {S : Type} (ranking : Ranking S)

def apply (store : IndexStore S) : LockedCall S → IndexStore S
  | .addDocument env name doc =>
      { store with index := (store.index.addDocument ranking env name doc).1 }
  | .updateDocument env name oldDoc newDoc =>
      { store with index := store.index.updateDocument ranking env name oldDoc newDoc }
  | .deleteDocument env name docId =>
      { store with index := store.index.deleteDocument env name docId }
  | .deleteCollection name deletesMark =>
      { store with
        index := store.index.deleteCollection name
        pending := if deletesMark then store.pending.erase name else store.pending }
  | .clear => { store with index := store.index.clear }
  | .search name now => { store with index := store.index.modify name (.touch name now) }
  | .evict estimateMemory maxBytes =>
      { store with index := store.index.evictLoadedCollections estimateMemory maxBytes }

theorem apply_directories (store : IndexStore S) (call : LockedCall S) :
    (store.apply ranking call).directories = store.directories := by
  cases call with
  | addDocument env name doc => rfl
  | updateDocument env name oldDoc newDoc => rfl
  | deleteDocument env name docId => rfl
  | deleteCollection name deletesMark => rfl
  | clear => rfl
  | search name now => rfl
  | evict estimateMemory maxBytes => rfl

end IndexStore

/-! ## Flushes in steps -/

inductive FlushPhase where
  | copied
  | marked
  | written
  | opened (snapshot : Option MMapIndex)
  | installed
deriving DecidableEq, Repr

structure InFlight (S : Type) where
  item : FlushWorkItem S
  phase : FlushPhase

namespace InFlight

variable {S : Type}

def name (entry : InFlight S) : Bytes := entry.item.collection

def start (item : FlushWorkItem S) : InFlight S := ⟨item, .copied⟩

end InFlight

structure Flushing (S : Type) where
  store : IndexStore S
  inFlight : List (InFlight S)

inductive Turn (S : Type) where
  | call (call : LockedCall S)
  | beginFlush (env : FlushSurroundings S) (minDirtyAgeSeconds maxCollections : Nat)
  | advance (i : Nat) (env : FlushSurroundings S)
  | writing (i : Nat) (directory : Directory)

namespace Flushing

variable {S : Type} (single : SinglePrecision S) (order : PostingSort S) (ranking : Ranking S)

/-- The next step for one collection, and where the flush stands then. A collection whose files
could not be written is given up. -/
def advance (env : FlushSurroundings S) (store : IndexStore S) (entry : InFlight S) :
    IndexStore S × Option (InFlight S) :=
  match entry.phase with
  | .copied =>
      ({ store with pending :=
          if env.setsMark entry.name then store.pending.insert entry.name else store.pending },
        some { entry with phase := .marked })
  | .marked =>
      let written := store.writeItem single order env entry.item
      ({ store with directories := store.directories.insert entry.name written.1 },
        if written.2 then some { entry with phase := .written } else none)
  | .written =>
      (store, some { entry with phase := .opened (loadIndex (store.directory entry.name)) })
  | .opened snapshot =>
      let index := store.index.finishFlush entry.name snapshot entry.item.mutationTime
        (env.flushTime entry.name)
      ({ store with index }, some { entry with phase := .installed })
  | .installed =>
      ({ store with pending :=
          if env.deletesMark entry.name then store.pending.erase entry.name else store.pending },
        none)

def replaceAt (entries : List (InFlight S)) (i : Nat) : Option (InFlight S) → List (InFlight S)
  | some entry => entries.set i entry
  | none => entries.eraseIdx i

def turn (t : Flushing S) : Turn S → Flushing S
  | .call call => { t with store := t.store.apply ranking call }
  | .beginFlush env minDirtyAgeSeconds maxCollections =>
      { t with inFlight := t.inFlight ++
          (t.store.index.flushWorkItems env minDirtyAgeSeconds maxCollections).map .start }
  | .advance i env =>
      match t.inFlight[i]? with
      | none => t
      | some entry =>
          let (store, next) := advance single order env t.store entry
          ⟨store, replaceAt t.inFlight i next⟩
  | .writing i directory =>
      match t.inFlight[i]? with
      | some ⟨item, .marked⟩ =>
          { t with store := { t.store with
              directories := t.store.directories.insert item.collection directory } }
      | _ => t

def run (t : Flushing S) (turns : List (Turn S)) : Flushing S :=
  turns.foldl (turn single order ranking) t

def AllMeet (condition : Flushing S → Turn S → Prop) : Flushing S → List (Turn S) → Prop
  | _, [] => True
  | t, turn :: turns =>
      condition t turn ∧ AllMeet condition (t.turn single order ranking turn) turns

variable {single order ranking}

/-- **What every turn keeps that meets a condition, a run of such turns keeps.** -/
theorem run_keeps {condition : Flushing S → Turn S → Prop} {P : Flushing S → Prop}
    (hturn : ∀ t turn, P t → condition t turn → P (t.turn single order ranking turn)) :
    ∀ (turns : List (Turn S)) (t : Flushing S), P t →
      AllMeet single order ranking condition t turns → P (t.run single order ranking turns) := by
  intro turns
  induction turns with
  | nil => intro t h _; exact h
  | cons turn turns ih => intro t h hmeet; exact ih _ (hturn t turn h hmeet.1) hmeet.2

end Flushing

/-! ## Dirty marks -/

section Marks

variable {S : Type}

/-- What a call can do to the postings of a collection and to the marks of a change. -/
inductive Marks (call : LockedCall S) (name : Bytes) (c c' : CollectionIndex S) : Prop where
  | kept (hindex : c'.index = c.index) (hdirty : c'.dirty = c.dirty)
      (hmutation : c'.lastMutation = c.lastMutation)
  | changed (time : Nat) (hcall : call.changes = some (name, time)) (hdirty : c'.dirty = true)
      (hmutation : c'.lastMutation = some time)
  | gone (hindex : c'.index = none)

variable {call : LockedCall S}

theorem Marks.evict {name : Bytes} {c : CollectionIndex S}
    {ix : InvertedIndex S} (h : Marks call name c (ix.collection name))
    (estimateMemory : Bytes → CollectionIndex S → Nat) (targetBytes : Nat) :
    Marks call name c ((ix.evictLoadedCollections estimateMemory targetBytes).collection name) := by
  rcases ix.evict_collection estimateMemory targetBytes name with he | he
  · rw [he]
    exact h
  · rw [he]
    exact .gone rfl

theorem Marks.touch (ix : InvertedIndex S) (name name' : Bytes) (now : Nat) :
    Marks call name (ix.collection name)
      ((ix.modify name' (.touch name' now)).collection name) := by
  rw [InvertedIndex.collection_modify]
  split
  · rename_i hname
    subst hname
    unfold CollectionIndex.touch
    split
    · exact .kept rfl rfl rfl
    · exact .kept rfl rfl rfl
  · exact .kept rfl rfl rfl

theorem Marks.markDirty {name' : Bytes} {time : Nat}
    (hcall : call.changes = some (name', time)) (ix : InvertedIndex S) (name : Bytes) (now : Nat)
    (change : CollectionIndex S → CollectionIndex S) :
    Marks call name (ix.collection name)
      (((ix.modify name' (.touch name' now)).modify name' fun c =>
        (change c).markDirty time).collection name) := by
  rw [InvertedIndex.collection_modify]
  by_cases hname : name = name'
  · rw [if_pos hname]
    exact .changed time (hname ▸ hcall) rfl rfl
  · rw [if_neg hname]
    exact .touch ix name name' now

/-- **Every call does one of three things to a collection.** -/
theorem apply_marks (ranking : Ranking S) (store : IndexStore S) (call : LockedCall S)
    (name : Bytes) : Marks call name (store.index.collection name)
      ((store.apply ranking call).index.collection name) := by
  cases call with
  | addDocument env name' doc =>
    rcases InvertedIndex.addDocument_cases ranking env name' doc store.index with he | he | he
    · simp only [IndexStore.apply, he]
      exact .touch _ _ _ _
    · simp only [IndexStore.apply, he]
      exact .markDirty rfl _ _ _ _
    · simp only [IndexStore.apply, he]
      exact (Marks.markDirty rfl _ _ _ _).evict _ _
  | updateDocument env name' oldDoc newDoc => exact (Marks.markDirty rfl _ _ _ _).evict _ _
  | deleteDocument env name' docId => exact (Marks.markDirty rfl _ _ _ _).evict _ _
  | deleteCollection name' deletesMark =>
    show Marks _ name _ (((store.index.erase name')[name]?).getD CollectionIndex.empty)
    rw [ByteMap.get_erase]
    split
    · exact .gone rfl
    · exact .kept rfl rfl rfl
  | clear => exact .gone rfl
  | search name' now => exact .touch _ _ _ _
  | evict estimateMemory maxBytes =>
    have h : Marks (.evict estimateMemory maxBytes) name (store.index.collection name)
        (store.index.collection name) := .kept rfl rfl rfl
    exact h.evict _ _

theorem InvertedIndex.dirty_of_mem_flushWorkItems {env : FlushSurroundings S}
    {minAge maxCollections : Nat} {ix : InvertedIndex S} {item : FlushWorkItem S}
    (h : item ∈ ix.flushWorkItems env minAge maxCollections) :
    (ix.collection item.collection).dirty = true := by
  have hflush := (flushable_of_mem_flushWorkItems h).1
  unfold CollectionIndex.isFlushable at hflush
  rw [Bool.and_eq_true, Bool.and_eq_true] at hflush
  exact hflush.1.1

end Marks

namespace Flushing

variable {S : Type} (single : SinglePrecision S) (order : PostingSort S) (ranking : Ranking S)

/-- **The condition.** A change to a collection that a flush has in hand reads a later clock than
the last change before the copy, and no flush begins with a collection that another one has in
hand. -/
def KeepsApart (t : Flushing S) : Turn S → Prop
  | .call call => ∀ name time, call.changes = some (name, time) →
      ∀ entry ∈ t.inFlight, entry.name = name → entry.item.mutationTime < time
  | .beginFlush env minAge maxCollections =>
      ∀ item ∈ t.store.index.flushWorkItems env minAge maxCollections,
        ∀ entry ∈ t.inFlight, entry.name ≠ item.collection
  | _ => True

def Stored (store : IndexStore S) (name : Bytes) (terms : ByteMap (List (Posting S))) : Prop :=
  ∃ directory, store.directories[name]? = some directory ∧ IsWritten single order terms directory

/-- What has been copied is what is in memory, or the collection will stay dirty. -/
def Current (item : FlushWorkItem S) (c : CollectionIndex S) : Prop :=
  c.index = none ∨ (c.dirty = true ∧ (c.index = some item.indexSnapshot ∨
    ∃ time, c.lastMutation = some time ∧ item.mutationTime < time))

def Sound (store : IndexStore S) (entry : InFlight S) : Prop :=
  match entry.phase with
  | .copied | .marked => Current entry.item (store.index.collection entry.name)
  | .written | .opened _ => Current entry.item (store.index.collection entry.name) ∧
      Stored single order store entry.name entry.item.indexSnapshot
  | .installed => True

structure Inv (t : Flushing S) : Prop where
  clean : ∀ name terms, (t.store.index.collection name).index = some terms →
    (t.store.index.collection name).dirty = false → Stored single order t.store name terms
  sound : ∀ entry ∈ t.inFlight, Sound single order t.store entry
  apart : (t.inFlight.map InFlight.name).Nodup

variable {single order ranking}

variable {entry : InFlight S} {store : IndexStore S} {t : Flushing S} {env : FlushSurroundings S}
  {item : FlushWorkItem S} {next : Option (InFlight S)}

theorem Sound.congr {store' : IndexStore S} (h : Sound single order store entry)
    (hcollection : store'.index.collection entry.name = store.index.collection entry.name)
    (hdirectory : store'.directories[entry.name]? = store.directories[entry.name]?) :
    Sound single order store' entry := by
  unfold Sound Stored at *
  rw [hcollection, hdirectory]
  exact h

theorem Current.marks {c c' : CollectionIndex S} (h : Current item c)
    {call : LockedCall S} (hmarks : Marks call item.collection c c')
    (hlater : ∀ time, call.changes = some (item.collection, time) → item.mutationTime < time) :
    Current item c' := by
  cases hmarks with
  | kept hindex hdirty hmutation =>
    unfold Current
    rw [hindex, hdirty, hmutation]
    exact h
  | changed time hcall hdirty hmutation =>
    exact .inr ⟨hdirty, .inr ⟨time, hmutation, hlater time hcall⟩⟩
  | gone hindex => exact .inl hindex

theorem Sound.call (h : Sound single order store entry) {call : LockedCall S}
    (hlater : ∀ time, call.changes = some (entry.name, time) → entry.item.mutationTime < time) :
    Sound single order (store.apply ranking call) entry := by
  have hmarks := apply_marks ranking store call entry.name
  unfold Sound Stored at *
  rw [IndexStore.apply_directories]
  cases hphase : entry.phase with
  | copied =>
    rw [hphase] at h
    exact Current.marks h hmarks hlater
  | marked =>
    rw [hphase] at h
    exact Current.marks h hmarks hlater
  | written =>
    rw [hphase] at h
    exact ⟨h.1.marks hmarks hlater, h.2⟩
  | opened snapshot =>
    rw [hphase] at h
    exact ⟨h.1.marks hmarks hlater, h.2⟩
  | installed => exact trivial

theorem Inv.call (h : t.Inv single order) {call : LockedCall S}
    (hcall : t.KeepsApart (.call call)) :
    (t.turn single order ranking (.call call)).Inv single order := by
  refine ⟨?_, ?_, h.apart⟩
  · intro name terms hindex hdirty
    show Stored single order (t.store.apply ranking call) name terms
    unfold Stored
    rw [IndexStore.apply_directories]
    cases apply_marks ranking t.store call name with
    | kept hi hd hm => exact h.clean name terms (hi.symm.trans hindex) (hd.symm.trans hdirty)
    | changed time _ hd _ => exact absurd (hd.symm.trans hdirty) (by simp)
    | gone hi => exact absurd (hi.symm.trans hindex) (by simp)
  · intro entry hmem
    exact (h.sound entry hmem).call fun time hchanges => hcall _ time hchanges entry hmem rfl

theorem Inv.beginFlush (h : t.Inv single order) {minAge maxCollections : Nat}
    (happart : t.KeepsApart (.beginFlush env minAge maxCollections)) :
    (t.turn single order ranking (.beginFlush env minAge maxCollections)).Inv single order := by
  refine ⟨h.clean, ?_, ?_⟩
  · intro entry hmem
    rcases List.mem_append.mp hmem with hmem | hmem
    · exact h.sound entry hmem
    · obtain ⟨item, hitem, rfl⟩ := List.mem_map.mp hmem
      exact .inr ⟨InvertedIndex.dirty_of_mem_flushWorkItems hitem,
        .inl (InvertedIndex.mem_flushWorkItems hitem).2⟩
  · show ((t.inFlight ++ _).map InFlight.name).Nodup
    rw [List.map_append, List.map_map]
    refine h.apart.append (InvertedIndex.nodup_flushWorkItems env minAge maxCollections _) ?_
    intro name hold hnew
    obtain ⟨entry, hentry, rfl⟩ := List.mem_map.mp hold
    obtain ⟨item, hitem, he⟩ := List.mem_map.mp hnew
    exact happart item hitem entry hentry he.symm

/-- The others keep their names and their places. -/
theorem mem_replaceAt {entries : List (InFlight S)} {i : Nat} {entry' : InFlight S}
    (hget : entries[i]? = some entry) (happart : (entries.map InFlight.name).Nodup)
    (hmem : entry' ∈ replaceAt entries i next) :
    next = some entry' ∨ (entry' ∈ entries ∧ entry'.name ≠ entry.name) := by
  obtain ⟨hi, rfl⟩ := List.getElem?_eq_some_iff.mp hget
  have hsplit : entries = entries.take i ++ entries[i] :: entries.drop (i + 1) := by
    rw [List.getElem_cons_drop, List.take_append_drop]
  have hrest : ∀ e ∈ entries.take i ++ entries.drop (i + 1),
      e ∈ entries ∧ e.name ≠ entries[i].name := by
    intro e he
    rw [hsplit, List.map_append, List.map_cons, List.nodup_middle, List.nodup_cons,
      ← List.map_append] at happart
    refine ⟨?_, fun hname => happart.1 (hname ▸ List.mem_map_of_mem he)⟩
    rcases List.mem_append.mp he with he | he
    · exact List.mem_of_mem_take he
    · exact List.mem_of_mem_drop he
  cases next with
  | none =>
    change entry' ∈ entries.eraseIdx i at hmem
    rw [List.eraseIdx_eq_take_drop_succ] at hmem
    exact .inr (hrest entry' hmem)
  | some new =>
    change entry' ∈ entries.set i new at hmem
    rw [List.set_eq_take_append_cons_drop, if_pos hi, List.mem_append, List.mem_cons] at hmem
    rcases hmem with hmem | rfl | hmem
    · exact .inr (hrest entry' (List.mem_append_left _ hmem))
    · exact .inl rfl
    · exact .inr (hrest entry' (List.mem_append_right _ hmem))

theorem nodup_replaceAt {entries : List (InFlight S)} {i : Nat} (hget : entries[i]? = some entry)
    (happart : (entries.map InFlight.name).Nodup)
    (hnext : ∀ entry' ∈ next, entry'.name = entry.name) :
    ((replaceAt entries i next).map InFlight.name).Nodup := by
  cases next with
  | none => exact happart.sublist ((List.eraseIdx_sublist entries i).map _)
  | some new =>
    have hname : (entries.map InFlight.name)[i]? = some new.name := by
      rw [List.getElem?_map, hget, hnext new rfl]
      rfl
    obtain ⟨hi, he⟩ := List.getElem?_eq_some_iff.mp hname
    show ((entries.set i new).map InFlight.name).Nodup
    rw [List.map_set, ← he, List.set_getElem_self]
    exact happart

theorem Current.not_clean {c : CollectionIndex S} (h : Current item c)
    {terms : ByteMap (List (Posting S))} (hindex : c.index = some terms) : c.dirty = true := by
  rcases h with hnone | ⟨hdirty, -⟩
  · exact absurd (hnone.symm.trans hindex) (by simp)
  · exact hdirty

theorem advance_other {after : IndexStore S}
    (h : advance single order env store entry = (after, next)) {name : Bytes}
    (hname : name ≠ entry.name) :
    after.index.collection name = store.index.collection name ∧
      after.directories[name]? = store.directories[name]? := by
  obtain rfl := congrArg Prod.fst h
  unfold advance
  cases entry.phase with
  | copied => exact ⟨rfl, rfl⟩
  | marked => exact ⟨rfl, by rw [ByteMap.get_insert, if_neg hname]⟩
  | written => exact ⟨rfl, rfl⟩
  | opened snapshot =>
    refine ⟨?_, rfl⟩
    unfold InvertedIndex.finishFlush
    rw [InvertedIndex.collection_modify, if_neg hname]
  | installed => exact ⟨rfl, rfl⟩

theorem advance_name {entry' : InFlight S}
    (h : (advance single order env store entry).2 = some entry') : entry'.name = entry.name := by
  unfold advance at h
  cases hphase : entry.phase with
  | copied => rw [hphase] at h; exact Option.some.inj h ▸ rfl
  | marked =>
    rw [hphase] at h
    dsimp only at h
    split at h
    · exact Option.some.inj h ▸ rfl
    · cases h
  | written => rw [hphase] at h; exact Option.some.inj h ▸ rfl
  | opened snapshot => rw [hphase] at h; exact Option.some.inj h ▸ rfl
  | installed => rw [hphase] at h; cases h

theorem Sound.advance (h : Sound single order store entry) (env : FlushSurroundings S)
    (hclean : ∀ terms, (store.index.collection entry.name).index = some terms →
      (store.index.collection entry.name).dirty = false →
      Stored single order store entry.name terms) :
    (∀ entry', (advance single order env store entry).2 = some entry' →
        Sound single order (advance single order env store entry).1 entry') ∧
      ∀ terms, ((advance single order env store entry).1.index.collection entry.name).index =
          some terms →
        ((advance single order env store entry).1.index.collection entry.name).dirty = false →
        Stored single order (advance single order env store entry).1 entry.name terms := by
  obtain ⟨item, phase⟩ := entry
  cases phase with
  | copied =>
    refine ⟨fun entry' he => ?_, hclean⟩
    cases he
    exact h
  | marked =>
    refine ⟨fun entry' he => ?_, fun terms hindex hdirty => ?_⟩
    · have he : (if (store.writeItem single order env item).2 then
          some (⟨item, .written⟩ : InFlight S) else none) = some entry' := he
      split at he
      · rename_i hok
        cases he
        refine ⟨h, _, ?_, isWritten_writeItem hok⟩
        exact (ByteMap.get_insert _ _ _ _).trans (if_pos rfl)
      · cases he
    · exact absurd (hdirty.symm.trans (Current.not_clean h hindex)) (by simp)
  | written =>
    refine ⟨fun entry' he => ?_, hclean⟩
    cases he
    exact h
  | opened snapshot =>
    refine ⟨fun entry' he => ?_, fun terms hindex hdirty => ?_⟩
    · cases he
      exact trivial
    · obtain ⟨hcurrent, hstored⟩ := h
      have hc : (Flushing.advance single order env store
          ⟨item, .opened snapshot⟩).1.index.collection item.collection = { store.index.collection item.collection with
            mmapIndex := snapshot.or (store.index.collection item.collection).mmapIndex
            dirty := (store.index.collection item.collection).dirty &&
              (store.index.collection item.collection).lastMutation.any
                fun mutation => item.mutationTime < mutation
            lastFlush := some (env.flushTime item.collection) } := by
        show (InvertedIndex.finishFlush item.collection _ _ _ _).collection item.collection = _
        unfold InvertedIndex.finishFlush
        rw [InvertedIndex.collection_modify, if_pos rfl]
        rfl
      change (InvertedIndex.collection _ item.collection).index = some terms at hindex
      change (InvertedIndex.collection _ item.collection).dirty = false at hdirty
      rw [hc] at hindex hdirty
      -- the mark only goes if nothing has happened since the copy was made
      rcases hcurrent with hnone | ⟨hmarked, hsame | ⟨time, hmutation, hlater⟩⟩
      · exact absurd (hnone.symm.trans hindex) (by simp)
      · obtain rfl := Option.some.inj (hsame.symm.trans hindex)
        exact hstored
      · change (store.index.collection item.collection).dirty = true at hmarked
        change (store.index.collection item.collection).lastMutation = some time at hmutation
        rw [hmarked, hmutation] at hdirty
        simp [hlater] at hdirty
  | installed => exact ⟨fun entry' he => absurd he (by simp [Flushing.advance]), hclean⟩

theorem Inv.advance (h : t.Inv single order) (i : Nat) (env : FlushSurroundings S) :
    (t.turn single order ranking (.advance i env)).Inv single order := by
  cases hget : t.inFlight[i]? with
  | none =>
    have hturn : t.turn single order ranking (.advance i env) = t := by
      simp [turn, hget]
    rw [hturn]
    exact h
  | some entry =>
    have hturn : t.turn single order ranking (.advance i env) =
        ⟨(Flushing.advance single order env t.store entry).1,
          replaceAt t.inFlight i (Flushing.advance single order env t.store entry).2⟩ := by
      simp [turn, hget]
    rw [hturn]
    obtain ⟨hsound, hclean⟩ := (h.sound entry (List.mem_of_getElem? hget)).advance env
      (h.clean entry.name)
    have hother {name : Bytes} (hname : name ≠ entry.name) :=
      advance_other (Prod.mk.eta (p := Flushing.advance single order env t.store entry)).symm hname
    refine ⟨?_, ?_, ?_⟩
    · intro name terms hindex hdirty
      by_cases hname : name = entry.name
      · subst hname
        exact hclean terms hindex hdirty
      · obtain ⟨hc, hd⟩ := hother hname
        rw [hc] at hindex hdirty
        obtain ⟨directory, hdir, hwritten⟩ := h.clean name terms hindex hdirty
        exact ⟨directory, hd.trans hdir, hwritten⟩
    · intro entry' hmem
      rcases mem_replaceAt hget h.apart hmem with hnext | ⟨hmem, hname⟩
      · exact hsound entry' hnext
      · obtain ⟨hc, hd⟩ := hother hname
        exact (h.sound entry' hmem).congr hc hd
    · exact nodup_replaceAt hget h.apart fun entry' he => advance_name he

theorem Inv.writing (h : t.Inv single order) (i : Nat) (directory : Directory) :
    (t.turn single order ranking (.writing i directory)).Inv single order := by
  simp only [Flushing.turn]
  split
  · rename_i item hget
    have hmem : (⟨item, .marked⟩ : InFlight S) ∈ t.inFlight := List.mem_of_getElem? hget
    have hcurrent : Current item (t.store.index.collection item.collection) := h.sound _ hmem
    have hother : ∀ name, name ≠ item.collection →
        (t.store.directories.insert item.collection directory)[name]? =
          t.store.directories[name]? :=
      fun name hname => by rw [ByteMap.get_insert, if_neg hname]
    refine ⟨?_, ?_, h.apart⟩
    · intro name terms hindex hdirty
      by_cases hname : name = item.collection
      · subst hname
        exact absurd (hdirty.symm.trans (hcurrent.not_clean hindex)) (by simp)
      · obtain ⟨found, hfound, hwritten⟩ := h.clean name terms hindex hdirty
        exact ⟨found, (hother name hname).trans hfound, hwritten⟩
    · intro entry hentry
      by_cases hname : entry.name = item.collection
      · -- this is the collection that is being written
        have he : entry = ⟨item, .marked⟩ :=
          List.inj_on_of_nodup_map h.apart hentry hmem hname
        subst he
        exact hcurrent
      · exact (h.sound entry hentry).congr rfl (hother entry.name hname)
  · exact h

/-- **Every turn that meets the condition keeps the invariant.** -/
theorem Inv.turn (h : t.Inv single order) {turn : Turn S} (hturn : t.KeepsApart turn) :
    (t.turn single order ranking turn).Inv single order := by
  cases turn with
  | call call => exact h.call hturn
  | beginFlush env minAge maxCollections => exact h.beginFlush hturn
  | advance i env => exact h.advance i env
  | writing i directory => exact h.writing i directory

/-- Nothing is in memory, over whatever is left on disk, and no flush is under way. -/
def start (directories : ByteMap Directory) (pending : ByteSet) : Flushing S :=
  ⟨⟨∅, directories, pending⟩, []⟩

theorem inv_start (directories : ByteMap Directory) (pending : ByteSet) :
    (start directories pending : Flushing S).Inv single order := by
  refine ⟨fun name terms hindex => ?_, fun entry hmem => absurd hmem (by simp [start]),
    List.nodup_nil⟩
  simp [start, InvertedIndex.collection, CollectionIndex.empty] at hindex

/-- **A clean collection is stored.** In every run whose turns meet the condition, a collection in
memory without a dirty mark has the files of exactly its postings on disk; if their sizes fit, the
files can be opened, and each term has the postings there that it has in memory. -/
theorem clean_collection_stored (directories : ByteMap Directory) (pending : ByteSet)
    (turns : List (Turn S))
    (hmeet : AllMeet single order ranking KeepsApart (start directories pending) turns)
    (name : Bytes) (terms : ByteMap (List (Posting S)))
    (hindex : (((start directories pending).run single order ranking turns).store.index.collection
      name).index = some terms)
    (hclean : (((start directories pending).run single order ranking turns).store.index.collection
      name).dirty = false) :
    ∃ directory, ((start directories pending).run single order ranking turns).store.directories[
        name]? = some directory ∧
      IsWritten single order terms directory ∧
      (Traced.FitsFiles single order terms → ∃ index, loadIndex directory = some index ∧
        ∀ term, term.length < 2 ^ 31 → index.searchTerm single term =
          if term = [] then [] else (order.sort (terms[term]?.getD [])).map (rounded single)) := by
  have hinv := run_keeps (P := Inv single order) (fun t turn h hturn => h.turn hturn) turns _
    (inv_start directories pending) hmeet
  obtain ⟨directory, hdir, hwritten⟩ := hinv.clean name terms hindex hclean
  exact ⟨directory, hdir, hwritten, fun hfits =>
    searchTerm_indexFiles hwritten.1 hfits.1 hfits.2 hwritten.2⟩

end Flushing

/-! ### Changes that a flush does not see -/

/-- A document is added to the collection `c` when the clock shows a time. -/
def addAt (time : Nat) (doc : Document) : Turn Nat :=
  .call (.addDocument ⟨0, time, fun _ _ => 1⟩ (lit "c") doc)

def firstDocument : Document := titled (lit "d") (lit "word")

def secondDocument : Document := titled (lit "e") (lit "other")

def goOn (i steps : Nat) : List (Turn Nat) := List.replicate steps (.advance i goodFlush)

def flushingRun (turns : List (Turn Nat)) : Flushing Nat :=
  (Flushing.start ∅ ∅).run bitScores (insertionOrder Nat) unitRanking turns

/-- A document is added while the first one is being written, a moment later; the next flush writes
both. -/
def laterTick : List (Turn Nat) :=
  addAt 0 firstDocument :: .beginFlush goodFlush 0 0 :: .advance 0 goodFlush ::
    addAt 1 secondDocument :: goOn 0 4 ++ .beginFlush goodFlush 0 0 :: goOn 0 5

/-- The same, but the clock has not moved on, and there is no second flush. -/
def equalTick : List (Turn Nat) :=
  addAt 0 firstDocument :: .beginFlush goodFlush 0 0 :: .advance 0 goodFlush ::
    addAt 0 secondDocument :: goOn 0 4

/-- A second flush begins after the second document has been added, and ends before the first one,
which then writes its older copy. -/
def overlappingFlushes : List (Turn Nat) :=
  addAt 0 firstDocument :: .beginFlush goodFlush 0 0 :: addAt 1 secondDocument ::
    .beginFlush goodFlush 0 0 :: goOn 1 5 ++ goOn 0 5

/-- Whether the collection `c` is dirty, and who has the word `other` in memory and on disk. -/
def otherWord (t : Flushing Nat) : Bool × List Bytes × Option (List Bytes) :=
  let c := t.store.index.collection (lit "c")
  (c.dirty, ((c.index.getD ∅)[lit "other"]?.getD []).map Posting.documentId,
    (loadIndex (t.store.directory (lit "c"))).map fun index =>
      (index.searchTerm bitScores (lit "other")).map Posting.documentId)

theorem clean_collection_stored_laterTick :
    ((flushingRun laterTick).store.index.collection (lit "c")).dirty = false ∧ ∃ terms directory,
        ((flushingRun laterTick).store.index.collection (lit "c")).index = some terms ∧
        (flushingRun laterTick).store.directories[lit "c"]? = some directory ∧
        IsWritten bitScores (insertionOrder Nat) terms directory := by
  have hmeet : Flushing.AllMeet bitScores (insertionOrder Nat) unitRanking Flushing.KeepsApart
      (Flushing.start ∅ ∅) laterTick := by
    refine ⟨?_, ?_, trivial, ?_, trivial, trivial, trivial, trivial, ?_, trivial, trivial, trivial,
      trivial, trivial, trivial⟩
    · intro name time _ entry hmem
      simp [Flushing.start] at hmem
    · intro item _ entry hmem
      exact absurd hmem (List.not_mem_nil)
    · intro name time hchanges entry hmem _
      cases hchanges
      have hcopied : ∀ entry ∈ (flushingRun [addAt 0 firstDocument, .beginFlush goodFlush 0 0,
          .advance 0 goodFlush]).inFlight, entry.item.mutationTime < 1 := by decide +kernel
      exact hcopied entry hmem
    · intro item _ entry hmem
      have hnone : (flushingRun (addAt 0 firstDocument :: .beginFlush goodFlush 0 0 ::
          .advance 0 goodFlush :: addAt 1 secondDocument :: goOn 0 4)).inFlight.length = 0 := by
        decide +kernel
      exact absurd (List.length_eq_zero_iff.mp hnone ▸ hmem : entry ∈ []) List.not_mem_nil
  have hclean : ((flushingRun laterTick).store.index.collection (lit "c")).dirty = false := by
    decide +kernel
  have hmemory : ((flushingRun laterTick).store.index.collection (lit "c")).index.isSome := by
    decide +kernel
  obtain ⟨terms, hterms⟩ := Option.isSome_iff_exists.mp hmemory
  unfold flushingRun at *
  obtain ⟨directory, hdir, hwritten, -⟩ := Flushing.clean_collection_stored ∅ ∅ laterTick hmeet
    (lit "c") terms hterms hclean
  exact ⟨hclean, terms, directory, hterms, hdir, hwritten⟩

/-- In both runs the collection ends without a mark, and the second document is not on disk. -/
theorem second_document_unmarked : otherWord (flushingRun equalTick) = (false, [lit "e"], some []) ∧
      otherWord (flushingRun overlappingFlushes) = (false, [lit "e"], some []) := by
  decide +kernel

end Hlquery.Index
