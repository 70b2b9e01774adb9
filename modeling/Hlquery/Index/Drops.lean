import Hlquery.Index.Interleaving

/-!
# Collections that are dropped

The storage deletes a collection in two steps that matter here: `InvertedIndex::DeleteCollection`
takes it out of the index, and then its directory is removed. A flush that has copied the postings
before the first step goes on all the same. It writes the files, creating the directory again if it
has to, and installs the snapshot without asking whether there still is such a collection.

**A collection that is dropped stays away if no flush has a copy of it at that moment**
(`dropped_collection_not_served`): no search finds anything in it, and no load opens it.
-/

set_option autoImplicit false

namespace Hlquery.Index

open Bytes

/-! ## Dropped collections -/

/-- What happens in the life of an index. `DeleteCollection` of the storage removes the directory of
the collection after the index has dropped it, and goes on if that fails; something is left of the
directory then. A restart forgets the index and the flushes. -/
inductive Event (S : Type) where
  | turn (turn : Turn S)
  | removeIndexDir (name : Bytes) (left : Option Directory)
  | restart
  | loadFromDisk (env : LoadSurroundings S)

namespace Event

variable {S : Type}

def enters : Event S → Option Bytes
  | .turn (.call call) => call.enters
  | _ => none

def isLoad : Event S → Bool
  | .loadFromDisk _ => true
  | _ => false

end Event

namespace CollectionIndex

variable {S : Type}

structure Absent (c : CollectionIndex S) : Prop where
  index : c.index = none
  documentTerms : c.documentTerms = none
  mmapIndex : c.mmapIndex = none

theorem absent_empty : (empty : CollectionIndex S).Absent := ⟨rfl, rfl, rfl⟩

variable {c : CollectionIndex S}

theorem Absent.not_holds (h : c.Absent) (single : SinglePrecision S)
    (docId : Bytes) : ¬ c.Holds single docId := by
  rintro (⟨index, hindex, -⟩ | ⟨term, postings, hget, -⟩ | hmem)
  · exact absurd (h.mmapIndex.symm.trans hindex) (by simp)
  · rw [h.index, Option.getD_none] at hget
    cases hget
  · rw [h.documentTerms, Option.getD_none] at hmem
    cases hmem

theorem Absent.touch (h : c.Absent) (name : Bytes) (now : Nat) :
    (c.touch name now).Absent := by
  unfold CollectionIndex.touch
  split
  · exact h
  · exact ⟨h.index, h.documentTerms, h.mmapIndex⟩

theorem Absent.removeDocument (h : c.Absent) (docId : Bytes) (now : Nat) :
    ((c.removeDocumentFromIndex docId).markDirty now).Absent := by
  have hsame : c.removeDocumentFromIndex docId = c := by
    unfold removeDocumentFromIndex
    rw [h.index]
  rw [hsame]
  exact ⟨h.index, h.documentTerms, h.mmapIndex⟩

end CollectionIndex

namespace InvertedIndex

variable {S : Type} {ix : InvertedIndex S} {name : Bytes}

section

variable (h : (ix.collection name).Absent)
include h

theorem absent_evict
    (estimateMemory : Bytes → CollectionIndex S → Nat) (targetBytes : Nat) :
    ((ix.evictLoadedCollections estimateMemory targetBytes).collection name).Absent := by
  rcases ix.evict_collection estimateMemory targetBytes name with he | he
  · exact he ▸ h
  · exact he ▸ ⟨rfl, rfl, rfl⟩

theorem absent_modify (name' : Bytes)
    {change : CollectionIndex S → CollectionIndex S}
    (hchange : name = name' → (change (ix.collection name)).Absent) :
    ((ix.modify name' change).collection name).Absent := by
  rw [collection_modify]
  split
  · rename_i hname
    exact hname ▸ hchange hname
  · exact h

theorem absent_touch (name' : Bytes) (now : Nat) :
    ((ix.modify name' (.touch name' now)).collection name).Absent :=
  absent_modify h name' fun _ => h.touch name' now

end

end InvertedIndex

theorem IndexStore.apply_absent {S : Type} (ranking : Ranking S) {store : IndexStore S}
    {name : Bytes} (h : (store.index.collection name).Absent) {call : LockedCall S}
    (hcall : call.enters ≠ some name) :
    ((store.apply ranking call).index.collection name).Absent := by
  cases call with
  | addDocument env name' doc =>
    have hname : name ≠ name' := fun he => hcall (he ▸ rfl)
    have hreplaced : ((store.index.replaced ranking env name' doc).collection name).Absent :=
      InvertedIndex.absent_modify (InvertedIndex.absent_touch h _ _) name' fun he => absurd he hname
    rcases InvertedIndex.addDocument_cases ranking env name' doc store.index with he | he | he
    · simp only [IndexStore.apply, he]
      exact InvertedIndex.absent_touch h _ _
    · simp only [IndexStore.apply, he]
      exact hreplaced
    · simp only [IndexStore.apply, he]
      exact InvertedIndex.absent_evict hreplaced _ _
  | updateDocument env name' oldDoc newDoc =>
    have hname : name ≠ name' := fun he => hcall (he ▸ rfl)
    exact InvertedIndex.absent_evict (InvertedIndex.absent_modify
      (InvertedIndex.absent_touch h _ _) name' fun he => absurd he hname) _ _
  | deleteDocument env name' docId =>
    have htouch := InvertedIndex.absent_touch h name' env.accessTime
    exact InvertedIndex.absent_evict (InvertedIndex.absent_modify htouch name' fun _ =>
      htouch.removeDocument docId env.mutationTime) _ _
  | deleteCollection name' deletesMark =>
    show (((store.index.erase name')[name]?).getD CollectionIndex.empty).Absent
    rw [ByteMap.get_erase]
    split
    · exact CollectionIndex.absent_empty
    · exact h
  | clear => exact CollectionIndex.absent_empty
  | search name' now => exact InvertedIndex.absent_touch h _ _
  | evict estimateMemory maxBytes => exact InvertedIndex.absent_evict h _ _

/-! ### Directories that are gone -/

namespace IndexStore

variable {S : Type} {name : Bytes}

/-- The directory of a collection is removed, or something is left of it. -/
def removeIndexDir (name : Bytes) (left : Option Directory) (store : IndexStore S) : IndexStore S :=
  match left with
  | some left =>
      if store.directories.contains name then
        { store with directories := store.directories.insert name left }
      else store
  | none => { store with directories := store.directories.erase name }

theorem removeIndexDir_index (name : Bytes) (left : Option Directory) (store : IndexStore S) :
    (store.removeIndexDir name left).index = store.index := by
  unfold removeIndexDir
  cases left with
  | none => rfl
  | some left =>
    dsimp only
    split <;> rfl

variable {store : IndexStore S}

theorem removeIndexDir_gone (h : store.directories[name]? = none) (name' : Bytes)
    (left : Option Directory) : (store.removeIndexDir name' left).directories[name]? = none := by
  unfold removeIndexDir
  cases left with
  | none =>
    rw [ByteMap.get_erase]
    split
    · rfl
    · exact h
  | some left =>
    dsimp only
    split
    · rename_i hcontains
      have hname : name ≠ name' := by
        rintro rfl
        rw [Std.ExtTreeMap.contains_eq_isSome_getElem?, h] at hcontains
        cases hcontains
      rw [ByteMap.get_insert, if_neg hname]
      exact h
    · exact h

variable (env : LoadSurroundings S)

section

variable (h : store.directories[name]? = none)
include h

theorem removeDirectory_gone
    (name' : Bytes) : (store.removeDirectory env name').1.directories[name]? = none := by
  unfold removeDirectory
  split
  · rename_i directory left hget _
    rw [ByteMap.get_insert]
    split
    · rename_i he
      rw [← he, h] at hget
      cases hget
    · exact h
  · rw [ByteMap.get_erase]
    split
    · rfl
    · exact h

theorem repairFlush_gone
    (name' : Bytes) : (store.repairFlush env name').directories[name]? = none := by
  unfold repairFlush
  split
  · dsimp only
    split
    · exact removeDirectory_gone env h name'
    · exact removeDirectory_gone env h name'
  · exact h

theorem repairFlushes_gone :
    (store.repairFlushes env).directories[name]? = none := by
  unfold repairFlushes
  generalize store.pending.toList = names
  induction names generalizing store with
  | nil => exact h
  | cons name' names ih => exact ih (repairFlush_gone env h name')

theorem removeMarked_gone :
    (store.removeMarked env).directories[name]? = none := by
  unfold removeMarked
  generalize store.directories.keys.filter _ = names
  induction names generalizing store with
  | nil => exact h
  | cons name' names ih => exact ih (removeDirectory_gone env h name')

/-- **A load does not open what is gone.** -/
theorem not_mem_opened
    (index : MMapIndex) : (name, index) ∉ store.opened env := by
  intro hmem
  obtain ⟨⟨name', directory⟩, hentry, hopen⟩ := List.mem_filterMap.mp hmem
  split at hopen
  · cases hopen
  obtain ⟨opened, -, he⟩ := Option.map_eq_some_iff.mp hopen
  cases he
  have hget := Std.ExtTreeMap.mem_toList_iff_getElem?_eq_some.mp hentry
  exact absurd ((repairFlushes_gone env h).symm.trans hget) (by simp)

theorem loadFromDisk_gone
    (habsent : (store.index.collection name).Absent) :
    (store.loadFromDisk env).directories[name]? = none ∧
      ((store.loadFromDisk env).index.collection name).Absent := by
  have hrepaired := repairFlushes_gone env h
  unfold loadFromDisk
  dsimp only
  split
  · rw [repairFlushes_index]
    exact ⟨hrepaired, habsent⟩
  · refine ⟨removeMarked_gone env hrepaired, InvertedIndex.absent_evict ?_ _ _⟩
    rw [removeMarked_index, repairFlushes_index]
    rcases InvertedIndex.foldl_install_collection name (store.opened env) store.index with
      he | ⟨index, hmem, -⟩
    · exact he ▸ habsent
    · exact absurd hmem (not_mem_opened env h index)

end

end IndexStore

namespace Flushing

variable {S : Type} (single : SinglePrecision S) (order : PostingSort S) (ranking : Ranking S)

def event (t : Flushing S) : Event S → Flushing S
  | .turn turn => t.turn single order ranking turn
  | .removeIndexDir name left => { t with store := t.store.removeIndexDir name left }
  | .restart => ⟨{ t.store with index := ∅ }, []⟩
  | .loadFromDisk env => { t with store := t.store.loadFromDisk env }

def events (t : Flushing S) (history : List (Event S)) : Flushing S :=
  history.foldl (event single order ranking) t

/-- **The condition.** No flush has a copy of the collection that it has not installed yet. -/
def Idle (name : Bytes) (t : Flushing S) : Prop :=
  ∀ entry ∈ t.inFlight, entry.name = name → entry.phase = .installed

/-- The collection is not in the index, and no flush will bring it back. -/
structure Dropped (name : Bytes) (t : Flushing S) : Prop where
  absent : (t.store.index.collection name).Absent
  idle : t.Idle name

variable {single order ranking}

theorem mem_of_mem_replaceAt {entries : List (InFlight S)} {i : Nat} {entry : InFlight S}
    {next : Option (InFlight S)} (h : entry ∈ replaceAt entries i next) :
    next = some entry ∨ entry ∈ entries := by
  cases next with
  | none => exact .inr (List.mem_of_mem_eraseIdx h)
  | some new =>
    rcases List.mem_or_eq_of_mem_set h with h | rfl
    · exact .inr h
    · exact .inl rfl

/-- What a turn does not touch of a collection that no flush has a copy of: its directory, and its
absence. -/
theorem Dropped.turn {name : Bytes} {t : Flushing S} (h : t.Dropped name) {turn : Turn S}
    (hturn : (Event.turn turn).enters ≠ some name) :
    (t.turn single order ranking turn).Dropped name ∧
      (t.turn single order ranking turn).store.directories[name]? = t.store.directories[name]? := by
  cases turn with
  | call call =>
    refine ⟨⟨IndexStore.apply_absent ranking h.absent hturn, h.idle⟩, ?_⟩
    exact congrArg (·[name]?) (IndexStore.apply_directories ranking t.store call)
  | beginFlush env minAge maxCollections =>
    refine ⟨⟨h.absent, fun entry hmem hname => ?_⟩, rfl⟩
    rcases List.mem_append.mp hmem with hmem | hmem
    · exact h.idle entry hmem hname
    -- a collection without postings is not copied
    obtain ⟨item, hitem, rfl⟩ := List.mem_map.mp hmem
    have hindex := (InvertedIndex.mem_flushWorkItems hitem).2
    rw [show item.collection = name from hname, h.absent.index] at hindex
    cases hindex
  | advance i env =>
    cases hget : t.inFlight[i]? with
    | none =>
      have hsame : t.turn single order ranking (.advance i env) = t := by
        simp [Flushing.turn, hget]
      rw [hsame]
      exact ⟨h, rfl⟩
    | some entry =>
      have hmem := List.mem_of_getElem? hget
      rcases hadvance : advance single order env t.store entry with ⟨after, next⟩
      have hsame : t.turn single order ranking (.advance i env) =
          ⟨after, replaceAt t.inFlight i next⟩ := by
        simp [Flushing.turn, hget, hadvance]
      rw [hsame]
      by_cases hname : entry.name = name
      · -- the flush has only its mark to delete
        have hphase := h.idle entry hmem hname
        unfold advance at hadvance
        rw [hphase] at hadvance
        cases hadvance
        refine ⟨⟨h.absent, fun entry' hmem' => h.idle entry' ?_⟩, rfl⟩
        exact List.mem_of_mem_eraseIdx hmem'
      · obtain ⟨hc, hd⟩ := advance_other hadvance (Ne.symm hname)
        refine ⟨⟨hc ▸ h.absent, fun entry' hmem' hname' => ?_⟩, hd⟩
        rcases mem_of_mem_replaceAt hmem' with hnext | hmem'
        · have := advance_name (hnext ▸ congrArg Prod.snd hadvance)
          exact absurd (this.symm.trans hname') hname
        · exact h.idle entry' hmem' hname'
  | writing i directory =>
    simp only [Flushing.turn]
    split
    · rename_i item hget
      refine ⟨⟨h.absent, h.idle⟩, ?_⟩
      rw [ByteMap.get_insert, if_neg]
      intro hname
      exact absurd (h.idle _ (List.mem_of_getElem? hget) hname.symm) (by simp)
    · exact ⟨h, rfl⟩

theorem Dropped.restart {name : Bytes} {t : Flushing S} :
    (t.event single order ranking .restart).Dropped name :=
  ⟨CollectionIndex.absent_empty, fun entry hmem => absurd hmem (by simp [event])⟩

/-- Without a load, a dropped collection stays dropped whatever is in its directory. -/
theorem Dropped.events {name : Bytes} :
    ∀ (history : List (Event S)) {t : Flushing S}, t.Dropped name →
      (∀ e ∈ history, e.enters ≠ some name ∧ e.isLoad = false) →
      (t.events single order ranking history).Dropped name
  | [], _, h, _ => h
  | e :: history, t, h, hall => by
    obtain ⟨henters, hload⟩ := hall e (by simp)
    refine Dropped.events history ?_ fun e' he' => hall e' (List.mem_cons_of_mem _ he')
    cases e with
    | turn turn => exact (h.turn henters).1
    | removeIndexDir name' left =>
      exact ⟨IndexStore.removeIndexDir_index name' left t.store ▸ h.absent, h.idle⟩
    | restart => exact .restart
    | loadFromDisk env => simp [Event.isLoad] at hload

/-- Once its directory is gone, no load brings it back. -/
theorem Dropped.gone {name : Bytes} :
    ∀ (history : List (Event S)) {t : Flushing S}, t.Dropped name →
      t.store.directories[name]? = none → (∀ e ∈ history, e.enters ≠ some name) →
      (t.events single order ranking history).Dropped name ∧
        (t.events single order ranking history).store.directories[name]? = none
  | [], _, h, hdir, _ => ⟨h, hdir⟩
  | e :: history, t, h, hdir, hall => by
    have hnext : (t.event single order ranking e).Dropped name ∧
        (t.event single order ranking e).store.directories[name]? = none := by
      cases e with
      | turn turn =>
        have henters := hall _ List.mem_cons_self
        exact ⟨(h.turn henters).1, (h.turn henters).2.trans hdir⟩
      | removeIndexDir name' left =>
        refine ⟨?_, IndexStore.removeIndexDir_gone hdir name' left⟩
        exact ⟨IndexStore.removeIndexDir_index name' left t.store ▸ h.absent, h.idle⟩
      | restart => exact ⟨.restart, hdir⟩
      | loadFromDisk env =>
        obtain ⟨hdir', habsent⟩ := IndexStore.loadFromDisk_gone env hdir h.absent
        exact ⟨⟨habsent, h.idle⟩, hdir'⟩
    exact Dropped.gone history hnext.1 hnext.2 fun e' he' => hall e' (List.mem_cons_of_mem _ he')

variable (single order ranking) in
/-- **A dropped collection is not served again.** If no flush has a copy of it when the index drops
it, nothing is loaded before its directory is removed, and no document is entered into it, then
whatever happens, no search finds anything in it, and no load opens a snapshot of it. -/
theorem dropped_collection_not_served (t : Flushing S) (name : Bytes) (deletesMark : Bool)
    (between after : List (Event S)) (hidle : t.Idle name)
    (hbetween : ∀ e ∈ between, e.enters ≠ some name ∧ e.isLoad = false)
    (hafter : ∀ e ∈ after, e.enters ≠ some name) :
    let served := t.events single order ranking
      (.turn (.call (.deleteCollection name deletesMark)) :: between ++
        .removeIndexDir name none :: after)
    (∀ (scoring : Scoring S) (term : Bytes),
        (served.store.index.collection name).searchTerm single scoring name term = []) ∧
      (∀ (scoring : Scoring S) (settings : QuerySettings) (query : Bytes) (limit : Int)
        (queryFields : List Bytes),
        (served.store.index.collection name).search single scoring settings name query limit
          queryFields = []) ∧
      ∀ (env : LoadSurroundings S) (index : MMapIndex),
        (name, index) ∉ served.store.opened env := by
  have hdeleted : (t.event single order ranking
      (.turn (.call (.deleteCollection name deletesMark)))).Dropped name := by
    refine ⟨?_, hidle⟩
    show (((t.store.index.erase name)[name]?).getD CollectionIndex.empty).Absent
    rw [ByteMap.get_erase, if_pos rfl]
    exact CollectionIndex.absent_empty
  set before := t.events single order ranking
    (.turn (.call (.deleteCollection name deletesMark)) :: between) with hbefore
  have hdropped : before.Dropped name := Dropped.events between hdeleted hbetween
  have hremoved : (before.event single order ranking (.removeIndexDir name none)).Dropped name :=
    ⟨hdropped.absent, hdropped.idle⟩
  have hgone : (before.event single order ranking
      (.removeIndexDir name none)).store.directories[name]? = none := by
    show (before.store.directories.erase name)[name]? = none
    rw [ByteMap.get_erase, if_pos rfl]
  intro served
  have hserved : served = (before.event single order ranking (.removeIndexDir name none)).events
      single order ranking after := by
    show List.foldl _ _ (_ ++ _) = _
    rw [List.foldl_append]
    rfl
  obtain ⟨hfinal, hdir⟩ := Dropped.gone after hremoved hgone hafter
  rw [← hserved] at hfinal hdir
  refine ⟨fun scoring term => ?_, fun scoring settings query limit queryFields => ?_,
    fun env index => IndexStore.not_mem_opened env hdir index⟩
  · refine List.eq_nil_iff_forall_not_mem.mpr fun post hpost => ?_
    exact hfinal.absent.not_holds single _ (CollectionIndex.searchTerm_found scoring hpost)
  · refine List.eq_nil_iff_forall_not_mem.mpr fun post hpost => ?_
    exact hfinal.absent.not_holds single _ (CollectionIndex.search_found hpost)

end Flushing

/-! ### A collection that comes back -/

/-- The document that is found under `word`, in the collection `c`. -/
def wordDocuments (t : Flushing Nat) : List Bytes :=
  ((t.store.index.collection (lit "c")).searchTerm bitScores countingScores (lit "c")
    (lit "word")).map Posting.documentId

def eventsOf (history : List (Event Nat)) : Flushing Nat :=
  (Flushing.start ∅ ∅).events bitScores (insertionOrder Nat) unitRanking history

def flushedFor (steps : Nat) : List (Event Nat) :=
  (addAt 0 firstDocument :: .beginFlush goodFlush 0 0 :: goOn 0 steps).map .turn

def dropC : List (Event Nat) :=
  [.turn (.call (.deleteCollection (lit "c") true)), .removeIndexDir (lit "c") none]

theorem dropped_collection_not_served_flushed : (eventsOf (flushedFor 5)).inFlight.length = 0 ∧
      wordDocuments (eventsOf (flushedFor 5)) = [lit "d"] ∧
      wordDocuments (((eventsOf (flushedFor 5)).events bitScores (insertionOrder Nat) unitRanking
        (dropC ++ [.restart, .loadFromDisk goodLoad]))) = [] := by
  have hnone : (eventsOf (flushedFor 5)).inFlight.length = 0 := by decide +kernel
  refine ⟨hnone, by decide +kernel, ?_⟩
  refine congrArg (List.map Posting.documentId) ((Flushing.dropped_collection_not_served bitScores
    (insertionOrder Nat) unitRanking (eventsOf (flushedFor 5)) (lit "c") true []
    [.restart, .loadFromDisk goodLoad] ?_ ?_ ?_).1 countingScores (lit "word"))
  · intro entry hmem
    exact absurd (List.length_eq_zero_iff.mp hnone ▸ hmem : entry ∈ []) List.not_mem_nil
  · intro e hmem
    exact absurd hmem List.not_mem_nil
  · intro e hmem
    rcases List.mem_cons.mp hmem with rfl | hmem
    · simp [Event.enters]
    · simp [List.mem_singleton.mp hmem, Event.enters]

/-- A collection that is dropped while its files are open is found by the next search; one that is
dropped before they are written is found again after a restart. -/
theorem dropped_collection_returns :
    wordDocuments (eventsOf (flushedFor 3 ++ dropC ++ (goOn 0 2).map .turn)) = [lit "d"] ∧
      wordDocuments (eventsOf (flushedFor 1 ++ dropC ++ (goOn 0 4).map .turn ++
        [.restart, .loadFromDisk goodLoad])) = [lit "d"] := by
  decide +kernel

end Hlquery.Index
