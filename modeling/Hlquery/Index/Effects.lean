import Hlquery.Index.Consistency
import Hlquery.Index.MappedRoundTrip
import Hlquery.Index.Snapshots

/-!
# What a call does to one collection

Eviction can follow most calls and reach any collection, a flush and a load work on many collections
at once, and a document that is added is first removed. `Effect` says in one place what all of this
comes to for a single collection: its recorded terms, its snapshot, the time of its last flush, and
the history of its documents. `step_effect` is the only place where the calls are taken apart.
-/

set_option autoImplicit false

namespace Hlquery.Index

open Bytes

/-! ## Frames -/

namespace CollectionIndex

variable {S : Type}

def SameSnapshot (c c' : CollectionIndex S) : Prop :=
  c'.mmapIndex = c.mmapIndex ∧ c'.lastFlush = c.lastFlush

theorem SameSnapshot.trans {c c' c'' : CollectionIndex S} (h : c.SameSnapshot c')
    (h' : c'.SameSnapshot c'') : c.SameSnapshot c'' :=
  ⟨h'.1.trans h.1, h'.2.trans h.2⟩

theorem sameSnapshot_ensureTotalLength (c : CollectionIndex S) :
    c.SameSnapshot c.ensureTotalLength.2 := by
  unfold ensureTotalLength
  cases c.totalLength <;> exact ⟨rfl, rfl⟩

theorem sameSnapshot_refreshStats (c : CollectionIndex S) : c.SameSnapshot c.refreshStats := by
  unfold refreshStats
  dsimp only
  split
  · exact ⟨rfl, rfl⟩
  · exact sameSnapshot_ensureTotalLength { c with docCount := some (c.documentLengths.getD ∅).size }

theorem sameSnapshot_removeLength (docId : Bytes) (c : CollectionIndex S) :
    c.SameSnapshot (c.removeLength docId) := by
  unfold removeLength
  cases c.documentLengths with
  | none => exact ⟨rfl, rfl⟩
  | some lengths =>
    dsimp only
    cases lengths[docId]? with
    | none => exact ⟨rfl, rfl⟩
    | some removed => exact sameSnapshot_ensureTotalLength c

theorem sameSnapshot_removeDocument (docId : Bytes) (c : CollectionIndex S) :
    c.SameSnapshot (c.removeDocumentFromIndex docId) := by
  unfold removeDocumentFromIndex
  split
  · split
    · exact ⟨rfl, rfl⟩
    · exact SameSnapshot.trans (sameSnapshot_removeLength docId
        { c with index := some _, documentTerms := _ }) (sameSnapshot_refreshStats _)
  · exact ⟨rfl, rfl⟩

theorem sameSnapshot_enterDocument (ranking : Ranking S) (collection : Bytes) (doc : Document)
    (c : CollectionIndex S) : c.SameSnapshot (c.enterDocument ranking collection doc) := by
  unfold enterDocument
  refine SameSnapshot.trans ?_ (sameSnapshot_refreshStats _)
  exact sameSnapshot_ensureTotalLength { c with
      index := some ((doc.postings ranking collection).foldl pushPosting (c.index.getD ∅))
      documentTerms := some ((c.documentTerms.getD ∅).insert doc.id
        (.ofList ((doc.postings ranking collection).map Prod.fst) _)) }

theorem index_removeDocument_of_none {c : CollectionIndex S} (h : c.index = none) (docId : Bytes) :
    (c.removeDocumentFromIndex docId).index = none := by
  unfold removeDocumentFromIndex
  rw [h]
  exact h

def recordedTerms (ranking : Ranking S) (name : Bytes) (doc : Document) : ByteSet :=
  .ofList ((doc.postings ranking name).map Prod.fst) _

theorem mem_recordedTerms {ranking : Ranking S} {name key : Bytes} {doc : Document} :
    key ∈ recordedTerms ranking name doc ↔ key ∈ (doc.postings ranking name).map Prod.fst := by
  unfold recordedTerms
  rw [Std.ExtTreeSet.mem_ofList, List.contains_iff_mem]

theorem termsOf_replaceDocument {c : CollectionIndex S} (h : c.Invariant) (ranking : Ranking S)
    (name : Bytes) (doc : Document) :
    ((c.removeDocumentFromIndex doc.id).enterDocument ranking name doc).index.isSome ∧
      ∀ docId, ((c.removeDocumentFromIndex doc.id).enterDocument ranking name doc).termsOf docId =
        if docId = doc.id then some (recordedTerms ranking name doc) else c.termsOf docId := by
  have w := h.removeDocument doc.id
  have hw := w.invariant h.toConsistent
  have hnew : (c.removeDocumentFromIndex doc.id).lengthOf doc.id = none := by
    rw [w.lengthOf, if_pos rfl]
  obtain ⟨hi, ht, -⟩ := enterDocument_spec ranking name hw.total_length hnew
  refine ⟨by rw [hi]; rfl, fun docId => ?_⟩
  unfold CollectionIndex.termsOf
  rw [ht, Option.getD_some, ByteMap.get_insert]
  split
  · rfl
  rename_i hd
  have := w.termsOf docId
  rw [if_neg hd] at this
  exact this

end CollectionIndex

namespace InvertedIndex

variable {S : Type}

theorem evictLoop_collection (targetBytes : Nat) (name : Bytes) :
    ∀ (candidates : List EvictionCandidate) (loadedBytes : Nat) (ix : InvertedIndex S),
      (evictLoop targetBytes loadedBytes candidates ix).collection name = ix.collection name ∨
        (evictLoop targetBytes loadedBytes candidates ix).collection name =
          (ix.collection name).unload
  | [], _, _ => .inl rfl
  | candidate :: candidates, loadedBytes, ix => by
    unfold evictLoop
    split
    · exact .inl rfl
    have hmodify := collection_modify ix candidate.collection name .unload
    have ih := evictLoop_collection targetBytes name candidates (loadedBytes - candidate.bytes)
      (ix.modify candidate.collection .unload)
    rw [hmodify] at ih
    by_cases hname : name = candidate.collection
    · rw [if_pos hname, ← hname] at ih
      rw [← hname]
      exact .inr (ih.elim id id)
    · rw [if_neg hname] at ih
      exact ih

/-- **Eviction keeps a collection or unloads it.** -/
theorem evict_collection (estimateMemory : Bytes → CollectionIndex S → Nat) (targetBytes : Nat)
    (ix : InvertedIndex S) (name : Bytes) :
    (ix.evictLoadedCollections estimateMemory targetBytes).collection name = ix.collection name ∨
      (ix.evictLoadedCollections estimateMemory targetBytes).collection name =
        (ix.collection name).unload := by
  unfold evictLoadedCollections
  split
  · exact .inl rfl
  dsimp only
  split
  · exact .inl rfl
  · exact evictLoop_collection targetBytes name _ _ ix

def replaced (ranking : Ranking S) (env : Surroundings S) (name : Bytes) (doc : Document)
    (ix : InvertedIndex S) : InvertedIndex S :=
  (ix.modify name (.touch name env.accessTime)).modify name fun c =>
    ((c.removeDocumentFromIndex doc.id).enterDocument ranking name doc).markDirty env.mutationTime

theorem addDocument_cases (ranking : Ranking S) (env : Surroundings S) (name : Bytes)
    (doc : Document) (ix : InvertedIndex S) :
    ix.addDocument ranking env name doc = (ix.modify name (.touch name env.accessTime), false) ∨
      ix.addDocument ranking env name doc = (ix.replaced ranking env name doc, true) ∨
      ix.addDocument ranking env name doc = ((ix.replaced ranking env name doc).evictLoadedCollections
        env.estimateMemory maxMemoryBytes, true) := by
  unfold addDocument
  dsimp only
  split
  · exact .inl rfl
  split
  · exact .inl rfl
  split
  · exact .inr (.inr rfl)
  · exact .inr (.inl rfl)

end InvertedIndex

/-! ## Flushing -/

namespace InvertedIndex

variable {S : Type}

theorem flushable_of_mem_flushWorkItems {env : FlushSurroundings S} {minAge maxCollections : Nat}
    {ix : InvertedIndex S} {item : FlushWorkItem S}
    (h : item ∈ ix.flushWorkItems env minAge maxCollections) :
    (ix.collection item.collection).isFlushable env.now minAge = true ∧
      (ix.collection item.collection).isDeferred = false ∧
      item.indexSnapshot = (ix.collection item.collection).index.getD ∅ := by
  obtain ⟨name, hname, hitem⟩ := List.mem_filterMap.mp h
  dsimp only at hitem
  split at hitem
  · cases hitem
  rename_i hdeferred
  cases hitem
  have hselected : name ∈ (env.order ix.dirtyCollections).filter fun name =>
      (ix.collection name).isFlushable env.now minAge := by
    unfold selectFlushCollections at hname
    split at hname
    · exact List.mem_of_mem_take hname
    · exact hname
  exact ⟨(List.mem_filter.mp hselected).2, by simpa using hdeferred, rfl⟩

theorem mem_flushWorkItems {env : FlushSurroundings S} {minAge maxCollections : Nat}
    {ix : InvertedIndex S} {item : FlushWorkItem S}
    (h : item ∈ ix.flushWorkItems env minAge maxCollections) :
    (ix.collection item.collection).isDeferred = false ∧
      (ix.collection item.collection).index = some item.indexSnapshot := by
  obtain ⟨hflush, hdeferred, hsnapshot⟩ := flushable_of_mem_flushWorkItems h
  refine ⟨hdeferred, ?_⟩
  -- a collection without an entry for its postings is not flushable
  unfold CollectionIndex.isFlushable at hflush
  cases hi : (ix.collection item.collection).index with
  | none => simp [hi] at hflush
  | some terms =>
    rw [hi] at hsnapshot
    rw [hsnapshot]
    rfl

theorem nodup_flushWorkItems (env : FlushSurroundings S) (minAge maxCollections : Nat)
    (ix : InvertedIndex S) :
    ((ix.flushWorkItems env minAge maxCollections).map FlushWorkItem.collection).Nodup := by
  have hdirty : ix.dirtyCollections.Nodup := by
    have hkeys : (ix.toList.map Prod.fst).Nodup := by
      rw [Std.ExtTreeMap.map_fst_toList_eq_keys]
      exact Std.ExtTreeMap.nodup_keys
    exact hkeys.sublist (List.filter_sublist.map _)
  have hselected : (ix.selectFlushCollections env minAge maxCollections).Nodup := by
    have := ((env.order_perm ix.dirtyCollections).nodup_iff.mpr hdirty).filter fun name =>
      (ix.collection name).isFlushable env.now minAge
    unfold selectFlushCollections
    split
    · exact this.sublist (List.take_sublist _ _)
    · exact this
  have hsub : ((ix.flushWorkItems env minAge maxCollections).map FlushWorkItem.collection).Sublist
      (ix.selectFlushCollections env minAge maxCollections) := by
    unfold flushWorkItems
    generalize ix.selectFlushCollections env minAge maxCollections = names
    induction names with
    | nil => exact List.Sublist.refl _
    | cons name names ih =>
      rw [List.filterMap_cons]
      split
      · exact ih.cons _
      rename_i item hitem
      dsimp only at hitem
      split at hitem
      · cases hitem
      · cases hitem
        exact ih.cons_cons _
  exact hselected.sublist hsub

end InvertedIndex

namespace IndexStore

variable {S : Type}

structure AgreesAt (name : Bytes) (s s' : IndexStore S) : Prop where
  collection : s'.index.collection name = s.index.collection name
  directory : s'.directories[name]? = s.directories[name]?
  pending : name ∈ s'.pending ↔ name ∈ s.pending

theorem AgreesAt.trans {name : Bytes} {s s' s'' : IndexStore S} (h : s.AgreesAt name s')
    (h' : s'.AgreesAt name s'') : s.AgreesAt name s'' :=
  ⟨h'.collection.trans h.collection, h'.directory.trans h.directory, h'.pending.trans h.pending⟩

theorem flushItem_other (single : SinglePrecision S) (order : PostingSort S)
    (env : FlushSurroundings S) {item : FlushWorkItem S} {name : Bytes}
    (hname : name ≠ item.collection) (store : IndexStore S) :
    store.AgreesAt name (store.flushItem single order env item).1 := by
  have hpending : ∀ {b : Bool} {p p' : ByteSet}, (name ∈ p' ↔ name ∈ p) →
      ((name ∈ if b then p' else p) ↔ name ∈ p) := by
    intro b p p' h
    split
    · exact h
    · rfl
  have hmark {b : Bool} := @hpending b store.pending (store.pending.insert item.collection)
    (by simp [hname.symm])
  unfold flushItem
  dsimp only
  split
  · refine ⟨?_, ?_, (hpending (by simp [hname.symm])).trans hmark⟩
    · unfold InvertedIndex.finishFlush
      rw [InvertedIndex.collection_modify, if_neg hname]
    · rw [ByteMap.get_insert, if_neg hname]
  · exact ⟨rfl, by rw [ByteMap.get_insert, if_neg hname], hmark⟩

/-- **A flush writes each collection once**: what it does to a collection is what writing its work
item does, to a store that agrees with the one at the beginning. -/
theorem flushItems_spec (single : SinglePrecision S) (order : PostingSort S)
    (env : FlushSurroundings S) (name : Bytes) :
    ∀ (items : List (FlushWorkItem S)) (store : IndexStore S),
      (items.map FlushWorkItem.collection).Nodup →
      (store.AgreesAt name (flushItems single order env items store).1 ∧
          name ∉ (flushItems single order env items store).2) ∨
        ∃ item ∈ items, item.collection = name ∧ ∃ before, store.AgreesAt name before ∧
          (before.flushItem single order env item).1.AgreesAt name
            (flushItems single order env items store).1 ∧
          (name ∈ (flushItems single order env items store).2 ↔
            (before.flushItem single order env item).2 = true)
  | [], store, _ => .inl ⟨⟨rfl, rfl, Iff.rfl⟩, by simp [flushItems]⟩
  | item :: items, store, hnd => by
    rw [List.map_cons, List.nodup_cons] at hnd
    set store₁ := (store.flushItem single order env item).1 with hstore₁
    have hresult : (flushItems single order env (item :: items) store).1 =
        (flushItems single order env items store₁).1 := rfl
    have hnames : (flushItems single order env (item :: items) store).2 =
        if (store.flushItem single order env item).2 then
          item.collection :: (flushItems single order env items store₁).2
        else (flushItems single order env items store₁).2 := rfl
    have ih := flushItems_spec single order env name items store₁ hnd.2
    by_cases hname : name = item.collection
    · -- no later item is of this collection
      rcases ih with ⟨hagree, hnot⟩ | ⟨item', hmem, hcol, -⟩
      · refine .inr ⟨item, by simp, hname.symm, store, ⟨rfl, rfl, Iff.rfl⟩, ?_, ?_⟩
        · rw [hresult]
          exact hagree
        · rw [hnames]
          cases hflushed : (store.flushItem single order env item).2 with
          | true => simp [hname]
          | false => simpa using hnot
      · exact absurd (List.mem_map.mpr ⟨item', hmem, hcol.trans hname⟩) hnd.1
    · have hother := flushItem_other single order env hname store
      have hmem : name ∈ (flushItems single order env (item :: items) store).2 ↔
          name ∈ (flushItems single order env items store₁).2 := by
        rw [hnames]
        split
        · simp [hname]
        · exact Iff.rfl
      rw [hmem, hresult]
      rcases ih with ⟨hagree, hnot⟩ | ⟨item', hmem', hcol, before, hbefore, hafter, hflushed⟩
      · exact .inl ⟨hother.trans hagree, hnot⟩
      · exact .inr ⟨item', List.mem_cons_of_mem _ hmem', hcol, before, hother.trans hbefore,
          hafter, hflushed⟩

end IndexStore

/-! ## Loading -/

namespace IndexStore

variable {S : Type}

variable (env : LoadSurroundings S)

theorem removeDirectory_index (name : Bytes) (store : IndexStore S) :
    (store.removeDirectory env name).1.index = store.index := by
  unfold removeDirectory
  split <;> rfl

variable (store : IndexStore S)

theorem repairFlush_index (name : Bytes) :
    (store.repairFlush env name).index = store.index := by
  unfold repairFlush
  split
  · dsimp only
    split <;> exact removeDirectory_index env name store
  · rfl

theorem repairFlushes_index :
    (store.repairFlushes env).index = store.index := by
  refine List.foldlRecOn (motive := fun s : IndexStore S => s.index = store.index) _ _ rfl ?_
  exact fun s h name _ => (repairFlush_index env s name).trans h

theorem removeMarked_index :
    (store.removeMarked env).index = store.index := by
  refine List.foldlRecOn (motive := fun s : IndexStore S => s.index = store.index) _ _ rfl ?_
  exact fun s h name _ => (removeDirectory_index env name s).trans h

theorem repairFlush_other {name name' : Bytes} (hname : name ≠ name')
    (store : IndexStore S) : store.AgreesAt name (store.repairFlush env name') := by
  have hremove : store.AgreesAt name (store.removeDirectory env name').1 := by
    unfold removeDirectory
    split
    · exact ⟨rfl, by rw [ByteMap.get_insert, if_neg hname], Iff.rfl⟩
    · exact ⟨rfl, by rw [ByteMap.get_erase, if_neg hname], Iff.rfl⟩
  unfold repairFlush
  split
  · dsimp only
    split
    · refine hremove.trans ⟨rfl, rfl, ?_⟩
      simp [hname.symm]
    · exact hremove
  · exact ⟨rfl, rfl, Iff.rfl⟩

/-- **A directory without a mark is opened** if its files are good. -/
theorem mem_opened {store : IndexStore S} {name : Bytes}
    {directory : Directory} {index : MMapIndex} (hpending : name ∉ store.pending)
    (hdir : store.directories[name]? = some directory) (hload : loadIndex directory = some index) :
    (name, index) ∈ store.opened env := by
  have hrepaired : store.AgreesAt name (store.repairFlushes env) := by
    refine List.foldlRecOn (motive := store.AgreesAt name) _ _ ⟨rfl, rfl, Iff.rfl⟩
      fun s h name' hmem => h.trans (repairFlush_other env ?_ s)
    rintro rfl
    exact hpending (Std.ExtTreeSet.mem_toList.mp hmem)
  refine List.mem_filterMap.mpr ⟨(name, directory), ?_, ?_⟩
  · exact Std.ExtTreeMap.mem_toList_iff_getElem?_eq_some.mpr (hrepaired.directory.trans hdir)
  have hunmarked : (store.repairFlushes env).pending.contains name = false := by
    rw [← Bool.not_eq_true, Std.ExtTreeSet.contains_iff_mem, hrepaired.pending]
    exact hpending
  simp [hunmarked, hload]

end IndexStore

theorem InvertedIndex.foldl_install_collection {S : Type} (name : Bytes) :
    ∀ (opened : List (Bytes × MMapIndex)) (ix : InvertedIndex S),
      (opened.foldl (fun ix entry => ix.modify entry.1 fun c =>
          { c with mmapIndex := some entry.2 }) ix).collection name = ix.collection name ∨
        ∃ index, (name, index) ∈ opened ∧ (opened.foldl (fun ix entry => ix.modify entry.1 fun c =>
            { c with mmapIndex := some entry.2 }) ix).collection name =
            { ix.collection name with mmapIndex := some index }
  | [], _ => .inl rfl
  | entry :: opened, ix => by
    rw [List.foldl_cons]
    set ix₁ := ix.modify entry.1 fun c => { c with mmapIndex := some entry.2 } with hix₁
    have hmodify : ix₁.collection name = if name = entry.1 then
        { ix.collection entry.1 with mmapIndex := some entry.2 } else ix.collection name :=
      collection_modify ix entry.1 name _
    rcases foldl_install_collection name opened ix₁ with ih | ⟨index, hmem, ih⟩
    · rw [ih, hmodify]
      by_cases hname : name = entry.1
      · refine .inr ⟨entry.2, by simp [hname], ?_⟩
        rw [if_pos hname, hname]
      · exact .inl (if_neg hname)
    · refine .inr ⟨index, List.mem_cons_of_mem _ hmem, ?_⟩
      rw [ih, hmodify]
      split
      · rename_i hname
        rw [hname]
      · rfl

/-! ## The effect of a call -/

def Call.enters {S : Type} : Call S → Option (Bytes × Document)
  | .addDocument _ name doc => some (name, doc)
  | .updateDocument _ name _ newDoc _ => some (name, newDoc)
  | _ => none

def IsWritten {S : Type} (single : SinglePrecision S) (order : PostingSort S)
    (terms : ByteMap (List (Posting S))) (directory : Directory) : Prop :=
  lengthsFit terms = true ∧
    ∀ file payload, (file, payload) ∈ indexFiles (encodedTerms single order terms) →
      directory file = some (mmapFile file.magic payload)

theorem isWritten_writeItem {S : Type} {single : SinglePrecision S} {order : PostingSort S}
    {env : FlushSurroundings S} {item : FlushWorkItem S} {store : IndexStore S}
    (h : (store.writeItem single order env item).2 = true) :
    IsWritten single order item.indexSnapshot (store.writeItem single order env item).1 := by
  obtain ⟨terms, hget, hwritten⟩ := writeIndex_ok h
  rw [ByteMap.get_insert, if_pos rfl] at hget
  cases hget
  exact hwritten

section Effect

variable {S : Type} (single : SinglePrecision S) (order : PostingSort S) (ranking : Ranking S)

/-- **What a call can do to a collection** and to the history of its documents. -/
inductive Effect (t : Traced S) (name : Bytes) (call : Call S) :
    CollectionIndex S → (Bytes → Status) → Prop where
  | kept (c' : CollectionIndex S) (hindex : c'.index = (t.store.index.collection name).index)
      (hterms : c'.documentTerms = (t.store.index.collection name).documentTerms)
      (hsame : (t.store.index.collection name).SameSnapshot c') :
      Effect t name call c' (t.ledger name)
  | entered (doc : Document) (c' : CollectionIndex S) (hcall : call.enters = some (name, doc))
      (hindex : c'.index.isSome)
      (hterms : ∀ docId, c'.termsOf docId = if docId = doc.id then
        some (CollectionIndex.recordedTerms ranking name doc)
        else (t.store.index.collection name).termsOf docId)
      (hsame : (t.store.index.collection name).SameSnapshot c') :
      Effect t name call c' fun docId =>
        if docId = doc.id then .live doc else t.ledger name docId
  | removed (env : Surroundings S) (docId : Bytes) (c' : CollectionIndex S)
      (hcall : call = .deleteDocument env name docId)
      (hindex : (t.store.index.collection name).index = none → c'.index = none)
      (hterms : ∀ docId', c'.termsOf docId' = if docId' = docId then none
        else (t.store.index.collection name).termsOf docId')
      (hsame : (t.store.index.collection name).SameSnapshot c') :
      Effect t name call c' fun docId' =>
        if docId' = docId then .deleted else t.ledger name docId'
  | dropped : Effect t name call .empty fun _ => .unknown
  | cleared : Effect t name call .empty (t.ledger name)
  | flushed (env : FlushSurroundings S) (minAge maxCollections : Nat)
      (hcall : call = .flushToDisk env minAge maxCollections)
      (terms : ByteMap (List (Posting S))) (c' : CollectionIndex S)
      (hmemory : (t.store.index.collection name).index = some terms)
      (hdeferred : (t.store.index.collection name).isDeferred = false)
      (hindex : c'.index = some terms)
      (hterms : c'.documentTerms = (t.store.index.collection name).documentTerms)
      (hflush : c'.lastFlush.isSome)
      (hmmap : c'.mmapIndex = (t.store.index.collection name).mmapIndex ∨
        ∃ directory, IsWritten single order terms directory ∧ c'.mmapIndex = loadIndex directory) :
      Effect t name call c' (t.ledger name)
  | loaded (env : LoadSurroundings S) (index : MMapIndex) (hcall : call = .loadFromDisk env)
      (hopened : (name, index) ∈ t.store.opened env) :
      Effect t name call { t.store.index.collection name with mmapIndex := some index }
        (t.ledger name)
  | evicted (c' : CollectionIndex S) (statuses : Bytes → Status)
      (h : Effect t name call c' statuses) : Effect t name call c'.unload statuses

variable {single order ranking}

variable {t : Traced S} {name : Bytes} {call : Call S}

theorem Effect.unchanged :
    Effect single order ranking t name call (t.store.index.collection name) (t.ledger name) :=
  .kept _ rfl rfl ⟨rfl, rfl⟩

theorem Effect.evict {ix : InvertedIndex S} {statuses : Bytes → Status}
    (h : Effect single order ranking t name call (ix.collection name) statuses)
    (estimateMemory : Bytes → CollectionIndex S → Nat) (targetBytes : Nat) :
    Effect single order ranking t name call
      ((ix.evictLoadedCollections estimateMemory targetBytes).collection name) statuses := by
  rcases ix.evict_collection estimateMemory targetBytes name with he | he
  · rw [he]
    exact h
  · rw [he]
    exact h.evicted

theorem Effect.touched (name' : Bytes) (now : Nat) : Effect single order ranking t name call
      ((t.store.index.modify name' (.touch name' now)).collection name) (t.ledger name) := by
  rw [InvertedIndex.collection_modify]
  split
  · rename_i hname
    subst hname
    unfold CollectionIndex.touch
    split
    · exact .unchanged
    · exact .kept _ rfl rfl ⟨rfl, rfl⟩
  · exact .unchanged

theorem ledger_record (ledger : Ledger) (name name' docId : Bytes) (status : Status) :
    ledger.record name docId status name' =
      if name' = name then fun docId' => if docId' = docId then status else ledger name' docId'
      else ledger name' := by
  funext docId'
  unfold Ledger.record
  by_cases hname : name' = name <;> simp [hname]

section

variable (h : t.store.index.Invariant)
include h

/-- A change of a collection that was touched, and of the history of one of its documents. -/
theorem Effect.modified (now : Nat) {docId : Bytes} {status : Status}
    {f : CollectionIndex S → CollectionIndex S}
    (hf : ∀ c, c.Invariant → c.termsOf = (t.store.index.collection name).termsOf →
      c.index = (t.store.index.collection name).index →
      (t.store.index.collection name).SameSnapshot c →
      Effect single order ranking t name call (f c) fun docId' =>
        if docId' = docId then status else t.ledger name docId') (name' : Bytes) :
    Effect single order ranking t name' call
      (((t.store.index.modify name (.touch name now)).modify name f).collection name')
      (t.ledger.record name docId status name') := by
  have hinv := h.touch name now name
  rw [ledger_record, InvertedIndex.collection_modify]
  by_cases hname : name' = name
  · subst hname
    rw [if_pos rfl, if_pos rfl]
    rw [InvertedIndex.collection_modify, if_pos rfl] at hinv ⊢
    refine hf _ hinv ?_ ?_ ?_
    all_goals unfold CollectionIndex.touch; split
    all_goals first | rfl | exact ⟨rfl, rfl⟩
  · rw [if_neg hname, if_neg hname]
    exact .touched name now

/-- Replacing a document enters it in its collection, and keeps the others. -/
theorem Effect.replaced (env : Surroundings S) {doc : Document}
    (hcall : call.enters = some (name, doc)) (name' : Bytes) :
    Effect single order ranking t name' call
      ((t.store.index.replaced ranking env name doc).collection name')
      (t.ledger.record name doc.id (.live doc) name') := by
  refine Effect.modified h env.accessTime (fun c hinv htermsOf _ hsame => ?_) name'
  obtain ⟨hindex, hterms⟩ := CollectionIndex.termsOf_replaceDocument hinv ranking name doc
  rw [htermsOf] at hterms
  exact .entered doc _ hcall hindex hterms
    ((hsame.trans (CollectionIndex.sameSnapshot_removeDocument doc.id _)).trans
      (CollectionIndex.sameSnapshot_enterDocument ranking name doc _))

theorem Effect.delete (env : Surroundings S)
    (name docId name' : Bytes) :
    Effect single order ranking t name' (.deleteDocument env name docId)
      ((t.store.index.deleteDocument env name docId).collection name')
      (t.ledger.record name docId .deleted name') := by
  refine Effect.evict ?_ _ _
  refine Effect.modified h env.accessTime (fun c hinv htermsOf hindex hsame => ?_) name'
  refine .removed env docId _ rfl (fun hnone => ?_) ?_
    (hsame.trans (CollectionIndex.sameSnapshot_removeDocument docId _))
  · exact CollectionIndex.index_removeDocument_of_none (hindex.trans hnone) docId
  · rw [← htermsOf]
    exact (hinv.removeDocument docId).termsOf

end

theorem Effect.flush (env : FlushSurroundings S) (minAge maxCollections : Nat) (name : Bytes) :
    Effect single order ranking t name (.flushToDisk env minAge maxCollections)
      ((t.store.flushToDisk single order env minAge maxCollections).1.index.collection name)
      (t.ledger name) := by
  set items := t.store.index.flushWorkItems env minAge maxCollections with hitems
  have hloop : Effect single order ranking t name (.flushToDisk env minAge maxCollections)
      ((IndexStore.flushItems single order env items t.store).1.index.collection name)
      (t.ledger name) := by
    rcases IndexStore.flushItems_spec single order env name items t.store
      (InvertedIndex.nodup_flushWorkItems env minAge maxCollections _) with
      ⟨hagree, -⟩ | ⟨item, hmem, rfl, before, hbefore, hafter, -⟩
    · rw [hagree.collection]
      exact .unchanged
    · obtain ⟨hdeferred, hmemory⟩ := InvertedIndex.mem_flushWorkItems hmem
      rw [hafter.collection]
      have hc := hbefore.collection
      unfold IndexStore.flushItem
      dsimp only
      split
      · rename_i hok
        unfold InvertedIndex.finishFlush
        rw [InvertedIndex.collection_modify, if_pos rfl, hc]
        refine .flushed env minAge maxCollections rfl item.indexSnapshot _ hmemory hdeferred hmemory
          rfl rfl ?_
        cases hload : loadIndex (before.writeItem single order env item).1 with
        | none => exact .inl rfl
        | some index => exact .inr ⟨_, isWritten_writeItem hok, hload.symm⟩
      · rw [hc]
        exact .unchanged
  unfold IndexStore.flushToDisk
  dsimp only
  split
  · exact hloop
  · exact hloop.evict _ _

theorem Effect.load (env : LoadSurroundings S) (name : Bytes) :
    Effect single order ranking t name (.loadFromDisk env)
      ((t.store.loadFromDisk env).index.collection name) (t.ledger name) := by
  unfold IndexStore.loadFromDisk
  dsimp only
  split
  · rw [IndexStore.repairFlushes_index]
    exact .unchanged
  · refine Effect.evict ?_ _ _
    rw [IndexStore.removeMarked_index, IndexStore.repairFlushes_index]
    rcases InvertedIndex.foldl_install_collection name (t.store.opened env) t.store.index with
      he | ⟨index, hmem, he⟩
    · exact he ▸ .unchanged
    · exact he ▸ .loaded env index rfl hmem

/-- **Every call has one of these effects on every collection.** -/
theorem step_effect (h : t.store.index.Invariant) (call : Call S) (name : Bytes) :
    Effect single order ranking t name call
      ((t.step single order ranking call).store.index.collection name)
      ((t.step single order ranking call).ledger name) := by
  cases call with
  | addDocument env name' doc =>
    rcases InvertedIndex.addDocument_cases ranking env name' doc t.store.index with he | he | he
    · simp only [Traced.step, Traced.onIndex, he]
      exact .touched name' env.accessTime
    · simp only [Traced.step, Traced.onIndex, he]
      exact .replaced h env rfl name
    · simp only [Traced.step, Traced.onIndex, he]
      exact (Effect.replaced h env rfl name).evict _ _
  | updateDocument env name' oldDoc newDoc sameId =>
    have he : t.store.index.updateDocument ranking env name' oldDoc newDoc =
        (t.store.index.replaced ranking env name' newDoc).evictLoadedCollections
          env.estimateMemory maxMemoryBytes := by
      unfold InvertedIndex.updateDocument InvertedIndex.replaced
      rw [sameId]
    simp only [Traced.step, Traced.onIndex, he]
    exact (Effect.replaced h env rfl name).evict _ _
  | deleteDocument env name' docId => exact Effect.delete h env name' docId name
  | deleteCollection name' deletesMark =>
    change Effect single order ranking t name _
      (((t.store.index.erase name')[name]?).getD CollectionIndex.empty)
      (fun docId => if name = name' then .unknown else t.ledger name docId)
    rw [ByteMap.get_erase]
    by_cases hname : name = name'
    · simp only [hname, if_true]
      exact .dropped
    · simp only [hname, if_false]
      exact .unchanged
  | clear => exact .cleared
  | search name' now => exact .touched name' now
  | evict estimateMemory maxBytes => exact Effect.unchanged.evict _ _
  | flushToDisk env minAge maxCollections => exact .flush env minAge maxCollections name
  | loadFromDisk env => exact .load env name

end Effect

/-! ## The maps of the index agree in every run -/

namespace Traced

variable {S : Type} (single : SinglePrecision S) (order : PostingSort S) (ranking : Ranking S)

theorem invariant_flushItems (env : FlushSurroundings S) :
    ∀ (items : List (FlushWorkItem S)) {store : IndexStore S}, store.index.Invariant →
      (IndexStore.flushItems single order env items store).1.index.Invariant
  | [], _, h => h
  | item :: items, store, h => by
    have hitem : (store.flushItem single order env item).1.index.Invariant := by
      unfold IndexStore.flushItem
      dsimp only
      split
      · exact h.modify item.collection fun hc => hc.congr rfl rfl rfl rfl rfl
      · exact h
    exact invariant_flushItems env items hitem

theorem invariant_step {t : Traced S} (h : t.store.index.Invariant) (call : Call S) :
    (t.step single order ranking call).store.index.Invariant := by
  cases call with
  | addDocument env name doc =>
    have := h.step ranking (.addDocument env name doc)
    unfold step
    dsimp only
    split <;> exact this
  | updateDocument env name oldDoc newDoc sameId =>
    exact h.step ranking (.updateDocument env name oldDoc newDoc sameId)
  | deleteDocument env name docId => exact h.step ranking (.deleteDocument env name docId)
  | deleteCollection name deletesMark => exact h.step ranking (.deleteCollection name)
  | clear => exact h.step ranking .clear
  | search name now => exact h.touch name now
  | evict estimateMemory maxBytes => exact h.step ranking (.evict estimateMemory maxBytes)
  | flushToDisk env minAge maxCollections =>
    have hloop := invariant_flushItems single order env
      (t.store.index.flushWorkItems env minAge maxCollections) h
    unfold step IndexStore.flushToDisk
    dsimp only
    split
    · exact hloop
    · exact hloop.evict _ _
  | loadFromDisk env =>
    unfold step IndexStore.loadFromDisk
    dsimp only
    split
    · rw [IndexStore.repairFlushes_index]
      exact h
    · rw [IndexStore.removeMarked_index, IndexStore.repairFlushes_index]
      exact h.step ranking (.installLoaded ⟨0, 0, env.estimateMemory⟩ (t.store.opened env))

end Traced

end Hlquery.Index
