import Hlquery.Index.Deletions

/-!
# Flushed documents

A flush writes what is in memory, and what it writes takes the place of the whole snapshot. It keeps
every indexed document only if all of them are in memory. Two ways lead away from that. After a load
the documents of the snapshot are not in memory; the flush then sees a mapped snapshot that this
process has not written, and defers the collection. After an eviction they are not in memory either,
but the mapping and the time of the last flush went with them, and nothing is left to see: the next
document that is added is alone in memory, and the next flush writes it over all others.

**As long as no document is entered into a collection that is neither in memory nor mapped while it
has other documents, a flush writes every indexed document with all its terms**
(`flush_keeps_documents`). What carries the proof is that a collection is complete in memory, or is
deferred, or has no postings to flush (`Covered`).
-/

set_option autoImplicit false

namespace Hlquery.Index

open Bytes

theorem ne_nil_of_mem_postings {S : Type} (ranking : Ranking S) (name : Bytes) (doc : Document)
    {term : Bytes} (h : term ∈ (doc.postings ranking name).map Prod.fst) : term ≠ [] := by
  obtain ⟨entry, hentry, rfl⟩ := List.mem_map.mp h
  unfold Document.postings Document.plainPostings Document.scopedPostings at hentry
  simp only [List.mem_append, List.mem_map, List.mem_flatMap] at hentry
  rcases hentry with ⟨term, hterm, rfl⟩ | ⟨field, -, term, -, rfl⟩
  · have hall := mem_ofList.mp hterm
    unfold Document.allTermsList at hall
    simp only [List.mem_append, List.mem_flatMap] at hall
    rcases hall with ((h | h) | h) | ⟨field, -, h⟩
    all_goals exact ne_nil_of_mem_extractTerms h
  · simp [buildFieldScopedTerm]

namespace Traced

variable {S : Type} (single : SinglePrecision S) (order : PostingSort S) (ranking : Ranking S)

/-- **The condition.** A document is entered into a collection that is neither in memory nor mapped
only if the collection has no other document. -/
def EntersResident (t : Traced S) (call : Call S) : Prop :=
  ∀ (name : Bytes) (doc : Document), call.enters = some (name, doc) →
    (t.store.index.collection name).index = none →
    (t.store.index.collection name).mmapIndex = none →
    ∀ (docId : Bytes) (doc' : Document), t.ledger name docId ≠ .live doc'

/-- All documents are in memory with their terms, or the collection will not be flushed. -/
def Covered (name : Bytes) (c : CollectionIndex S) (statuses : Bytes → Status) : Prop :=
  (∀ docId doc, statuses docId = .live doc →
    c.termsOf docId = some (CollectionIndex.recordedTerms ranking name doc)) ∨
  (c.lastFlush = none ∧ (c.mmapIndex.isSome ∨ c.index = none))

variable {single order ranking}

variable {name : Bytes} {store : IndexStore S} {env : FlushSurroundings S}
  {minAge maxCollections : Nat}

theorem Covered.effect {t : Traced S}
    (h : Covered ranking name (t.store.index.collection name) (t.ledger name)) {call : Call S}
    (hcall : t.EntersResident call) {c' : CollectionIndex S} {statuses : Bytes → Status}
    (heffect : Effect single order ranking t name call c' statuses) :
    Covered ranking name c' statuses := by
  induction heffect with
  | kept c' hindex hterms hsame =>
    rcases h with h | ⟨hflush, h⟩
    · refine .inl fun docId doc hd => ?_
      unfold CollectionIndex.termsOf
      rw [hterms]
      exact h docId doc hd
    · exact .inr ⟨hsame.2.trans hflush, by rw [hsame.1, hindex]; exact h⟩
  | entered doc c' henters hindex hterms hsame =>
    have hcomplete : (∀ docId doc', t.ledger name docId = .live doc' →
        (t.store.index.collection name).termsOf docId =
          some (CollectionIndex.recordedTerms ranking name doc')) →
        Covered ranking name c' fun docId =>
          if docId = doc.id then .live doc else t.ledger name docId := by
      intro h
      refine .inl fun docId doc' hd => ?_
      rw [hterms]
      by_cases he : docId = doc.id
      · simp only [he, if_true, Status.live.injEq] at hd ⊢
        rw [hd]
      · simp only [he, if_false] at hd ⊢
        exact h docId doc' hd
    rcases h with h | ⟨hflush, hmmap | hnone⟩
    · exact hcomplete h
    · exact .inr ⟨hsame.2.trans hflush, .inl (by rw [hsame.1]; exact hmmap)⟩
    -- the collection is not in memory: it is mapped, or this is its only document
    cases hm : (t.store.index.collection name).mmapIndex with
    | some index => exact .inr ⟨hsame.2.trans hflush, .inl (by rw [hsame.1, hm]; rfl)⟩
    | none =>
      refine hcomplete fun docId doc' hd => ?_
      exact absurd hd (hcall name doc henters hnone hm docId doc')
  | removed env docId c' heq hindex hterms hsame =>
    rcases h with h | ⟨hflush, hmmap | hnone⟩
    · refine .inl fun docId' doc hd => ?_
      dsimp only at hd
      rw [hterms]
      by_cases he : docId' = docId
      · rw [if_pos he] at hd
        cases hd
      · rw [if_neg he] at hd ⊢
        exact h docId' doc hd
    · exact .inr ⟨hsame.2.trans hflush, .inl (by rw [hsame.1]; exact hmmap)⟩
    · exact .inr ⟨hsame.2.trans hflush, .inr (hindex hnone)⟩
  | dropped => exact .inl fun docId doc hd => nomatch hd
  | cleared => exact .inr ⟨rfl, .inr rfl⟩
  | flushed env minAge maxCollections heq terms c' hmemory hdeferred hindex hterms hflush hmmap =>
    rcases h with h | ⟨hflushed, hmapped | hnone⟩
    · refine .inl fun docId doc hd => ?_
      unfold CollectionIndex.termsOf
      rw [hterms]
      exact h docId doc hd
    · -- such a collection is deferred
      unfold CollectionIndex.isDeferred at hdeferred
      rw [hmapped, hflushed] at hdeferred
      cases hdeferred
    · rw [hmemory] at hnone
      cases hnone
  | loaded env index heq hopened =>
    rcases h with h | ⟨hflush, -⟩
    · exact .inl h
    · exact .inr ⟨hflush, .inl rfl⟩
  | evicted c' statuses heffect ih => exact .inr ⟨rfl, .inr rfl⟩

/-- The sizes that the files have room for. -/
def FitsFiles (single : SinglePrecision S) (order : PostingSort S)
    (terms : ByteMap (List (Posting S))) : Prop :=
  terms.size < 2 ^ 32 ∧ ∀ (term : Bytes) (postings : List (Posting S)),
    terms[term]? = some postings → (writePostings single order postings).length < 2 ^ 32

theorem fitsFiles_of_all {c : CollectionIndex S} {terms : ByteMap (List (Posting S))}
    (h : c.index = some terms)
    (hall : c.index.all (fun terms => terms.size < 2 ^ 32 ∧ ∀ entry ∈ terms.toList,
      (writePostings single order entry.2).length < 2 ^ 32) = true) :
    FitsFiles single order terms := by
  rw [h, Option.all_some, decide_eq_true_eq] at hall
  exact ⟨hall.1, fun term postings hget => hall.2 (term, postings)
    (Std.ExtTreeMap.mem_toList_iff_getElem?_eq_some.mpr hget)⟩

section

variable (h : name ∈ (store.flushToDisk single order env minAge maxCollections).2)
include h

/-- A collection that a flush reports was written as one of its work items. Eviction, which may follow,
touches neither the directories nor the marks. -/
theorem flushed_item :
    ∃ item ∈ store.index.flushWorkItems env minAge maxCollections, item.collection = name ∧
      ∃ before written, store.AgreesAt name before ∧
        (before.writeItem single order env item).2 = true ∧
        (before.flushItem single order env item).1.AgreesAt name written ∧
        (store.flushToDisk single order env minAge maxCollections).1 = { written with
            index := written.index.evictLoadedCollections env.estimateMemory maxMemoryBytes } := by
  set items := store.index.flushWorkItems env minAge maxCollections with hitems
  have hnames : (store.flushToDisk single order env minAge maxCollections).2 =
      (IndexStore.flushItems single order env items store).2 := by
    unfold IndexStore.flushToDisk
    dsimp only
    split <;> rfl
  rw [hnames] at h
  rcases IndexStore.flushItems_spec single order env name items store
    (InvertedIndex.nodup_flushWorkItems env minAge maxCollections _) with
    ⟨-, hnot⟩ | ⟨item, hmem, rfl, before, hbefore, hafter, hflushed⟩
  · exact absurd h hnot
  refine ⟨item, hmem, rfl, before, _, hbefore, ?_, hafter, ?_⟩
  · have := hflushed.mp h
    unfold IndexStore.flushItem at this
    dsimp only at this
    split at this
    · assumption
    · cases this
  · unfold IndexStore.flushToDisk
    dsimp only
    rw [if_neg (List.ne_nil_of_mem h)]

theorem flushed_directory
    (hmark : env.deletesMark name = true) :
    ∃ terms directory, (store.index.collection name).index = some terms ∧
      (store.index.collection name).isDeferred = false ∧ IsWritten single order terms directory ∧
      (store.flushToDisk single order env minAge maxCollections).1.directories[name]? =
        some directory ∧
      name ∉ (store.flushToDisk single order env minAge maxCollections).1.pending := by
  obtain ⟨item, hmem, rfl, before, written, -, hok, hafter, heq⟩ := flushed_item h
  obtain ⟨hdeferred, hmemory⟩ := InvertedIndex.mem_flushWorkItems hmem
  rw [heq]
  refine ⟨item.indexSnapshot, (before.writeItem single order env item).1, hmemory, hdeferred,
    isWritten_writeItem hok, ?_, ?_⟩
  · rw [hafter.directory]
    unfold IndexStore.flushItem
    simp only [hok, if_true]
    rw [ByteMap.get_insert, if_pos rfl]
  · rw [hafter.pending]
    unfold IndexStore.flushItem
    simp [hok, hmark]

/-- **What a flush makes of a collection that it reports**: the snapshot that was written is mapped,
and the collection may then be evicted. -/
theorem flushed_collection
    :
    ∃ terms directory dirty, (store.index.collection name).index = some terms ∧
      IsWritten single order terms directory ∧
      ∃ c' : CollectionIndex S, c' = { store.index.collection name with
          mmapIndex := (loadIndex directory).or (store.index.collection name).mmapIndex
          dirty := dirty
          lastFlush := some (env.flushTime name) } ∧
        ((store.flushToDisk single order env minAge maxCollections).1.index.collection name = c' ∨
          (store.flushToDisk single order env minAge maxCollections).1.index.collection name =
            c'.unload) := by
  obtain ⟨item, hmem, rfl, before, written, hbefore, hok, hafter, heq⟩ := flushed_item h
  obtain ⟨-, hmemory⟩ := InvertedIndex.mem_flushWorkItems hmem
  have hcollection : written.index.collection item.collection =
      { store.index.collection item.collection with
        mmapIndex := (loadIndex (before.writeItem single order env item).1).or
          (store.index.collection item.collection).mmapIndex
        dirty := (store.index.collection item.collection).dirty &&
          (store.index.collection item.collection).lastMutation.any fun mutation =>
            item.mutationTime < mutation
        lastFlush := some (env.flushTime item.collection) } := by
    rw [hafter.collection]
    unfold IndexStore.flushItem
    simp only [hok, if_true]
    unfold InvertedIndex.finishFlush
    rw [InvertedIndex.collection_modify, if_pos rfl, hbefore.collection]
  refine ⟨item.indexSnapshot, (before.writeItem single order env item).1, _, hmemory,
    isWritten_writeItem hok, _, hcollection, ?_⟩
  rw [heq]
  exact written.index.evict_collection env.estimateMemory maxMemoryBytes item.collection

end

/-- **A flush keeps every indexed document.** In every run whose calls meet the condition, the files
that a flush has written are opened by the next load, and each document that is indexed and not
deleted is found in them by each of its terms. -/
theorem flush_keeps_documents (calls : List (Call S))
    (hmeet : AllMeet single order ranking EntersResident (start ∅ ∅) calls)
    (env : FlushSurroundings S) (minAge maxCollections : Nat) (name : Bytes)
    (hflushed : name ∈ (((start ∅ ∅).run single order ranking calls).store.flushToDisk single order
      env minAge maxCollections).2)
    (hmark : env.deletesMark name = true)
    (hfits : ∀ terms, (((start ∅ ∅).run single order ranking calls).store.index.collection
      name).index = some terms → FitsFiles single order terms) (loading : LoadSurroundings S) :
    ∃ index, (name, index) ∈ (((start ∅ ∅).run single order ranking calls).store.flushToDisk single
        order env minAge maxCollections).1.opened loading ∧
      ∀ docId doc, ((start ∅ ∅).run single order ranking calls).ledger name docId = .live doc →
        ∀ term ∈ (doc.postings ranking name).map Prod.fst,
          ∃ post ∈ index.searchTerm single term, post.documentId = docId := by
  have hstart : (start ∅ ∅ : Traced S).store.index.Invariant ∧
      ∀ name, Covered ranking name ((start ∅ ∅ : Traced S).store.index.collection name)
        ((start ∅ ∅ : Traced S).ledger name) := by
    refine ⟨fun _ => CollectionIndex.invariant_empty, fun name => .inl fun docId doc hd => ?_⟩
    simp [start] at hd
  obtain ⟨hinv, hcovered⟩ := run_keeps (P := fun t => t.store.index.Invariant ∧
      ∀ name, Covered ranking name (t.store.index.collection name) (t.ledger name))
    (fun t call h hcall => ⟨invariant_step single order ranking h.1 call,
      fun name => (h.2 name).effect hcall (step_effect h.1 call name)⟩)
    calls _ hstart hmeet
  set t := (start ∅ ∅).run single order ranking calls with ht
  obtain ⟨terms, directory, hmemory, hdeferred, ⟨hfit, hdir⟩, hget, hpending⟩ :=
    flushed_directory hflushed hmark
  obtain ⟨hcount, hlen⟩ := hfits terms hmemory
  obtain ⟨index, hload, hsearch⟩ := searchTerm_indexFiles hfit hcount hlen hdir
  refine ⟨index, IndexStore.mem_opened loading hpending hget hload, ?_⟩
  intro docId doc hlive term hterm
  -- the collection is flushed, so it was complete
  have hterms : (t.store.index.collection name).termsOf docId =
      some (CollectionIndex.recordedTerms ranking name doc) := by
    rcases hcovered name with h | ⟨hflush, hmapped | hnone⟩
    · exact h docId doc hlive
    · unfold CollectionIndex.isDeferred at hdeferred
      rw [hmapped, hflush] at hdeferred
      cases hdeferred
    · rw [hmemory] at hnone
      cases hnone
  have hrecorded : (t.store.index.collection name).Recorded term docId := by
    refine ⟨_, hterms, ?_⟩
    unfold CollectionIndex.recordedTerms
    simpa using hterm
  -- hence there is a posting, and it was written
  obtain ⟨post, hpost, hid⟩ := (hinv name).toConsistent.posting_of_recorded hrecorded
  unfold CollectionIndex.postingsOf at hpost
  rw [hmemory, Option.getD_some] at hpost
  cases hpostings : terms[term]? with
  | none => rw [hpostings] at hpost; cases hpost
  | some postings =>
    rw [hpostings, Option.getD_some] at hpost
    have hshort : term.length < 2 ^ 31 := by
      have := List.all_eq_true.mp hfit (term, postings)
        (Std.ExtTreeMap.mem_toList_iff_getElem?_eq_some.mpr hpostings)
      simp only [Bool.and_eq_true, decide_eq_true_eq] at this
      omega
    refine ⟨rounded single post, ?_, hid⟩
    rw [hsearch term hshort, if_neg (ne_nil_of_mem_postings ranking name doc hterm), hpostings,
      Option.getD_some]
    exact List.mem_map_of_mem ((order.perm postings).mem_iff.mpr hpost)

end Traced

/-! ### A document that is added after an eviction -/

def Status.isLive : Status → Bool
  | .live _ => true
  | _ => false

def goodLoad : LoadSurroundings Nat := ⟨fun _ => none, fun _ => true, true, fun _ _ => 1⟩

def oneDocument : List (Call Nat) :=
  [.addDocument smallSurroundings (lit "c") (titled (lit "d") (lit "word"))]

theorem flush_keeps_oneDocument :
    ∃ index, (lit "c", index) ∈ (((Traced.start ∅ ∅).run bitScores (insertionOrder Nat) unitRanking
        oneDocument).store.flushToDisk bitScores (insertionOrder Nat) goodFlush 0 0).1.opened
          goodLoad ∧
      ∀ docId doc, ((Traced.start ∅ ∅).run bitScores (insertionOrder Nat) unitRanking
        oneDocument).ledger (lit "c") docId = .live doc →
        ∀ term ∈ (doc.postings unitRanking (lit "c")).map Prod.fst,
          ∃ post ∈ index.searchTerm bitScores term, post.documentId = docId := by
  refine Traced.flush_keeps_documents oneDocument ⟨?_, trivial⟩ goodFlush 0 0 (lit "c")
    (by decide +kernel) rfl ?_ goodLoad
  · intro name doc _ _ _ docId doc' h
    simp [Traced.start] at h
  · intro terms hterms
    exact Traced.fitsFiles_of_all hterms (by decide +kernel)

def evictedThenEntered : Traced Nat :=
  (Traced.start ∅ ∅).run bitScores (insertionOrder Nat) unitRanking
    [.addDocument smallSurroundings (lit "c") (titled (lit "d") (lit "word")),
      .flushToDisk goodFlush 0 0,
      .evict (fun _ _ => 10) 5,
      .addDocument smallSurroundings (lit "c") (titled (lit "e") (lit "other"))]

/-- The second document is written over the first, which is then found by none of its terms. -/
theorem evictedThenEntered_lost : (evictedThenEntered.ledger (lit "c") (lit "d")).isLive = true ∧
      (evictedThenEntered.store.flushToDisk bitScores (insertionOrder Nat) goodFlush 0 0).2 =
        [lit "c"] ∧
      (((evictedThenEntered.store.flushToDisk bitScores (insertionOrder Nat) goodFlush 0
        0).1.opened goodLoad).map fun entry => (entry.2.searchTerm bitScores (lit "word"),
          (entry.2.searchTerm bitScores (lit "other")).map Posting.documentId)) =
        [(([] : List (Posting Nat)), [lit "e"])] := by
  decide +kernel

end Hlquery.Index
