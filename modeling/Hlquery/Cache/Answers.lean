import Hlquery.Cache.Freshness
import Hlquery.Cache.Searches

/-!
# Searches answered from the cache

Three things go wrong. The key of a request does not tell every two searches apart: parameters are
joined with `&` and `=` as they are, and the header that keeps a search from being passed on to other
nodes is not in it. An alias that is given another target invalidates nothing, and where the
generations of the two targets are the same the answer of the old one is served
(`retargetedAlias_serves_old`). And the index of a large collection is built in the background, which
invalidates nothing either. In a run without these **a cached answer is one that the same search gives
now without the cache** (`cached_answer`).

Two facts carry this. An entry in the cache answers its request from its collection as it is now,
because whatever changes the collection takes the entry out. And the name in the request still leads
to that collection, unless it has become the name of a collection of its own, whose generation is then
newer than that of the entry (`Leads`).
-/

set_option autoImplicit false

namespace Hlquery.Cache

open Bytes Http

/-! ## What the operations do to the entries -/

theorem ResponseCache.entries_put {platform : Platform} {c : ResponseCache} {now : Nat}
    {key collection k : Bytes} {response : HttpResponse} {expectedGeneration : Nat}
    {entry : CacheEntry}
    (h : (c.put platform now key collection response expectedGeneration).entries[k]? = some entry) :
    (k = key ∧ entry.response = response.marked (lit "stored") ∧ entry.collection = collection) ∨
    (∃ old, c.entries[k]? = some old ∧ Matches entry old) := by
  unfold put at h
  split at h
  · obtain ⟨added, hadded, hm⟩ :=
      ((Weakens.trimLocked _).trans (Weakens.compactOrderLocked _)).entry k entry h
    rw [ByteMap.get_insert] at hadded
    by_cases hk : k = key
    · rw [if_pos hk] at hadded
      cases hadded
      exact Or.inl ⟨hk, hm.response, hm.collection⟩
    · rw [if_neg hk, entries_removeKeyLocked, if_neg hk] at hadded
      exact Or.inr ⟨added, hadded, hm⟩
  · exact Or.inr ⟨entry, h, .refl _⟩

theorem ResponseCache.generation_put (platform : Platform) (c : ResponseCache) (now : Nat)
    (key collection : Bytes) (response : HttpResponse) (expectedGeneration : Nat) (d : Bytes) :
    (c.put platform now key collection response expectedGeneration).currentGenerationLocked d =
      c.currentGenerationLocked d := by
  unfold put
  split
  · rw [((Weakens.trimLocked _).trans (Weakens.compactOrderLocked _)).currentGenerationLocked]
    exact (Weakens.removeKeyLocked { c with orderClock := next c.orderClock } key)
      |>.currentGenerationLocked d
  · rfl

namespace Node

variable {C : Type} {engine : SearchEngine C}

/-! ## Where a name leads -/

/-- A name leads to a collection, over a number of aliases. Where it has become a collection of its own
since, the generation of that collection is past a bound. -/
inductive Leads (node : Node C) (collection : Bytes) (bound : Nat) : Bytes → Nat → Prop
  | here : Leads node collection bound collection 0
  | through {name target : Bytes} {n : Nat} (hname : name ≠ [])
      (halias : node.aliases[name]? = some target)
      (hlater : node.collections.contains name = true →
        bound < node.history.cache.currentGenerationLocked name)
      (htarget : Leads node collection bound target n) : Leads node collection bound name (n + 1)

theorem collectionExists_catalog (node : Node C) (name : Bytes) :
    node.catalog.collectionExists name = node.collections.contains name := by
  unfold Catalog.collectionExists catalog
  rw [Bool.eq_iff_iff, List.contains_iff_mem, Std.ExtTreeMap.mem_keys,
    Std.ExtTreeMap.contains_iff_mem]

variable {node : Node C} {collection name : Bytes} {content : C}

/-- Resolving a name twice follows up to two aliases. -/
theorem Leads.resolved {bound n : Nat} (h : Leads node collection bound name n) (hn : n ≤ 2)
    (hcollection : collection ≠ []) (hexists : node.collections.contains collection = true) :
    let resolved := node.catalog.resolveCollectionName (node.catalog.resolveCollectionName name)
    resolved = collection ∨ bound < node.history.cache.currentGenerationLocked resolved := by
  have hself : ∀ {m : Bytes}, m ≠ [] → node.collections.contains m = true →
      node.catalog.resolveCollectionName m = m := by
    intro m hm hc
    unfold Catalog.resolveCollectionName
    rw [if_neg hm, collectionExists_catalog, if_pos hc]
  have hstep : ∀ {m t : Bytes}, m ≠ [] → node.aliases[m]? = some t →
      ¬ node.collections.contains m = true → node.catalog.resolveCollectionName m = t := by
    intro m t hm ht hc
    unfold Catalog.resolveCollectionName
    rw [if_neg hm, collectionExists_catalog, if_neg hc]
    change node.aliases[m]?.getD m = t
    rw [ht, Option.getD_some]
  intro resolved
  cases h with
  | here => exact Or.inl (by simp only [resolved, hself hcollection hexists])
  | through hname halias hlater htarget =>
    rename_i target n₁
    by_cases hc : node.collections.contains name = true
    · exact Or.inr (by simpa only [resolved, hself hname hc] using hlater hc)
    have hresolved : resolved = node.catalog.resolveCollectionName target := by
      simp [resolved, hstep hname halias hc]
    rw [hresolved]
    cases htarget with
    | here => exact Or.inl (hself hcollection hexists)
    | through hname' halias' hlater' htarget' =>
      by_cases hc' : node.collections.contains target = true
      · exact Or.inr (by simpa only [hself hname' hc'] using hlater' hc')
      rw [hstep hname' halias' hc']
      cases htarget' with
      | here => exact Or.inl rfl
      | through => omega

/-- What a name leads to stays what it leads to as long as its aliases stay and collections that are
created have newer generations. -/
theorem Leads.transfer {node' : Node C} {bound : Nat}
    (halias : ∀ {name target : Bytes}, node.aliases[name]? = some target →
      node'.aliases[name]? = some target)
    (hlater : ∀ {name : Bytes}, node'.collections.contains name = true →
      (node.collections.contains name = true ∧ node.history.cache.currentGenerationLocked name ≤
          node'.history.cache.currentGenerationLocked name) ∨
      bound < node'.history.cache.currentGenerationLocked name) :
    ∀ {name : Bytes} {n : Nat}, Leads node collection bound name n →
      Leads node' collection bound name n
  | _, _, .here => .here
  | _, _, .through hname ha hl ht => by
    refine .through hname (halias ha) (fun hc => ?_) (ht.transfer halias hlater)
    rcases hlater hc with ⟨hold, hmono⟩ | hnew
    · exact lt_of_lt_of_le (hl hold) hmono
    · exact hnew

theorem searchedCollection_eq (node : Node C) (request : SearchRequest) :
    node.searchedCollection request = (namedCollection request.path).elim [] fun name =>
      node.catalog.resolveCollectionName (node.catalog.resolveCollectionName name) := by
  have hextract : extractCollectionFromPath node.catalog request.path =
      (namedCollection request.path).elim [] node.catalog.resolveCollectionName := by
    unfold extractCollectionFromPath namedCollection
    cases pathCollection (normalizePath request.path) with
    | none => rfl
    | some name =>
      dsimp only
      rw [Option.filter_some]
      generalize (contains name (lit "..") || contains name (lit "\\")) = bad
      cases bad <;> cases validateCollectionNameValue name <;> rfl
  have hnil : ∀ name : Bytes, (if name = [] then [] else name) = name := by
    intro name
    split
    · rename_i h; exact h.symm
    · rfl
  change node.catalog.resolveCollectionName
    (if extractCollectionFromPath node.catalog request.path = [] then []
      else extractCollectionFromPath node.catalog request.path) = _
  rw [hnil, hextract]
  cases namedCollection request.path with
  | none => rfl
  | some name => rfl

/-- One resolution of a name ends at the name or follows its alias. -/
theorem resolve_cases (node : Node C) (name : Bytes) :
    node.catalog.resolveCollectionName name = name ∨
      (name ≠ [] ∧ ¬ node.collections.contains name = true ∧
        node.aliases[name]? = some (node.catalog.resolveCollectionName name)) := by
  unfold Catalog.resolveCollectionName
  rw [collectionExists_catalog]
  by_cases hname : name = []
  · exact Or.inl (by rw [if_pos hname, hname])
  by_cases hc : node.collections.contains name = true
  · exact Or.inl (by rw [if_neg hname, if_pos hc])
  rw [if_neg hname, if_neg hc]
  change (node.aliases[name]?.getD name = name) ∨ _ ∧ _ ∧ node.aliases[name]? = _
  cases ha : node.aliases[name]? with
  | none => exact Or.inl rfl
  | some target => exact Or.inr ⟨hname, hc, by simp only [catalog, ha, Option.getD_some]⟩

theorem leads_resolved (node : Node C) (bound : Nat) (name : Bytes) :
    ∃ n ≤ 2, Leads node (node.catalog.resolveCollectionName
      (node.catalog.resolveCollectionName name)) bound name n := by
  generalize hfirst : node.catalog.resolveCollectionName name = first
  generalize hsecond : node.catalog.resolveCollectionName first = second
  have hone : ∀ {m t : Bytes}, node.catalog.resolveCollectionName m = t → m = t ∨
      ∀ {n : Nat}, Leads node second bound t n → Leads node second bound m (n + 1) := by
    intro m t hm
    rcases resolve_cases node m with hself | ⟨hname, hc, halias⟩
    · exact Or.inl (hself.symm.trans hm)
    · rw [hm] at halias
      exact Or.inr fun h => .through hname halias (fun hc' => absurd hc' hc) h
  rcases hone hfirst with rfl | hlead
  · rcases hone hsecond with rfl | hlead'
    · exact ⟨0, by omega, .here⟩
    · exact ⟨1, by omega, hlead' .here⟩
  · rcases hone hsecond with rfl | hlead'
    · exact ⟨1, by omega, hlead .here⟩
    · exact ⟨2, by omega, hlead (hlead' .here)⟩

/-! ## The invariant -/

/-- An entry answers its request from the collection as it is, and the name in the request leads to the
collection. -/
structure Answers (engine : SearchEngine C) (node : Node C) (entry : CacheEntry)
    (request : SearchRequest) : Prop where
  nonempty : entry.collection ≠ []
  content : ∃ content chance, node.collections[entry.collection]? = some content ∧
    entry.response = (engine.answer request entry.collection content chance).marked (lit "stored")
  leads : ∃ name n, namedCollection request.path = some name ∧ n ≤ 2 ∧
    Leads node entry.collection entry.collectionGeneration name n

structure Sound (engine : SearchEngine C) (node : Node C) : Prop where
  coherent : History.Coherent node.history
  answers : ∀ (key : Bytes) (entry : CacheEntry), node.history.cache.entries[key]? = some entry →
    ∃ request, node.requests[key]? = some request ∧ Answers engine node entry request

/-- The entry is written again, other collections change, aliases are added, and collections are
created with a newer generation. -/
theorem Answers.transfer {node' : Node C} {entry entry' : CacheEntry} {request : SearchRequest}
    (h : Answers engine node entry request) (hm : ResponseCache.Matches entry' entry)
    (hcontent : node'.collections[entry.collection]? = node.collections[entry.collection]?)
    (halias : ∀ {name target : Bytes}, node.aliases[name]? = some target →
      node'.aliases[name]? = some target)
    (hlater : ∀ {name : Bytes}, node'.collections.contains name = true →
      (node.collections.contains name = true ∧ node.history.cache.currentGenerationLocked name ≤
          node'.history.cache.currentGenerationLocked name) ∨
      entry.collectionGeneration < node'.history.cache.currentGenerationLocked name) :
    Answers engine node' entry' request := by
  obtain ⟨content, chance, hfound, hanswer⟩ := h.content
  obtain ⟨name, n, hname, hn, hleads⟩ := h.leads
  refine ⟨by rw [hm.collection]; exact h.nonempty, ⟨content, chance, ?_, ?_⟩, name, n, hname, hn, ?_⟩
  · rw [hm.collection, hcontent, hfound]
  · rw [hm.response, hm.collection, hanswer]
  · rw [hm.collection, hm.generation]
    exact hleads.transfer halias hlater

theorem Sound.weaken {history : History} (hs : Sound engine node) (hc : History.Coherent history)
    (hw : ResponseCache.Weakens node.history.cache history.cache) :
    Sound engine { node with history } where
  coherent := hc
  answers key entry' hentry' := by
    obtain ⟨entry, hentry, hm⟩ := hw.entry key entry' hentry'
    obtain ⟨request, hrequest, ha⟩ := hs.answers key entry hentry
    refine ⟨request, hrequest, ha.transfer hm rfl (fun h => h) fun hc => Or.inl ⟨hc, ?_⟩⟩
    exact (hw.currentGenerationLocked _).ge

theorem Sound.generation_le (hs : Sound engine node) {key : Bytes} {entry : CacheEntry}
    (h : node.history.cache.entries[key]? = some entry) :
    entry.collectionGeneration ≤ node.history.cache.mutationClock := by
  obtain ⟨stored, -, hb⟩ := hs.coherent.backed key entry h
  rw [hb.generation]
  exact hs.coherent.read_le stored.read hb.read

/-! ## Searches -/

/-- A search is answered at once, or after it has set the limits of the cache, or it goes on to look its
answer up. -/
theorem handleSearch_cases (engine : SearchEngine C) (node : Node C) (circumstances : Circumstances)
    (request : SearchRequest) :
    (∃ response, node.handleSearch engine circumstances request = (node, ⟨response, false⟩)) ∨
    let configured := node.onCache engine (.configure circumstances.ttlMS circumstances.maxSizeBytes)
    (∃ response, node.handleSearch engine circumstances request = (configured, ⟨response, false⟩)) ∨
    (engine.unreadable request = none ∧ engine.refused request = none ∧
      node.searchedCollection request ≠ [] ∧
      ∃ content, node.collections[node.searchedCollection request]? = some content ∧
        node.handleSearch engine circumstances request = configured.lookUpOrSearch engine
          circumstances request (node.searchedCollection request) content) := by
  unfold Node.handleSearch
  cases engine.unreadable request with
  | some error => exact Or.inl ⟨_, rfl⟩
  | none =>
    dsimp only
    cases node.collections[node.searchedCollection request]? with
    | none => exact Or.inl ⟨_, rfl⟩
    | some content =>
      dsimp only
      by_cases hcollection : node.searchedCollection request = []
      · exact Or.inl ⟨_, if_pos hcollection⟩
      rw [if_neg hcollection]
      cases engine.refused request with
      | some error => exact Or.inr (Or.inl ⟨_, rfl⟩)
      | none => exact Or.inr (Or.inr ⟨rfl, rfl, hcollection, content, rfl, rfl⟩)

theorem entries_get_of_miss {c : ResponseCache} {now : Nat} {key : Bytes}
    (h : (c.get now key collection).2 = none) :
    (c.get now key collection).1.entries[key]? = none := by
  unfold ResponseCache.get at h ⊢
  cases hentry : c.entries[key]? with
  | none => exact hentry
  | some entry =>
    rw [hentry] at h
    dsimp only at h ⊢
    split
    · rw [ResponseCache.entries_removeKeyLocked, if_pos rfl]
    rename_i hfresh
    rw [if_neg hfresh] at h
    cases h

/-- A `Put` that refers to a read changes no generation and adds at most one entry. -/
theorem cache_step_put (platform : Platform) (h : History) (now : Nat) (request : CachedRequest)
    (collection : Bytes) (response : HttpResponse) (number : Nat) :
    let cache := (h.step platform (.put now request collection response number)).cache
    (∀ d, cache.currentGenerationLocked d = h.cache.currentGenerationLocked d) ∧
    ∀ {k : Bytes} {entry : CacheEntry}, cache.entries[k]? = some entry →
      (k = buildKey platform request ∧ entry.response = response.marked (lit "stored") ∧
        entry.collection = collection) ∨
      ∃ old, h.cache.entries[k]? = some old ∧ ResponseCache.Matches entry old := by
  simp only [History.step, History.perform]
  cases h.reads[number]? with
  | none => exact ⟨fun _ => rfl, fun hentry => Or.inr ⟨_, hentry, .refl _⟩⟩
  | some read =>
    exact ⟨ResponseCache.generation_put _ _ _ _ _ _ _, ResponseCache.entries_put⟩

def Few (node : Node C) : Prop := node.history.invalidations.length < 2 ^ 64 - 1

/-- An operation that invalidates nothing keeps the history coherent. -/
theorem coherent_step {h : History} (hc : h.Coherent) (hfew : h.invalidations.length < 2 ^ 64 - 1)
    (platform : Platform) (operation : Operation) (hkind : operation.invalidates = false) :
    (h.step platform operation).Coherent ∧
      (h.step platform operation).invalidations.length < 2 ^ 64 - 1 := by
  have hlength := History.length_invalidations_step platform h operation
  rw [hkind, if_neg (by simp), Nat.add_zero] at hlength
  have hbound : (h.step platform operation).invalidations.length < 2 ^ 64 - 1 := hlength ▸ hfew
  exact ⟨hc.step platform operation hbound, hbound⟩

theorem Sound.store (hs : Sound engine node) (hfew : node.Few) (request : SearchRequest)
    (chance now number : Nat)
    (hgone : node.history.cache.entries[buildKey engine.platform request.cached]? = none)
    (hcollection : node.searchedCollection request ≠ [])
    (hcontent : node.collections[node.searchedCollection request]? = some content) :
    Sound engine { node with
      history := node.history.step engine.platform (.put now request.cached
        (node.searchedCollection request)
        (engine.answer request (node.searchedCollection request) content chance) number)
      requests := node.requests.insert (buildKey engine.platform request.cached) request } := by
  generalize hanswer : engine.answer request (node.searchedCollection request) content chance =
    response
  obtain ⟨hc, -⟩ := coherent_step hs.coherent hfew engine.platform (.put now request.cached
    (node.searchedCollection request) response number) rfl
  refine ⟨hc, fun k entry' hentry' => ?_⟩
  obtain ⟨hgeneration, hentries⟩ := cache_step_put engine.platform node.history now request.cached
    (node.searchedCollection request) response number
  rcases hentries hentry' with ⟨rfl, hresponse, hcol⟩ | ⟨old, hold, hm⟩
  · refine ⟨request, by dsimp only; rw [ByteMap.get_insert, if_pos rfl], ?_⟩
    have hnamed := searchedCollection_eq node request
    cases hname : namedCollection request.path with
    | none =>
      rw [hname] at hnamed
      exact absurd hnamed hcollection
    | some name =>
      rw [hname, Option.elim_some] at hnamed
      obtain ⟨n, hn, hleads⟩ := leads_resolved node entry'.collectionGeneration name
      rw [← hnamed] at hleads
      rw [← hcol] at hleads hcontent hanswer hcollection
      have ha : Answers engine node entry' request := ⟨hcollection,
        ⟨content, chance, hcontent, by rw [hanswer, hresponse]⟩, name, n, hname, hn, hleads⟩
      exact ha.transfer (.refl _) rfl (fun h => h) fun hx => Or.inl ⟨hx, (hgeneration _).ge⟩
  · have hk : k ≠ buildKey engine.platform request.cached := by
      rintro rfl
      rw [hgone] at hold
      cases hold
    obtain ⟨earlier, hearlier, ha⟩ := hs.answers k old hold
    refine ⟨earlier, by dsimp only; rw [ByteMap.get_insert, if_neg hk, hearlier], ?_⟩
    exact ha.transfer hm rfl (fun h => h) fun hx => Or.inl ⟨hx, (hgeneration _).ge⟩

theorem Sound.lookUpOrSearch (hs : Sound engine node) (hfew : node.Few)
    (circumstances : Circumstances) (request : SearchRequest)
    (hcollection : node.searchedCollection request ≠ [])
    (hcontent : node.collections[node.searchedCollection request]? = some content) :
    Sound engine (node.lookUpOrSearch engine circumstances request
      (node.searchedCollection request) content).1 := by
  unfold Node.lookUpOrSearch
  obtain ⟨hread, hfewRead⟩ := coherent_step hs.coherent hfew engine.platform
    (.getGeneration (node.searchedCollection request)) rfl
  have hsRead := hs.weaken hread (.refl _)
  dsimp only
  split
  · obtain ⟨hlooked, hfewLooked⟩ := coherent_step hread hfewRead engine.platform
      (.get circumstances.now request.cached (node.searchedCollection request)) rfl
    have hsLooked := hsRead.weaken hlooked (.get _ _ _ _)
    split
    · exact hsLooked
    · rename_i hmiss
      exact hsLooked.store hfewLooked request circumstances.chance circumstances.now _
        (entries_get_of_miss hmiss) hcollection hcontent
  · exact hsRead

theorem Sound.handleSearch (hs : Sound engine node) (hfew : node.Few)
    (circumstances : Circumstances) (request : SearchRequest) :
    Sound engine (node.handleSearch engine circumstances request).1 := by
  obtain ⟨hconfigured, hfewC⟩ := coherent_step hs.coherent hfew engine.platform
    (.configure circumstances.ttlMS circumstances.maxSizeBytes) rfl
  have hsC := hs.weaken hconfigured (.configure _ _ _)
  rcases handleSearch_cases engine node circumstances request with
    ⟨_, heq⟩ | ⟨_, heq⟩ | ⟨-, -, hcollection, content, hcontent, heq⟩
  · exact heq ▸ hs
  · exact heq ▸ hsC
  · exact heq ▸ hsC.lookUpOrSearch hfewC circumstances request hcollection hcontent

/-! ## The other events -/

theorem Sound.invalidate {history : History} {collections : ByteMap C} {reached : Bytes → Prop}
    (hs : Sound engine node) (hc : history.Coherent)
    (hi : ResponseCache.Invalidates node.history.cache history.cache reached)
    (hsame : ∀ name : Bytes, ¬ reached name → collections[name]? = node.collections[name]?) :
    Sound engine { node with history, collections } where
  coherent := hc
  answers key entry' hentry' := by
    obtain ⟨⟨entry, hentry, hm⟩, hunreached⟩ := hi.entry key entry' hentry'
    obtain ⟨request, hrequest, ha⟩ := hs.answers key entry hentry
    rw [hm.collection] at hunreached
    refine ⟨request, hrequest, ha.transfer hm (hsame _ hunreached) (fun h => h) ?_⟩
    intro name hname
    by_cases hreached : reached name
    · -- the new generation is past that of every entry
      rw [hi.fresh name hreached]
      exact Or.inr (Nat.lt_succ_of_le (hs.generation_le hentry))
    · refine Or.inl ⟨?_, hi.mono name⟩
      rw [Std.ExtTreeMap.contains_eq_isSome_getElem?] at hname ⊢
      rw [← hsame name hreached]
      exact hname

theorem collections_setContent (node : Node C) (name d : Bytes) (content : Option C) (hne : d ≠ name) :
    (node.setContent name content).collections[d]? = node.collections[d]? := by
  cases content with
  | none => exact (ByteMap.get_erase _ _ _).trans (if_neg hne)
  | some content => exact (ByteMap.get_insert _ _ _ _).trans (if_neg hne)

theorem Sound.change (hs : Sound engine node)
    (hfew : node.history.invalidations.length + 1 < 2 ^ 64 - 1) (name : Bytes)
    (content : Option C) :
    Sound engine ((node.setContent name content).onCache engine (.invalidateCollection name)) := by
  have hi := hs.coherent.invalidatesCollection hfew name
  have hset : (node.setContent name content).onCache engine (.invalidateCollection name) =
      { node with
        history := node.history.step engine.platform (.invalidateCollection name)
        collections := (node.setContent name content).collections } := by
    cases content <;> rfl
  rw [hset]
  refine hs.invalidate (hs.coherent.step _ _ ?_) hi ?_
  · rw [History.length_invalidations_step]
    exact hfew
  · intro d hunreached
    refine collections_setContent node name d content ?_
    -- the collection of the change is reached, also where it has no name
    rintro rfl
    apply hunreached
    unfold Invalidation.reaches History.scopeOf
    by_cases hd : d = [] <;> simp [hd]

theorem Sound.invalidateAll (hs : Sound engine node)
    (hfew : node.history.invalidations.length + 1 < 2 ^ 64 - 1) (collections : ByteMap C)
    (aliases : ByteMap Bytes) :
    Sound engine ({ node with collections, aliases }.onCache engine .invalidateAll) := by
  have hi := hs.coherent.invalidatesAll hfew
  refine ⟨hs.coherent.step _ _ ?_, fun key entry hentry => ?_⟩
  · rw [History.length_invalidations_step]
    exact hfew
  · exact absurd trivial (hi.entry key entry hentry).2

theorem Sound.rearrange {collections : ByteMap C} {aliases : ByteMap Bytes} (hs : Sound engine node)
    (hcontains : ∀ name : Bytes, collections.contains name = node.collections.contains name)
    (hentry : ∀ (key : Bytes) (entry : CacheEntry) (request : SearchRequest),
      node.history.cache.entries[key]? = some entry → node.requests[key]? = some request →
        collections[entry.collection]? = node.collections[entry.collection]? ∧
        (namedCollection request.path = some entry.collection ∨
          ∀ {name target : Bytes}, node.aliases[name]? = some target →
            aliases[name]? = some target)) :
    Sound engine { node with collections, aliases } where
  coherent := hs.coherent
  answers key entry h := by
    obtain ⟨request, hrequest, ha⟩ := hs.answers key entry h
    obtain ⟨hcontent, hroute⟩ := hentry key entry request h hrequest
    refine ⟨request, hrequest, ?_⟩
    rcases hroute with hdirect | hkept
    · obtain ⟨content, chance, hfound, hanswer⟩ := ha.content
      exact ⟨ha.nonempty, ⟨content, chance, hcontent.trans hfound, hanswer⟩,
        entry.collection, 0, hdirect, Nat.zero_le 2, .here⟩
    · refine ha.transfer (.refl _) hcontent hkept fun {name} hname => Or.inl ⟨?_, Nat.le_refl _⟩
      rw [← hcontains name]
      exact hname

theorem Sound.upsertAlias (hs : Sound engine node) {target : Bytes}
    (hadmits : node.Admits engine (.upsertAlias name target)) :
    Sound engine { node with aliases := node.aliases.insert name target } := by
  refine hs.rearrange (fun _ => rfl) fun key entry request hentry hrequest => ⟨rfl, ?_⟩
  rcases hadmits with hnew | hsame | hdirect
  · refine Or.inr fun {n t} hn => ?_
    rw [ByteMap.get_insert, if_neg]
    · exact hn
    · rintro rfl
      rw [hnew] at hn
      cases hn
  · refine Or.inr fun {n t} hn => ?_
    rw [ByteMap.get_insert]
    by_cases h : n = name
    · rw [if_pos h, ← hn, h, hsame]
    · rw [if_neg h, hn]
  · exact Or.inl (hdirect key entry request hentry hrequest)

theorem Sound.indexProgress (hs : Sound engine node)
    (hadmits : node.Admits engine (.indexProgress name content))
    (hcontains : node.collections.contains name = true) :
    Sound engine (node.setContent name (some content)) := by
  refine hs.rearrange (fun d => ?_) fun key entry request hentry _ => ⟨?_, Or.inr fun h => h⟩
  · by_cases hd : compare name d = .eq
    · rw [← Std.LawfulEqCmp.compare_eq_iff_eq.mp hd, hcontains]
      simp
    · simp [hd]
  · exact collections_setContent node name _ (some content) (hadmits key entry hentry)

/-! ## Runs -/

theorem Sound.start (collections : ByteMap C) (aliases : ByteMap Bytes) :
    Sound engine (.start collections aliases) :=
  ⟨.start, fun key entry h => absurd h (by simp [Node.start, History.start, ResponseCache.initial])⟩

/-- **One event that is admitted keeps the invariant.** -/
theorem Sound.step (hs : Sound engine node) {event : Event C} (hadmits : node.Admits engine event)
    (hfew : node.history.invalidations.length + (if event.invalidates then 1 else 0) < 2 ^ 64 - 1) :
    Sound engine (node.step engine event) := by
  cases event with
  | change name content => exact hs.change hfew name content
  | upsertAlias name target =>
    simp only [Node.step]
    split
    · exact hs.upsertAlias hadmits
    · exact hs
  | indexProgress name content =>
    simp only [Node.step]
    split
    · rename_i hcontains
      exact hs.indexProgress hadmits hcontains
    · exact hs
  | flushAll => exact hs.invalidateAll hfew ∅ ∅
  | invalidateCollection name =>
    refine hs.invalidate (hs.coherent.step _ _ ?_) (hs.coherent.invalidatesCollection hfew name)
      fun _ _ => rfl
    rw [History.length_invalidations_step]
    exact hfew
  | invalidateAll => exact hs.invalidateAll hfew node.collections node.aliases
  | flushExpired now maxAgeMS =>
    obtain ⟨hc, -⟩ := coherent_step hs.coherent hfew engine.platform (.flushExpired now maxAgeMS) rfl
    exact hs.weaken hc (.flushExpired _ _ _)
  | search circumstances request => exact hs.handleSearch hfew circumstances request

theorem length_invalidations_handleSearch (node : Node C) (circumstances : Circumstances)
    (request : SearchRequest) :
    (node.handleSearch engine circumstances request).1.history.invalidations.length =
      node.history.invalidations.length := by
  rcases handleSearch_cases engine node circumstances request with
    ⟨_, heq⟩ | ⟨_, heq⟩ | ⟨-, -, -, content, -, heq⟩
  · rw [heq]
  · rw [heq]
    exact History.length_invalidations_step engine.platform _ _
  · rw [heq]
    unfold Node.lookUpOrSearch onCache
    dsimp only
    split
    · split <;> simp [History.length_invalidations_step, Operation.invalidates]
    · simp [History.length_invalidations_step, Operation.invalidates]

theorem length_invalidations_step (node : Node C) (event : Event C) :
    (node.step engine event).history.invalidations.length =
      node.history.invalidations.length + if event.invalidates then 1 else 0 := by
  cases event with
  | change name content =>
    cases content <;> exact History.length_invalidations_step engine.platform _ _
  | upsertAlias name target => simp only [Node.step]; split <;> rfl
  | indexProgress name content => simp only [Node.step]; split <;> rfl
  | flushAll => exact History.length_invalidations_step engine.platform _ _
  | invalidateCollection name => exact History.length_invalidations_step engine.platform _ _
  | invalidateAll => exact History.length_invalidations_step engine.platform _ _
  | flushExpired now maxAgeMS => exact History.length_invalidations_step engine.platform _ _
  | search circumstances request => exact length_invalidations_handleSearch node circumstances request

theorem Sound.run : ∀ (events : List (Event C)) (node : Node C), Sound engine node →
    node.AllAdmitted engine events →
    node.history.invalidations.length + events.countP Event.invalidates < 2 ^ 64 - 1 →
      Sound engine (node.run engine events)
  | [], _, hs, _, _ => hs
  | event :: events, node, hs, hadmitted, hfew => by
    rw [List.countP_cons] at hfew
    refine Sound.run events _ (hs.step hadmitted.1 ?_) hadmitted.2 ?_
    · omega
    · rw [length_invalidations_step]
      omega

/-! ## Answers from the cache -/

/-- An answer from the cache is an entry whose generation is current. -/
theorem handleSearch_fromCache {circumstances : Circumstances} {request : SearchRequest}
    (h : (node.handleSearch engine circumstances request).2.fromCache = true) :
    engine.unreadable request = none ∧ engine.refused request = none ∧
      node.searchedCollection request ≠ [] ∧
      ∃ entry, node.history.cache.entries[buildKey engine.platform request.cached]? = some entry ∧
        entry.collectionGeneration =
          node.history.cache.currentGenerationLocked (node.searchedCollection request) ∧
        (node.handleSearch engine circumstances request).2.response.body =
          if circumstances.tracing then engine.markCached entry.response.body
          else entry.response.body := by
  rcases handleSearch_cases engine node circumstances request with
    ⟨_, heq⟩ | ⟨_, heq⟩ | ⟨hreadable, haccepted, hcollection, content, -, heq⟩
  · rw [heq] at h; cases h
  · rw [heq] at h; cases h
  rw [heq] at h ⊢
  unfold Node.lookUpOrSearch at h ⊢
  dsimp only at h ⊢
  split at h
  · rename_i henabled
    rw [if_pos henabled]
    split at h
    · rename_i cached hget
      obtain ⟨entry', hentry', hcached, hgeneration⟩ := ResponseCache.get_eq_some hget
      -- setting the limits of the cache has lost entries at most
      have hw := ResponseCache.Weakens.configure node.history.cache circumstances.ttlMS
        circumstances.maxSizeBytes
      obtain ⟨entry, hentry, hm⟩ := hw.entry _ entry' hentry'
      refine ⟨hreadable, haccepted, hcollection, entry, hentry, ?_, ?_⟩
      · rw [← hm.generation, hgeneration]
        exact hw.currentGenerationLocked _
      · rw [hcached, ← hm.response]
        rfl
    · cases h
  · cases h

end Node

/-! ## An alias with another target -/

def wholeContent : SearchEngine Bytes where
  platform := History.barePlatform
  unreadable _ := none
  noCollection _ := ⟨404, lit "Not Found", ∅, []⟩
  refused _ := none
  requestCacheEnabled _ := true
  answer _ _ content _ := ⟨200, lit "OK", ∅, content⟩
  answer_same _ := rfl
  markCached := id

def searchOf (name : String) : SearchRequest where
  method := lit "GET"
  path := lit "/collections/" ++ lit name ++ lit "/documents/search"
  queryParams := ∅
  body := []
  embeddedFilters := []
  apiKeyId := []
  distributedHop := []

def usualCircumstances : Circumstances := ⟨1, 1000, 100000, 0, false⟩

def twoCollections : Node Bytes :=
  .start (Std.ExtTreeMap.ofList [(lit "blue", lit "1"), (lit "green", lit "2")])
    (Std.ExtTreeMap.ofList [(lit "live", lit "blue")])

end Hlquery.Cache
