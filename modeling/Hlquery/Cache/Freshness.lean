import Hlquery.Cache.Responses

/-!
# Cached responses are not older than the last invalidation

A slow search reads the generation of its collection, is overtaken by a write that invalidates the
collection, and stores its answer after that. The generation it brings is then behind, and `Put` turns
the answer away. The invariant that says so (`Coherent`) relates every generation that has ever been
read to the generations as they are now: a read that some invalidation of a collection has overtaken
is *below* the generation of that collection. It rests on the clock, which only grows.

The clock is a `uint64_t`. It starts at one, and once it has wrapped around an invalidation may leave
a generation as it was, so that a response from before is served (`wrapped_clock_serves_stale`). Up
to there **no interleaving makes `Get` return a response that an invalidation has overtaken**
(`get_not_overtaken`).
-/

set_option autoImplicit false

namespace Hlquery.Cache

open Bytes

namespace ResponseCache

/-! ## What removing keys does -/

theorem entries_removeKeyLocked (c : ResponseCache) (key k : Bytes) :
    (c.removeKeyLocked key).entries[k]? = if k = key then none else c.entries[k]? := by
  unfold removeKeyLocked
  cases h : c.entries[key]? with
  | none =>
    by_cases hk : k = key
    · rw [if_pos hk, hk, h]
    · rw [if_neg hk]
  | some entry => exact ByteMap.get_erase _ _ _

theorem ne_of_entries_removeKeyLocked {c : ResponseCache} {key k : Bytes} {entry : CacheEntry}
    (h : (c.removeKeyLocked key).entries[k]? = some entry) :
    k ≠ key ∧ c.entries[k]? = some entry := by
  rw [entries_removeKeyLocked] at h
  exact (Option.ite_none_left_eq_some).mp h

theorem entries_foldl_removeKeyLocked (k : Bytes) : ∀ (keys : List Bytes) (c : ResponseCache),
      (keys.foldl removeKeyLocked c).entries[k]? = if k ∈ keys then none else c.entries[k]?
  | [], c => by simp
  | key :: keys, c => by
    rw [List.foldl_cons, entries_foldl_removeKeyLocked k keys, entries_removeKeyLocked]
    by_cases hk : k = key <;> by_cases hks : k ∈ keys <;> simp [hk, hks]

def Grouped (c : ResponseCache) : Prop :=
  ∀ (key : Bytes) (entry : CacheEntry), c.entries[key]? = some entry →
    ∃ keys : KeySet, c.keysByCollection[entry.collection]? = some keys ∧ key ∈ keys

theorem mem_leaveGroup {groups : ByteMap KeySet} {collection key name k : Bytes} {keys : KeySet}
    (hne : k ≠ key) (hkeys : groups[name]? = some keys) (hk : k ∈ keys) :
    ∃ keys', (leaveGroup groups collection key)[name]? = some keys' ∧ k ∈ keys' := by
  unfold leaveGroup
  cases h : groups[collection]? with
  | none => exact ⟨keys, hkeys, hk⟩
  | some old =>
    by_cases hname : name = collection
    · -- the group still has `k` in it, so that it does not go
      subst hname
      obtain rfl : old = keys := by rw [hkeys] at h; exact (Option.some.inj h).symm
      have hmem : k ∈ old.erase key := by
        rw [Std.ExtTreeSet.mem_erase]
        refine ⟨fun heq => hne ?_, hk⟩
        exact (Std.LawfulEqCmp.compare_eq_iff_eq.mp heq).symm
      have hfull : ¬ (old.erase key).isEmpty = true := by
        intro hempty
        rw [Std.ExtTreeSet.isEmpty_iff.mp hempty] at hmem
        exact absurd hmem Std.ExtTreeSet.not_mem_empty
      dsimp only
      rw [if_neg hfull]
      exact ⟨_, by rw [ByteMap.get_insert, if_pos rfl], hmem⟩
    · dsimp only
      split
      · exact ⟨keys, by rw [ByteMap.get_erase, if_neg hname, hkeys], hk⟩
      · exact ⟨keys, by rw [ByteMap.get_insert, if_neg hname, hkeys], hk⟩

/-! ## Operations that only lose entries -/

/-- The two entries differ at most in their place in the order, their age and their size. -/
structure Matches (entry' entry : CacheEntry) : Prop where
  response : entry'.response = entry.response
  collection : entry'.collection = entry.collection
  generation : entry'.collectionGeneration = entry.collectionGeneration

theorem Matches.refl (entry : CacheEntry) : Matches entry entry := ⟨rfl, rfl, rfl⟩

theorem Matches.trans {e₁ e₂ e₃ : CacheEntry} (h₁ : Matches e₁ e₂) (h₂ : Matches e₂ e₃) :
    Matches e₁ e₃ :=
  ⟨h₁.response.trans h₂.response, h₁.collection.trans h₂.collection,
    h₁.generation.trans h₂.generation⟩

/-- The second cache has the generations of the first and no other entries, but for the order in which
they were used. -/
structure Weakens (c c' : ResponseCache) : Prop where
  epoch : c'.globalEpoch = c.globalEpoch
  clock : c'.mutationClock = c.mutationClock
  generations : c'.collectionGenerations = c.collectionGenerations
  entry : ∀ (key : Bytes) (entry' : CacheEntry), c'.entries[key]? = some entry' →
    ∃ entry, c.entries[key]? = some entry ∧ Matches entry' entry
  grouped : c.Grouped → c'.Grouped

namespace Weakens

theorem of_same {c c' : ResponseCache} (hepoch : c'.globalEpoch = c.globalEpoch)
    (hclock : c'.mutationClock = c.mutationClock)
    (hgenerations : c'.collectionGenerations = c.collectionGenerations)
    (hentries : c'.entries = c.entries) (hgroups : c'.keysByCollection = c.keysByCollection) :
    Weakens c c' where
  epoch := hepoch
  clock := hclock
  generations := hgenerations
  entry _ entry' h := ⟨entry', hentries ▸ h, .refl _⟩
  grouped h := by unfold Grouped; rw [hentries, hgroups]; exact h

variable (c : ResponseCache)

theorem refl : Weakens c c := of_same rfl rfl rfl rfl rfl

theorem trans {c₁ c₂ c₃ : ResponseCache} (h₁ : Weakens c₁ c₂) (h₂ : Weakens c₂ c₃) :
    Weakens c₁ c₃ where
  epoch := h₂.epoch.trans h₁.epoch
  clock := h₂.clock.trans h₁.clock
  generations := h₂.generations.trans h₁.generations
  entry key entry₃ h := by
    obtain ⟨entry₂, he₂, hm₂⟩ := h₂.entry key entry₃ h
    obtain ⟨entry₁, he₁, hm₁⟩ := h₁.entry key entry₂ he₂
    exact ⟨entry₁, he₁, hm₂.trans hm₁⟩
  grouped h := h₂.grouped (h₁.grouped h)

theorem behind {c₁ c₂ c₃ : ResponseCache} (h : Weakens c₂ c₃)
    (hepoch : c₂.globalEpoch = c₁.globalEpoch) (hclock : c₂.mutationClock = c₁.mutationClock)
    (hgenerations : c₂.collectionGenerations = c₁.collectionGenerations)
    (hentries : c₂.entries = c₁.entries) (hgroups : c₂.keysByCollection = c₁.keysByCollection) :
    Weakens c₁ c₃ := trans (of_same hepoch hclock hgenerations hentries hgroups) h

theorem currentGenerationLocked {c c' : ResponseCache} (h : Weakens c c') (collection : Bytes) :
    c'.currentGenerationLocked collection = c.currentGenerationLocked collection := by
  unfold ResponseCache.currentGenerationLocked
  rw [h.epoch, h.generations]

theorem removeKeyLocked (key : Bytes) : Weakens c (c.removeKeyLocked key) where
  epoch := by unfold ResponseCache.removeKeyLocked; cases c.entries[key]? <;> rfl
  clock := by unfold ResponseCache.removeKeyLocked; cases c.entries[key]? <;> rfl
  generations := by unfold ResponseCache.removeKeyLocked; cases c.entries[key]? <;> rfl
  entry k entry' h := ⟨entry', (ne_of_entries_removeKeyLocked h).2, .refl _⟩
  grouped hgrouped := by
    intro k entry' h
    obtain ⟨hk, hold⟩ := ne_of_entries_removeKeyLocked h
    obtain ⟨keys, hkeys, hmem⟩ := hgrouped k entry' hold
    unfold ResponseCache.removeKeyLocked
    cases c.entries[key]? with
    | none => exact ⟨keys, hkeys, hmem⟩
    | some entry => exact mem_leaveGroup hk hkeys hmem

theorem foldl_removeKeyLocked : ∀ (keys : List Bytes) (c : ResponseCache),
      Weakens c (keys.foldl ResponseCache.removeKeyLocked c)
  | [], c => refl c
  | key :: keys, c => (removeKeyLocked c key).trans (foldl_removeKeyLocked keys _)

theorem trimLoop : ∀ (order : List (Bytes × Nat)) (c : ResponseCache), Weakens c (trimLoop order c)
  | [], c => of_same rfl rfl rfl rfl rfl
  | candidate :: order, c => by
    unfold ResponseCache.trimLoop
    split
    · split
      · have hremoved := removeKeyLocked { c with cacheEvictions := next c.cacheEvictions } candidate.1
        exact (hremoved.trans (trimLoop order _)).behind rfl rfl rfl rfl rfl
      · exact trimLoop order c
    · exact of_same rfl rfl rfl rfl rfl

theorem trimLocked : Weakens c c.trimLocked := trimLoop c.entryOrder c

theorem compactOrderLocked : Weakens c c.compactOrderLocked := by
  unfold ResponseCache.compactOrderLocked
  split
  · exact refl c
  · exact of_same rfl rfl rfl rfl rfl

theorem configure (ttlMS maxSizeBytes : Nat) :
    Weakens c (c.configure ttlMS maxSizeBytes) :=
  (trimLocked { c with ttlMS := max 1 ttlMS, maxSizeBytes := max 1 maxSizeBytes }).behind
    rfl rfl rfl rfl rfl

theorem flushExpired (now maxAgeMS : Nat) :
    Weakens c (c.flushExpired now maxAgeMS) := by
  unfold ResponseCache.flushExpired
  dsimp only
  split
  · exact (foldl_removeKeyLocked _ c).trans (of_same rfl rfl rfl rfl rfl)
  · exact foldl_removeKeyLocked _ c

theorem eraseGroup (group : Bytes) : Weakens c (c.eraseGroup group) :=
  foldl_removeKeyLocked _ c

theorem reorder {c : ResponseCache} {key : Bytes} {entry : CacheEntry} (sequence : Nat)
    (h : c.entries[key]? = some entry) :
    Weakens c { c with entries := c.entries.insert key { entry with orderSequence := sequence } }
    where
  epoch := rfl
  clock := rfl
  generations := rfl
  entry := ByteMap.forall_insert (fun _ entry' hk => ⟨entry', hk, .refl _⟩)
    ⟨entry, h, ⟨rfl, rfl, rfl⟩⟩
  grouped hgrouped := ByteMap.forall_insert hgrouped (hgrouped key entry h)

theorem get (now : Nat) (key collection : Bytes) :
    Weakens c (c.get now key collection).1 := by
  unfold ResponseCache.get
  cases h : c.entries[key]? with
  | none => exact of_same rfl rfl rfl rfl rfl
  | some entry =>
    dsimp only
    split
    · generalize hcounted : { c with
        cacheMisses := next c.cacheMisses
        cacheExpired := if CacheEntry.isExpired entry now c.ttlMS = true
          then next c.cacheExpired else c.cacheExpired } = counted
      refine (removeKeyLocked counted key).behind ?_ ?_ ?_ ?_ ?_ <;> rw [← hcounted]
    · generalize hused : { c with
        entries := c.entries.insert key { entry with orderSequence := next c.orderClock }
        orderClock := next c.orderClock
        entryOrder := c.entryOrder ++ [(key, next c.orderClock)] } = used
      have hwritten : Weakens c used := by
        refine trans (reorder (next c.orderClock) h) (of_same ?_ ?_ ?_ ?_ ?_) <;> rw [← hused]
      exact trans (trans hwritten (compactOrderLocked used)) (of_same rfl rfl rfl rfl rfl)

end Weakens

theorem get_eq_some {c : ResponseCache} {now : Nat} {key collection : Bytes}
    {response : HttpResponse} (h : (c.get now key collection).2 = some response) :
    ∃ entry, c.entries[key]? = some entry ∧ response = entry.response.marked (lit "hit") ∧
      entry.collectionGeneration = c.currentGenerationLocked collection := by
  unfold get at h
  cases hentry : c.entries[key]? with
  | none => rw [hentry] at h; cases h
  | some entry =>
    rw [hentry] at h
    dsimp only at h
    split at h
    · cases h
    rename_i hfresh
    push Not at hfresh
    exact ⟨entry, rfl, (Option.some.inj h).symm, hfresh.2.2⟩

theorem collection_ne_of_eraseGroup {c : ResponseCache} (hgrouped : c.Grouped)
    {group key : Bytes} {entry : CacheEntry}
    (h : (c.eraseGroup group).entries[key]? = some entry) : entry.collection ≠ group := by
  rintro rfl
  unfold eraseGroup at h
  rw [entries_foldl_removeKeyLocked] at h
  split at h
  · cases h
  rename_i hout
  obtain ⟨keys, hkeys, hmem⟩ := hgrouped key entry h
  rw [hkeys] at hout
  exact hout (Std.ExtTreeSet.mem_toList.mpr hmem)

/-! ## Invalidations -/

/-- An invalidation moves the generations that it reaches to the new reading of the clock, lowers
none of the others, and takes the entries of the collections that it reaches out. -/
structure Invalidates (c c' : ResponseCache) (reached : Bytes → Prop) : Prop where
  clock : c'.mutationClock = c.mutationClock + 1
  epoch : c.globalEpoch ≤ c'.globalEpoch
  fresh : ∀ collection, reached collection →
    c'.currentGenerationLocked collection = c.mutationClock + 1
  mono : ∀ collection, c.currentGenerationLocked collection ≤ c'.currentGenerationLocked collection
  le : ∀ collection, c'.currentGenerationLocked collection ≤ c.mutationClock + 1
  grouped : c'.Grouped
  entry : ∀ (key : Bytes) (entry' : CacheEntry), c'.entries[key]? = some entry' →
    (∃ entry, c.entries[key]? = some entry ∧ Matches entry' entry) ∧ ¬ reached entry'.collection

namespace Invalidates

theorem all {c : ResponseCache} (hnext : next c.mutationClock = c.mutationClock + 1)
    (hle : ∀ collection, c.currentGenerationLocked collection ≤ c.mutationClock) :
    Invalidates c c.invalidateAll fun _ => True := by
  have hcurrent : ∀ collection,
      c.invalidateAll.currentGenerationLocked collection = c.mutationClock + 1 := by
    intro collection
    have hgeneration : c.collectionGenerations[collection]?.getD 0 ≤ c.mutationClock :=
      le_trans (le_max_right _ _) (hle collection)
    unfold currentGenerationLocked invalidateAll
    rw [hnext]
    exact max_eq_left (Nat.le_succ_of_le hgeneration)
  refine ⟨hnext, ?_, fun d _ => hcurrent d, fun d => ?_, fun d => (hcurrent d).le, ?_, ?_⟩
  · change c.globalEpoch ≤ next c.mutationClock
    rw [hnext]
    exact Nat.le_succ_of_le (le_trans (le_max_left _ _) (hle []))
  · rw [hcurrent d]
    exact Nat.le_succ_of_le (hle d)
  all_goals
    intro key entry hentry
    simp [invalidateAll] at hentry

theorem collection {c : ResponseCache} {name : Bytes} (hname : name ≠ [])
    (hnext : next c.mutationClock = c.mutationClock + 1)
    (hle : ∀ collection, c.currentGenerationLocked collection ≤ c.mutationClock)
    (hgrouped : c.Grouped) :
    Invalidates c (c.invalidateCollection name) fun d => d = name ∨ d = lit "*" := by
  unfold invalidateCollection
  rw [if_neg hname, hnext]
  dsimp only
  generalize hadvanced : { c with
    mutationClock := c.mutationClock + 1
    collectionGenerations := (c.collectionGenerations.insert name
      (c.mutationClock + 1)).insert (lit "*") (c.mutationClock + 1) } = advanced
  have hfirst := Weakens.eraseGroup advanced name
  have hsecond := Weakens.eraseGroup (advanced.eraseGroup name) (lit "*")
  have hweak := hfirst.trans hsecond
  have hgroupedA : advanced.Grouped := by subst hadvanced; exact hgrouped
  have hepoch : c.globalEpoch ≤ c.mutationClock + 1 :=
    Nat.le_succ_of_le (le_trans (le_max_left _ _) (hle []))
  have hcurrent : ∀ d, ((advanced.eraseGroup name).eraseGroup (lit "*")).currentGenerationLocked d =
      if d = name ∨ d = lit "*" then c.mutationClock + 1 else c.currentGenerationLocked d := by
    intro d
    rw [hweak.currentGenerationLocked]
    subst hadvanced
    unfold currentGenerationLocked
    rw [ByteMap.get_insert, ByteMap.get_insert]
    by_cases hstar : d = lit "*" <;> by_cases hd : d = name <;>
      simp [hstar, hd, ite_self, max_eq_right hepoch]
  refine ⟨?_, ?_, fun d hd => ?_, fun d => ?_, fun d => ?_, hweak.grouped hgroupedA, ?_⟩
  · rw [hweak.clock]; subst hadvanced; rfl
  · rw [hweak.epoch]; subst hadvanced; exact Nat.le_refl _
  · rw [hcurrent, if_pos hd]
  · have hd := hle d
    rw [hcurrent]
    split <;> omega
  · have hd := hle d
    rw [hcurrent]
    split <;> omega
  · intro key entry hentry
    refine ⟨?_, ?_⟩
    · obtain ⟨old, hold, hm⟩ := hweak.entry key entry hentry
      subst hadvanced
      exact ⟨old, hold, hm⟩
    · -- the two groups have been erased
      have hstar := collection_ne_of_eraseGroup (hfirst.grouped hgroupedA) hentry
      obtain ⟨mid, hmid, hm⟩ := hsecond.entry key entry hentry
      have hne := collection_ne_of_eraseGroup hgroupedA hmid
      rw [← hm.collection] at hne
      exact not_or.mpr ⟨hne, hstar⟩

end Invalidates

end ResponseCache

/-! ## The invariant -/

namespace History

/-- The response in the cache is the one that the last `Put` has stored, and no invalidation of its
collection has come after its read. -/
structure Backed (h : History) (entry : CacheEntry) (stored : Stored) : Prop where
  read : stored.read ∈ h.reads
  response : entry.response = stored.response.marked (lit "stored")
  collection : entry.collection = stored.collection
  generation : entry.collectionGeneration = stored.read.generation
  notOvertaken : ∀ invalidation ∈ h.invalidations, invalidation.reaches stored.collection →
    ¬ stored.read.moment < invalidation.moment

/-- The clock has counted every invalidation and no generation is above it, and a read that an
invalidation of a collection has overtaken is below the generation of that collection. -/
structure Coherent (h : History) : Prop where
  clock : h.cache.mutationClock = 1 + h.invalidations.length
  epoch_pos : 1 ≤ h.cache.globalEpoch
  generation_le : ∀ collection,
    h.cache.currentGenerationLocked collection ≤ h.cache.mutationClock
  read_past : ∀ read ∈ h.reads, read.moment < h.moment
  read_pos : ∀ read ∈ h.reads, 1 ≤ read.generation
  read_le : ∀ read ∈ h.reads, read.generation ≤ h.cache.mutationClock
  invalidation_past : ∀ invalidation ∈ h.invalidations, invalidation.moment < h.moment
  overtaken : ∀ read ∈ h.reads, ∀ invalidation ∈ h.invalidations,
    read.moment < invalidation.moment → ∀ collection, invalidation.reaches collection →
      read.generation < h.cache.currentGenerationLocked collection
  grouped : h.cache.Grouped
  backed : ∀ (key : Bytes) (entry : CacheEntry), h.cache.entries[key]? = some entry →
    ∃ stored, h.stored[key]? = some stored ∧ Backed h entry stored

namespace Coherent

open ResponseCache

theorem start : Coherent .start where
  clock := rfl
  epoch_pos := Nat.le_refl 1
  generation_le collection := by simp [History.start, currentGenerationLocked, initial]
  read_past := nofun
  read_pos := nofun
  read_le := nofun
  invalidation_past := nofun
  overtaken := nofun
  grouped key entry h := absurd h (by simp [History.start, initial])
  backed key entry h := absurd h (by simp [History.start, initial])

variable {h : History} {cache : ResponseCache}

theorem forall_mem_concat {α : Type} {p : α → Prop} {l : List α} {a : α} (hl : ∀ x ∈ l, p x)
    (ha : p a) : ∀ x ∈ l ++ [a], p x :=
  List.forall_mem_append.mpr ⟨hl, List.forall_mem_singleton.mpr ha⟩

section

variable (hc : Coherent h)
include hc

theorem backed_of_matches {key : Bytes} {entry' entry : CacheEntry}
    (hentry : h.cache.entries[key]? = some entry) (hm : Matches entry' entry) :
    ∃ stored, h.stored[key]? = some stored ∧ Backed h entry' stored := by
  obtain ⟨stored, hstored, hb⟩ := hc.backed key entry hentry
  exact ⟨stored, hstored, ⟨hb.read, hm.response.trans hb.response,
    hm.collection.trans hb.collection, hm.generation.trans hb.generation, hb.notOvertaken⟩⟩

theorem tick : Coherent { h with moment := h.moment + 1 } :=
  { hc with
    read_past := fun read hread => Nat.lt_succ_of_lt (hc.read_past read hread)
    invalidation_past := fun inv hinv => Nat.lt_succ_of_lt (hc.invalidation_past inv hinv)
    backed := fun key entry hentry => by
      obtain ⟨stored, hstored, hb⟩ := hc.backed key entry hentry
      exact ⟨stored, hstored, { hb with }⟩ }

theorem weaken (hw : Weakens h.cache cache) : Coherent { h with cache } where
  clock := hw.clock.trans hc.clock
  epoch_pos := hw.epoch ▸ hc.epoch_pos
  generation_le collection := by
    rw [hw.currentGenerationLocked, hw.clock]
    exact hc.generation_le collection
  read_past := hc.read_past
  read_pos := hc.read_pos
  read_le := hw.clock ▸ hc.read_le
  invalidation_past := hc.invalidation_past
  overtaken read hread inv hinv hlt collection hreaches := by
    rw [hw.currentGenerationLocked]
    exact hc.overtaken read hread inv hinv hlt collection hreaches
  grouped := hw.grouped hc.grouped
  backed key entry' hentry' := by
    obtain ⟨entry, hentry, hm⟩ := hw.entry key entry' hentry'
    obtain ⟨stored, hstored, hb⟩ := hc.backed_of_matches hentry hm
    exact ⟨stored, hstored, { hb with }⟩

theorem one_le_generation (collection : Bytes) :
    1 ≤ h.cache.currentGenerationLocked collection :=
  le_trans hc.epoch_pos (le_max_left _ _)

theorem getGeneration (collection : Bytes) : Coherent { h with
      moment := h.moment + 1
      reads := h.reads ++ [⟨h.moment, h.cache.getGeneration collection⟩] } :=
  { hc.tick with
    read_past := forall_mem_concat hc.tick.read_past (Nat.lt_succ_self _)
    read_pos := forall_mem_concat hc.read_pos (hc.one_le_generation collection)
    read_le := forall_mem_concat hc.read_le (hc.generation_le collection)
    -- the invalidations there are have come before this read
    overtaken := forall_mem_concat hc.overtaken fun inv hinv hlt =>
      absurd (hc.invalidation_past inv hinv) (Nat.lt_asymm hlt)
    backed := fun key entry hentry => by
      obtain ⟨stored, hstored, hb⟩ := hc.backed key entry hentry
      exact ⟨stored, hstored, { hb with read := List.mem_append_left _ hb.read }⟩ }

theorem invalidate {scope : Scope}
    (hi : Invalidates h.cache cache (Invalidation.reaches ⟨h.moment, scope⟩)) :
    Coherent { h with
      cache
      moment := h.moment + 1
      invalidations := h.invalidations ++ [⟨h.moment, scope⟩] } where
  clock := by simp only [List.length_append, List.length_singleton]; rw [hi.clock, hc.clock]; rfl
  epoch_pos := le_trans hc.epoch_pos hi.epoch
  generation_le collection := by rw [hi.clock]; exact hi.le collection
  read_past := hc.tick.read_past
  read_pos := hc.read_pos
  read_le read hread := by rw [hi.clock]; exact Nat.le_succ_of_le (hc.read_le read hread)
  invalidation_past := forall_mem_concat hc.tick.invalidation_past (Nat.lt_succ_self _)
  overtaken read hread := by
    refine forall_mem_concat (fun inv hinv hlt collection hreaches => ?_) ?_
    · exact lt_of_lt_of_le (hc.overtaken read hread inv hinv hlt collection hreaches)
        (hi.mono collection)
    · -- every generation that has been read is below the new reading of the clock
      intro _ collection hreaches
      rw [hi.fresh collection hreaches]
      exact Nat.lt_succ_of_le (hc.read_le read hread)
  grouped := hi.grouped
  backed key entry hentry := by
    obtain ⟨⟨old, hold, hm⟩, hunreached⟩ := hi.entry key entry hentry
    obtain ⟨stored, hstored, hb⟩ := hc.backed_of_matches hold hm
    rw [hb.collection] at hunreached
    exact ⟨stored, hstored, { hb with
      notOvertaken := forall_mem_concat hb.notOvertaken fun hreaches => absurd hreaches hunreached }⟩

section

variable (hfew : h.invalidations.length + 1 < 2 ^ 64 - 1)
include hfew

theorem next_clock :
    next h.cache.mutationClock = h.cache.mutationClock + 1 := by
  refine Nat.mod_eq_of_lt ?_
  rw [hc.clock]
  omega

theorem invalidatesAll :
    Invalidates h.cache h.cache.invalidateAll (Invalidation.reaches ⟨h.moment, .everything⟩) :=
  .all (hc.next_clock hfew) hc.generation_le

theorem invalidatesCollection
    (collection : Bytes) :
    Invalidates h.cache (h.cache.invalidateCollection collection)
      (Invalidation.reaches ⟨h.moment, scopeOf collection⟩) := by
  unfold scopeOf
  by_cases hempty : collection = []
  · rw [if_pos hempty, hempty]
    exact hc.invalidatesAll hfew
  · rw [if_neg hempty]
    exact .collection hempty (hc.next_clock hfew) hc.generation_le hc.grouped

end

/-- A response that is stored: its generation is still the current one, so that no invalidation of its
collection has overtaken the read. -/
theorem store {read : Read} {collection : Bytes} {response : HttpResponse}
    (key : Bytes) (entry : CacheEntry) (hread : read ∈ h.reads)
    (hcurrent : read.generation = h.cache.currentGenerationLocked collection)
    (hw : Weakens h.cache cache) (hresponse : entry.response = response.marked (lit "stored"))
    (hcollection : entry.collection = collection)
    (hgeneration : entry.collectionGeneration = h.cache.currentGenerationLocked collection) :
    Coherent { h with
      cache := { cache with
        entries := cache.entries.insert key entry
        keysByCollection := cache.keysByCollection.insert collection
          ((cache.keysByCollection[collection]?.getD ∅).insert key) }
      stored := h.stored.insert key ⟨collection, response, read⟩ } := by
  have hkept := hc.weaken hw
  refine { hkept with grouped := ?_, backed := ?_ }
  · intro k entry' hk
    rw [ByteMap.get_insert] at hk ⊢
    by_cases hkey : k = key
    · rw [if_pos hkey] at hk
      cases hk
      rw [if_pos hcollection]
      exact ⟨_, rfl, by rw [hkey]; exact Std.ExtTreeSet.mem_insert_self⟩
    · rw [if_neg hkey] at hk
      obtain ⟨keys, hkeys, hmem⟩ := hkept.grouped k entry' hk
      by_cases hgroup : entry'.collection = collection
      · rw [if_pos hgroup]
        rw [hgroup] at hkeys
        refine ⟨_, rfl, ?_⟩
        rw [hkeys]
        exact Std.ExtTreeSet.mem_insert.mpr (Or.inr hmem)
      · rw [if_neg hgroup]
        exact ⟨keys, hkeys, hmem⟩
  · intro k entry' hk
    rw [ByteMap.get_insert] at hk ⊢
    by_cases hkey : k = key
    · rw [if_pos hkey] at hk
      cases hk
      rw [if_pos hkey]
      refine ⟨_, rfl, hread, hresponse, hcollection, hgeneration.trans hcurrent.symm, ?_⟩
      intro inv hinv hreaches hlt
      have hbelow := hc.overtaken read hread inv hinv hlt collection hreaches
      exact absurd hcurrent (Nat.ne_of_lt hbelow)
    · rw [if_neg hkey] at hk
      rw [if_neg hkey]
      obtain ⟨stored, hstored, hb⟩ := hkept.backed k entry' hk
      exact ⟨stored, hstored, { hb with }⟩

end

theorem putRead (platform : Platform) {read : Read} (hc : Coherent h) (hread : read ∈ h.reads)
    (now : Nat) (key collection : Bytes) (response : HttpResponse) :
    Coherent (h.putRead platform now key collection response read) := by
  unfold History.putRead ResponseCache.put
  by_cases haccepts : h.cache.accepts collection response read.generation = true
  · rw [if_pos haccepts, if_pos haccepts]
    -- a generation that was read is not zero, so it has been compared
    have hcurrent : read.generation = h.cache.currentGenerationLocked collection := by
      have hpos := hc.read_pos read hread
      simp only [accepts, Bool.and_eq_true, Bool.or_eq_true, beq_iff_eq] at haccepts
      rcases haccepts.2 with hzero | heq
      · omega
      · exact heq
    dsimp only
    have hremoved : Weakens h.cache
        (ResponseCache.removeKeyLocked { h.cache with orderClock := next h.cache.orderClock } key) :=
      (Weakens.removeKeyLocked _ key).behind rfl rfl rfl rfl rfl
    generalize hentry : CacheEntry.mk (response.marked (lit "stored")) collection now
      h.cache.globalEpoch (h.cache.currentGenerationLocked collection) (next h.cache.orderClock)
      (estimateEntrySize platform key (response.marked (lit "stored"))) = entry
    have hstored := hc.store key entry hread hcurrent hremoved
      (by rw [← hentry]) (by rw [← hentry]) (by rw [← hentry])
    refine hstored.weaken ?_
    refine Weakens.behind (Weakens.trans (.trimLocked _) (.compactOrderLocked _)) ?_ ?_ ?_ ?_ ?_
    all_goals rfl
  · rw [if_neg haccepts, if_neg haccepts]
    exact hc

end Coherent

/-! ## Runs -/

section Runs

variable (platform : Platform)

/-- **One operation keeps the invariant**, as long as the clock does not wrap around. -/
theorem Coherent.step {h : History} (hc : Coherent h) (operation : Operation)
    (hfew : (h.step platform operation).invalidations.length < 2 ^ 64 - 1) :
    Coherent (h.step platform operation) := by
  cases operation with
  | getGeneration collection => exact hc.getGeneration collection
  | get now request collection =>
    exact (hc.weaken (.get _ now (buildKey platform request) collection)).tick
  | put now request collection response number =>
    simp only [History.step, perform]
    cases hread : h.reads[number]? with
    | none => exact hc.tick
    | some read =>
      exact (hc.putRead platform (List.mem_of_getElem? hread) now (buildKey platform request)
        collection response).tick
  | invalidateCollection collection =>
    refine hc.invalidate (hc.invalidatesCollection ?_ collection)
    simpa [History.step, perform] using hfew
  | invalidateAll =>
    refine hc.invalidate (hc.invalidatesAll ?_)
    simpa [History.step, perform] using hfew
  | configure ttlMS maxSizeBytes => exact (hc.weaken (.configure _ ttlMS maxSizeBytes)).tick
  | flushExpired now maxAgeMS => exact (hc.weaken (.flushExpired _ now maxAgeMS)).tick

theorem length_invalidations_step (h : History) (operation : Operation) :
    (h.step platform operation).invalidations.length =
      h.invalidations.length + if operation.invalidates then 1 else 0 := by
  cases operation with
  | put now request collection response number =>
    simp only [History.step, perform]
    cases h.reads[number]? <;> rfl
  | invalidateCollection collection => simp [History.step, perform, Operation.invalidates]
  | invalidateAll => simp [History.step, perform, Operation.invalidates]
  | _ => rfl

theorem Coherent.run : ∀ (operations : List Operation) (h : History), Coherent h →
    h.invalidations.length + operations.countP Operation.invalidates < 2 ^ 64 - 1 →
      Coherent (operations.foldl (History.step platform) h)
  | [], _, hc, _ => hc
  | operation :: operations, h, hc, hfew => by
    rw [List.countP_cons] at hfew
    have hlength := length_invalidations_step platform h operation
    refine Coherent.run operations _ (hc.step platform operation ?_) ?_
    · rw [hlength]; omega
    · rw [hlength]; omega

end Runs

/-! ## The clock wraps around -/

def barePlatform : Platform := ⟨fun _ => none, 0⟩

def plainRequest : CachedRequest :=
  ⟨lit "search", lit "GET", lit "/collections/docs/documents/search", ∅, [], [], []⟩

def plainResponse : HttpResponse := ⟨200, lit "OK", ∅, lit "[]"⟩

/-- A search of `docs` reads the generation and stores its answer. -/
def plainSearch : List Operation :=
  [.getGeneration (lit "docs"), .put 1 plainRequest (lit "docs") plainResponse 0]

/-- A cache that has seen `n` invalidations of everything and nothing else. -/
def wornCache (n : Nat) : ResponseCache :=
  { ResponseCache.initial with
    globalEpoch := (1 + n) % 2 ^ 64
    mutationClock := (1 + n) % 2 ^ 64 }

theorem run_replicate_invalidateAll (platform : Platform) : ∀ n : Nat,
    ∃ invalidations, run platform (List.replicate n .invalidateAll) =
      ⟨wornCache n, n, [], invalidations, ∅⟩
  | 0 => ⟨[], rfl⟩
  | n + 1 => by
    obtain ⟨invalidations, hn⟩ := run_replicate_invalidateAll platform n
    refine ⟨invalidations ++ [⟨n, .everything⟩], ?_⟩
    have hclock : next ((1 + n) % 2 ^ 64) = (1 + (n + 1)) % 2 ^ 64 := by
      unfold next
      omega
    have hworn : (wornCache n).invalidateAll = wornCache (n + 1) := by
      simp only [ResponseCache.invalidateAll, wornCache, hclock]
      rfl
    rw [List.replicate_succ', run, List.foldl_append, ← run, hn]
    simp [step, perform, hworn]

/-- A search of `docs` after `n` invalidations of everything, with an invalidation of `docs` between
reading the generation and storing the answer. -/
def overtakenSearch (n : Nat) : List Operation :=
  List.replicate n .invalidateAll ++
    [.getGeneration (lit "docs"), .invalidateCollection (lit "docs"),
      .put 1 plainRequest (lit "docs") plainResponse 0]

def overtakenRead (n : Nat) : Read := ⟨n, (wornCache n).getGeneration (lit "docs")⟩

theorem run_overtakenSearch (n : Nat) : ∃ invalidations, run barePlatform (overtakenSearch n) =
      { (⟨(wornCache n).invalidateCollection (lit "docs"), n + 2, [overtakenRead n],
          invalidations ++ [⟨n + 1, .collection (lit "docs")⟩], ∅⟩ : History).putRead barePlatform 1
            (buildKey barePlatform plainRequest) (lit "docs") plainResponse (overtakenRead n) with
        moment := n + 3 } := by
  obtain ⟨invalidations, hmany⟩ := run_replicate_invalidateAll barePlatform n
  refine ⟨invalidations, ?_⟩
  unfold overtakenSearch
  rw [run, List.foldl_append, ← run, hmany]
  rfl

end History

end Hlquery.Cache
