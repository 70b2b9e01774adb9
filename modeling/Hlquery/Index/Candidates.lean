import Hlquery.Index.Query

/-!
# The candidates of a query

`Search` finds the documents of each word, combines them, cuts off all but the best and sorts. Which
documents a query returns is settled before the last two steps: where the limit does not cut
anything off, they are the candidates, the documents with enough of the words
(`mem_combineDocs`, `returns_iff`), and the limit leaves no trace (`search_of_unpruned`).
-/

set_option autoImplicit false

namespace Hlquery.Index

open Bytes

/-! ## The documents of a word -/

section Words

variable {S : Type} (scoring : Scoring S)

theorem mem_addPosting {docs : ByteMap (Posting S)} {post : Posting S} {docId : Bytes} :
    docId ∈ addPosting scoring docs post ↔ docId = post.documentId ∨ docId ∈ docs := by
  have hinsert : ∀ v : Posting S, docId ∈ docs.insert post.documentId v ↔
      docId = post.documentId ∨ docId ∈ docs := by
    intro v
    rw [Std.ExtTreeMap.mem_insert, Std.LawfulEqCmp.compare_eq_iff_eq, eq_comm]
  unfold addPosting
  split <;> exact hinsert _

theorem mem_addPostings {docId : Bytes} :
    ∀ {postings : List (Posting S)} {docs : ByteMap (Posting S)},
      docId ∈ postings.foldl (addPosting scoring) docs ↔
        docId ∈ docs ∨ ∃ post ∈ postings, post.documentId = docId
  | [], docs => by simp
  | post :: postings, docs => by
    rw [List.foldl_cons, mem_addPostings, mem_addPosting]
    simp only [List.mem_cons, exists_eq_or_imp]
    rw [or_comm (a := docId = _), or_assoc, eq_comm]

end Words

namespace CollectionIndex

variable {S : Type} (single : SinglePrecision S) (scoring : Scoring S) (queryFields : List Bytes)

def FoundBy (lookup : Bytes → Bytes → List (Posting S)) (word docId : Bytes) : Prop :=
  ∃ variant ∈ queryTermVariants scoring word, ∃ key ∈ buildScopedKeys queryFields variant.1,
    ∃ post ∈ lookup variant.1 key, post.documentId = docId

variable {single scoring queryFields}

theorem exists_mem_weightedPostings {lookup : Bytes → Bytes → List (Posting S)}
    {word docId : Bytes} :
    (∃ post ∈ weightedPostings scoring queryFields lookup word, post.documentId = docId) ↔
      FoundBy scoring queryFields lookup word docId := by
  constructor
  · rintro ⟨post, hpost, rfl⟩
    obtain ⟨variant, hvariant, hpost⟩ := List.mem_flatMap.mp hpost
    obtain ⟨key, hkey, hpost⟩ := List.mem_flatMap.mp hpost
    obtain ⟨found, hfound, rfl⟩ := List.mem_map.mp hpost
    exact ⟨variant, hvariant, key, hkey, found, hfound, rfl⟩
  · rintro ⟨variant, hvariant, key, hkey, post, hpost, rfl⟩
    refine ⟨weighted scoring variant.2 post, ?_, rfl⟩
    exact List.mem_flatMap.mpr ⟨variant, hvariant,
      List.mem_flatMap.mpr ⟨key, hkey, List.mem_map_of_mem hpost⟩⟩

/-- **The documents of a word** are those that either place has for it. -/
theorem mem_loadTermDocs {c : CollectionIndex S} {name word docId : Bytes} :
    docId ∈ c.loadTermDocs single scoring queryFields name word ↔
      (∃ index, c.searchedMMap = some index ∧
        FoundBy scoring queryFields (mappedPostings single scoring index) word docId) ∨
      FoundBy scoring queryFields (memoryPostings scoring (c.index.getD ∅)) word docId := by
  unfold loadTermDocs
  rw [mem_addPostings]
  simp only [List.mem_append, or_and_right, exists_or, exists_mem_weightedPostings]
  have hempty : ¬ docId ∈ (∅ : ByteMap (Posting S)) := by simp
  simp only [hempty, false_or]
  refine or_congr ?_ Iff.rfl
  cases c.searchedMMap with
  | none => simp
  | some index =>
    simp only [Option.some.injEq, exists_eq_left', ← exists_mem_weightedPostings]
    constructor
    · rintro ⟨post, hpost, rfl⟩
      obtain ⟨found, hfound, rfl⟩ := List.mem_map.mp hpost
      exact ⟨found, hfound, rfl⟩
    · rintro ⟨post, hpost, rfl⟩
      exact ⟨_, List.mem_map_of_mem hpost, rfl⟩

end CollectionIndex

/-! ## The documents of a query -/

section Combining

variable {S : Type} (scoring : Scoring S)

def wordCount (results : List (ByteMap (Posting S))) (docId : Bytes) : Nat :=
  results.countP fun docs => docs.contains docId

def neededWords (settings : QuerySettings) (found : Nat) : Nat :=
  match MatchMode.ofText settings.matchMode with
  | .all => found
  | .any => 1
  | .minShouldMatch => min (max 1 settings.minShouldMatch).toNat found

def matchCount (docs : ByteMap (Posting S × Nat)) (docId : Bytes) : Nat :=
  (docs[docId]?.map Prod.snd).getD 0

variable {docId : Bytes} {docs : ByteMap (Posting S × Nat)}

theorem mem_intersectDocs {termDocs : ByteMap (Posting S)} :
    docId ∈ intersectDocs scoring docs termDocs ↔ docId ∈ docs ∧ docId ∈ termDocs := by
  simp only [Std.ExtTreeMap.mem_iff_isSome_getElem?, intersectDocs,
    Std.ExtTreeMap.getElem?_filterMap']
  cases docs[docId]? <;> simp

theorem mem_foldl_intersectDocs :
    ∀ {others : List (ByteMap (Posting S))} {docs : ByteMap (Posting S × Nat)},
      docId ∈ others.foldl (intersectDocs scoring) docs ↔
        docId ∈ docs ∧ ∀ termDocs ∈ others, docId ∈ termDocs
  | [], docs => by simp
  | termDocs :: others, docs => by
    rw [List.foldl_cons, mem_foldl_intersectDocs, mem_intersectDocs, List.forall_mem_cons,
      and_assoc]

def countDoc (docs : ByteMap (Posting S × Nat)) (entry : Bytes × Posting S) :
    ByteMap (Posting S × Nat) :=
  match docs[entry.1]? with
  | none => docs.insert entry.1 (entry.2, 1)
  | some existing =>
      docs.insert entry.1 (joinPostings scoring existing.1 entry.2, existing.2 + 1)

theorem matchCount_countDoc (docs : ByteMap (Posting S × Nat)) (entry : Bytes × Posting S)
    (docId : Bytes) : matchCount (countDoc scoring docs entry) docId =
      matchCount docs docId + if entry.1 = docId then 1 else 0 := by
  unfold countDoc matchCount
  by_cases he : entry.1 = docId
  · subst he
    cases docs[entry.1]? <;> simp
  · cases docs[entry.1]? <;> simp [ByteMap.get_insert, he, Ne.symm he]

theorem matchCount_foldl_countDoc (docId : Bytes) :
    ∀ (entries : List (Bytes × Posting S)) (docs : ByteMap (Posting S × Nat)),
      matchCount (entries.foldl (countDoc scoring) docs) docId =
        matchCount docs docId + (entries.map Prod.fst).count docId
  | [], docs => rfl
  | entry :: entries, docs => by
    rw [List.foldl_cons, matchCount_foldl_countDoc docId entries, matchCount_countDoc,
      List.map_cons, List.count_cons]
    simp only [beq_iff_eq]
    omega

theorem matchCount_uniteDocs (docs : ByteMap (Posting S × Nat)) (termDocs : ByteMap (Posting S))
    (docId : Bytes) : matchCount (uniteDocs scoring docs termDocs) docId =
      matchCount docs docId + if termDocs.contains docId then 1 else 0 := by
  have hkeys : termDocs.toList.map Prod.fst = termDocs.keys := Std.ExtTreeMap.map_fst_toList_eq_keys
  have hcount : termDocs.keys.count docId = if termDocs.contains docId then 1 else 0 := by
    rw [Std.ExtTreeMap.nodup_keys.count]
    simp [Std.ExtTreeMap.mem_keys, Std.ExtTreeMap.contains_iff_mem]
  exact (matchCount_foldl_countDoc scoring docId termDocs.toList docs).trans
    (by rw [hkeys, hcount])

theorem matchCount_foldl_uniteDocs (docId : Bytes) :
    ∀ (results : List (ByteMap (Posting S))) (docs : ByteMap (Posting S × Nat)),
      matchCount (results.foldl (uniteDocs scoring) docs) docId =
        matchCount docs docId + wordCount results docId
  | [], docs => rfl
  | termDocs :: results, docs => by
    rw [List.foldl_cons, matchCount_foldl_uniteDocs docId results, matchCount_uniteDocs]
    unfold wordCount
    rw [List.countP_cons]
    omega

def Counted (docs : ByteMap (Posting S × Nat)) : Prop :=
  ∀ (docId : Bytes) (entry : Posting S × Nat), docs[docId]? = some entry → 0 < entry.2

theorem counted_empty : Counted (∅ : ByteMap (Posting S × Nat)) :=
  fun _ _ h => nomatch h

theorem Counted.countDoc (h : Counted docs) (entry : Bytes × Posting S) :
    Counted (countDoc scoring docs entry) := by
  have hinsert : ∀ (v : Posting S) (n : Nat), Counted (docs.insert entry.1 (v, n + 1)) := by
    intro v n
    exact ByteMap.forall_insert h n.succ_pos
  unfold Index.countDoc
  cases docs[entry.1]? with
  | none => exact hinsert _ 0
  | some existing => exact hinsert _ existing.2

theorem Counted.foldl_uniteDocs (h : Counted docs) :
    ∀ results : List (ByteMap (Posting S)), Counted (results.foldl (uniteDocs scoring) docs) := by
  intro results
  induction results generalizing docs with
  | nil => exact h
  | cons termDocs results ih =>
    exact ih (List.foldlRecOn termDocs.toList _ h fun _ hdocs entry _ => hdocs.countDoc scoring entry)

theorem Counted.mem_iff (h : Counted docs) : docId ∈ docs ↔ 0 < matchCount docs docId := by
  rw [Std.ExtTreeMap.mem_iff_isSome_getElem?]
  unfold matchCount
  cases hget : docs[docId]? with
  | none => simp
  | some entry => simpa using h docId entry hget

theorem mem_united {results : List (ByteMap (Posting S))} :
    docId ∈ results.foldl (uniteDocs scoring) ∅ ↔ 0 < wordCount results docId := by
  rw [(counted_empty.foldl_uniteDocs scoring results).mem_iff, matchCount_foldl_uniteDocs]
  simp [matchCount]

/-- **The candidates are the documents with enough of the words.** -/
theorem mem_combineDocs (settings : QuerySettings) {results : List (ByteMap (Posting S))} :
    docId ∈ combineDocs scoring settings results ↔ 0 < wordCount results docId ∧
        neededWords settings results.length ≤ wordCount results docId := by
  unfold combineDocs neededWords
  cases MatchMode.ofText settings.matchMode with
  | all =>
    have hperm := List.perm_insertionSort (fun a b : ByteMap (Posting S) => a.size ≤ b.size) results
    have hall : (∀ docs ∈ results, docId ∈ docs) ↔ wordCount results docId = results.length := by
      unfold wordCount
      simp [Std.ExtTreeMap.contains_iff_mem]
    dsimp only
    split
    · rename_i hsort
      rw [hsort] at hperm
      rw [← hperm.nil_eq]
      simp [wordCount]
    · rename_i rarest others hsort
      rw [hsort] at hperm
      have hmap : docId ∈ rarest.map (fun _ post => (post, 1)) ↔ docId ∈ rarest :=
        Std.ExtTreeMap.mem_map
      have hsplit : (docId ∈ rarest ∧ ∀ docs ∈ others, docId ∈ docs) ↔
          ∀ docs ∈ results, docId ∈ docs := by
        simp [← hperm.mem_iff]
      rw [mem_foldl_intersectDocs, hmap, hsplit, hall]
      have hpos := hperm.length_eq
      have hle : wordCount results docId ≤ results.length := List.countP_le_length
      rw [List.length_cons] at hpos
      omega
  | any =>
    dsimp only
    rw [mem_united]
    omega
  | minShouldMatch =>
    rw [Std.ExtTreeMap.mem_iff_isSome_getElem?, Std.ExtTreeMap.getElem?_filter']
    have hcounted := counted_empty.foldl_uniteDocs scoring results
    have hcount := matchCount_foldl_uniteDocs scoring docId results ∅
    unfold matchCount at hcount
    cases hget : (results.foldl (uniteDocs scoring) ∅)[docId]? with
    | none =>
      rw [hget] at hcount
      simp at hcount
      simp [← hcount]
    | some entry =>
      rw [hget] at hcount
      have hpos := hcounted docId entry hget
      simp at hcount
      simp [Option.filter, ← hcount, hpos]

end Combining

namespace CollectionIndex

variable {S : Type} (single : SinglePrecision S) (scoring : Scoring S) (settings : QuerySettings)

def candidates (name query : Bytes) (queryFields : List Bytes) (c : CollectionIndex S) :
    ByteMap (Posting S × Nat) :=
  let queryTerms := positiveTerms settings query
  let negative := negativeTerms query
  if queryTerms = [] ∧ negative = [] then ∅
  else
    match c.termResults single scoring queryFields settings name queryTerms with
    | none => ∅
    | some results =>
        let results := if results = [] ∧ negative ≠ [] ∧ ¬ (c.allDocs scoring name).isEmpty then
          [c.allDocs scoring name] else results
        (combineDocs scoring settings results).filter fun docId _ =>
          !(c.negativeDocIds single scoring queryFields name negative).elem docId

def Returns (name query : Bytes) (limit : Int) (queryFields : List Bytes) (c : CollectionIndex S)
    (docId : Bytes) : Prop :=
  ∃ post ∈ c.search single scoring settings name query limit queryFields, post.documentId = docId

/-- A limit does not cut off any of so many documents. -/
def Unpruned (limit : Int) (count : Nat) : Prop := limit ≤ 0 ∨ (count : Int) ≤ min limit 10000

variable {single scoring settings}

section Resolved

variable (queryFields : List Bytes) (name : Bytes) (c : CollectionIndex S)

variable (single scoring) in
def resolvedTerms (words : List Bytes) : List Bytes :=
  words.filter fun word => normalizeTerm word ≠ [] ∧
    ¬ (c.loadTermDocs single scoring queryFields name (normalizeTerm word)).isEmpty

variable (single scoring) in
/-- The mode `and` ends a search at a word that no document has. -/
def Interrupted (settings : QuerySettings) (words : List Bytes) : Prop :=
  settings.matchMode = lit "and" ∧ ∃ word ∈ words, normalizeTerm word ≠ [] ∧
    (c.loadTermDocs single scoring queryFields name (normalizeTerm word)).isEmpty = true

instance (words : List Bytes) :
    Decidable (c.Interrupted single scoring queryFields name settings words) :=
  inferInstanceAs (Decidable (_ ∧ _))

variable {queryFields name c}

/-- **The documents of the words** are those of each word that is resolved. -/
theorem termResults_eq (words : List Bytes) :
    c.termResults single scoring queryFields settings name words =
      if c.Interrupted single scoring queryFields name settings words then none
      else some ((c.resolvedTerms single scoring queryFields name words).map fun word =>
        c.loadTermDocs single scoring queryFields name (normalizeTerm word)) := by
  induction words with
  | nil => simp [termResults, resolvedTerms, Interrupted]
  | cons word words ih =>
    have hstop : c.Interrupted single scoring queryFields name settings (word :: words) ↔
        (settings.matchMode = lit "and" ∧ normalizeTerm word ≠ [] ∧ (c.loadTermDocs single scoring
          queryFields name (normalizeTerm word)).isEmpty = true) ∨
        c.Interrupted single scoring queryFields name settings words := by
      simp [Interrupted, and_or_left]
    rw [termResults, if_congr hstop rfl rfl]
    unfold resolvedTerms at ih ⊢
    rw [ih]
    by_cases hnil : normalizeTerm word = []
    · simp [hnil]
    by_cases hempty : (c.loadTermDocs single scoring queryFields name (normalizeTerm word)).isEmpty
    · by_cases hand : settings.matchMode = lit "and" <;> simp [hnil, hempty, hand]
    · simp [hnil, hempty, apply_ite (Option.map _)]

theorem termResults_found {words : List Bytes} {results : List (ByteMap (Posting S))}
    (h : c.termResults single scoring queryFields settings name words = some results) :
    ∀ docs ∈ results, FoundIn (c.Holds single) id docs := by
  rw [termResults_eq] at h
  split at h
  · cases h
  cases h
  rw [List.forall_mem_map]
  exact fun word _ => loadTermDocs_found scoring queryFields name _

end Resolved

variable (single scoring settings) in
theorem foundIn_candidates (name query : Bytes) (queryFields : List Bytes)
    (c : CollectionIndex S) : FoundIn (c.Holds single) Prod.fst
      (c.candidates single scoring settings name query queryFields) := by
  unfold candidates
  dsimp only
  split
  · exact foundIn_empty _
  split
  · exact foundIn_empty _
  rename_i found hfound
  refine (combineDocs_found scoring settings fun docs hdocs => ?_).filter _
  split at hdocs
  · rw [List.mem_singleton.mp hdocs]
    exact allDocs_found scoring name
  · exact termResults_found hfound docs hdocs

variable {limit : Nat} {name query : Bytes} {queryFields : List Bytes} {c : CollectionIndex S}
  {docs : ByteMap (Posting S × Nat)}

theorem pruneCandidates_of_le {entries : List (Posting S × Nat)}
    (h : limit = 0 ∨ entries.length ≤ limit) :
    pruneCandidates scoring settings limit entries = entries := by
  unfold pruneCandidates
  dsimp only
  split
  · rw [if_neg]
    omega
  · rfl

variable (scoring settings) in
/-- What is left to be done with the candidates: some are cut off, and they are scored and sorted. -/
def rank (limit : Nat) (score : Posting S × Nat → S) (docs : ByteMap (Posting S × Nat)) :
    List (Posting S) :=
  let scored := (pruneCandidates scoring settings limit (docs.toList.map Prod.snd)).map
    fun entry => ({ entry.1 with score := score entry }, entry.2)
  let kept := if 0 < limit ∧ limit < scored.length then scoring.best limit scored else scored
  scoring.sort (kept.map Prod.fst)

theorem mem_of_mem_rank {P : Bytes → Prop} (hfound : FoundIn P Prod.fst docs)
    {score : Posting S × Nat → S} {post : Posting S}
    (h : post ∈ rank scoring settings limit score docs) : post.documentId ∈ docs := by
  unfold rank at h
  rw [(scoring.sort_perm _).mem_iff] at h
  obtain ⟨entry, hentry, rfl⟩ := List.mem_map.mp h
  -- the best are among the scored, and scoring does not change the id
  have hkept : ∀ {n : Nat} {l : List (Posting S × Nat)},
      entry ∈ (if 0 < n ∧ n < l.length then scoring.best n l else l) → entry ∈ l := by
    intro n l he
    split at he
    · exact scoring.best_subset _ _ he
    · exact he
  obtain ⟨candidate, hcandidate, rfl⟩ := List.mem_map.mp (hkept hentry)
  obtain ⟨⟨docId, value⟩, hmem, rfl⟩ :=
    List.mem_map.mp (pruneCandidates_subset scoring settings _ _ hcandidate)
  have hget := Std.ExtTreeMap.mem_toList_iff_getElem?_eq_some.mp hmem
  rw [Std.ExtTreeMap.mem_iff_isSome_getElem?]
  rw [(hfound docId value hget).1, hget]
  rfl

theorem exists_mem_rank {P : Bytes → Prop} (hfound : FoundIn P Prod.fst docs)
    (hlimit : limit = 0 ∨ docs.size ≤ limit) (score : Posting S × Nat → S) (docId : Bytes) :
    (∃ post ∈ rank scoring settings limit score docs, post.documentId = docId) ↔ docId ∈ docs := by
  refine ⟨fun ⟨post, hpost, hid⟩ => hid ▸ mem_of_mem_rank hfound hpost, fun hmem => ?_⟩
  have hlength : (docs.toList.map Prod.snd).length = docs.size := by
    rw [List.length_map, Std.ExtTreeMap.length_toList]
  unfold rank
  dsimp only
  rw [pruneCandidates_of_le (by omega), if_neg (by rw [List.length_map]; omega)]
  simp only [(scoring.sort_perm _).mem_iff, List.map_map, List.mem_map]
  rw [Std.ExtTreeMap.mem_iff_isSome_getElem?] at hmem
  obtain ⟨entry, hget⟩ := Option.isSome_iff_exists.mp hmem
  exact ⟨_, ⟨(docId, entry), Std.ExtTreeMap.mem_toList_iff_getElem?_eq_some.mpr hget, rfl⟩,
    (hfound docId entry hget).1⟩

theorem candidates_of_results {found : List (ByteMap (Posting S))}
    (hterms : ¬ (positiveTerms settings query = [] ∧ negativeTerms query = []))
    (hfound : c.termResults single scoring queryFields settings name
      (positiveTerms settings query) = some found) :
    c.candidates single scoring settings name query queryFields =
      (combineDocs scoring settings (if found = [] ∧ negativeTerms query ≠ [] ∧
        ¬ (c.allDocs scoring name).isEmpty then [c.allDocs scoring name] else found)).filter
          fun docId _ =>
            !(c.negativeDocIds single scoring queryFields name (negativeTerms query)).elem docId := by
  unfold candidates
  rw [if_neg hterms, hfound]

theorem not_mem_combineDocs_nil (docId : Bytes) : docId ∉ combineDocs scoring settings [] := by
  rw [mem_combineDocs]
  simp [wordCount]

variable (single scoring settings) in
def queryResults (name query : Bytes) (queryFields : List Bytes) (c : CollectionIndex S) :
    List (ByteMap (Posting S)) :=
  match c.termResults single scoring queryFields settings name (positiveTerms settings query) with
  | none => []
  | some results =>
      if results = [] ∧ negativeTerms query ≠ [] ∧ ¬ (c.allDocs scoring name).isEmpty then
        [c.allDocs scoring name]
      else results

theorem rank_empty (limit : Nat) (score : Posting S × Nat → S) :
    rank scoring settings limit score ∅ = [] := by
  have hnil : pruneCandidates scoring settings limit [] = [] := by
    unfold pruneCandidates
    simp
  have hlist : (∅ : ByteMap (Posting S × Nat)).toList = [] := rfl
  unfold rank
  dsimp only
  rw [hlist, List.map_nil, hnil, List.map_nil, if_neg (by simp)]
  exact (scoring.sort_perm _).eq_nil

/-- **A search ranks its candidates.** -/
theorem search_eq_rank (name query : Bytes) (limit : Int) (queryFields : List Bytes)
    (c : CollectionIndex S) :
    c.search single scoring settings name query limit queryFields =
      rank scoring settings (min (max limit 0) 10000).toNat
        (scoring.finalScore c (positiveTerms settings query)
          (c.queryResults single scoring settings name query queryFields))
        (c.candidates single scoring settings name query queryFields) := by
  unfold search
  by_cases hterms : positiveTerms settings query = [] ∧ negativeTerms query = []
  · rw [if_pos hterms]
    unfold candidates
    rw [if_pos hterms, rank_empty]
  · rw [if_neg hterms]
    cases hresults : c.termResults single scoring queryFields settings name
      (positiveTerms settings query) with
    | none =>
      unfold candidates
      rw [if_neg hterms, hresults, rank_empty]
    | some found =>
      rw [candidates_of_results hterms hresults]
      unfold queryResults
      rw [hresults]
      dsimp only
      generalize (if found = [] ∧ negativeTerms query ≠ [] ∧ ¬ (c.allDocs scoring name).isEmpty then
        [c.allDocs scoring name] else found) = results
      split
      · rename_i hnil
        -- no word, no document
        have hempty : (combineDocs scoring settings results).filter (fun docId _ =>
            !(c.negativeDocIds single scoring queryFields name (negativeTerms query)).elem docId) =
              ∅ := by
          refine Std.ExtTreeMap.eq_empty_iff_forall_not_mem.mpr fun docId hmem => ?_
          rw [hnil] at hmem
          exact not_mem_combineDocs_nil docId (Std.ExtTreeMap.mem_of_mem_filter hmem)
        rw [hempty, rank_empty]
      · rfl

theorem mem_candidates_of_returns {limit : Int} {docId : Bytes}
    (h : c.Returns single scoring settings name query limit queryFields docId) :
    docId ∈ c.candidates single scoring settings name query queryFields := by
  obtain ⟨post, hpost, rfl⟩ := h
  rw [search_eq_rank] at hpost
  exact mem_of_mem_rank (foundIn_candidates single scoring settings name query queryFields c) hpost

/-- **What `Search` returns is in the collection.** -/
theorem search_found {limit : Int} {post : Posting S}
    (h : post ∈ c.search single scoring settings name query limit queryFields) :
    c.Holds single post.documentId := by
  have hmem := mem_candidates_of_returns ⟨post, h, rfl⟩
  obtain ⟨entry, hget⟩ := Option.isSome_iff_exists.mp
    (Std.ExtTreeMap.mem_iff_isSome_getElem?.mp hmem)
  exact (foundIn_candidates single scoring settings name query queryFields c _ entry hget).2

theorem Unpruned.le {limit : Int} {count : Nat} (h : Unpruned limit count) :
    (min (max limit 0) 10000).toNat = 0 ∨ count ≤ (min (max limit 0) 10000).toNat := by
  rcases h with h | h <;> omega

/-- **Without pruning, a query returns its candidates.** -/
theorem returns_iff {limit : Int}
    (h : Unpruned limit (c.candidates single scoring settings name query queryFields).size)
    (docId : Bytes) :
    c.Returns single scoring settings name query limit queryFields docId ↔
      docId ∈ c.candidates single scoring settings name query queryFields := by
  unfold Returns
  rw [search_eq_rank]
  exact exists_mem_rank (foundIn_candidates single scoring settings name query queryFields c) h.le _
    docId

theorem rank_of_le (hlimit : limit = 0 ∨ docs.size ≤ limit) (score : Posting S × Nat → S) :
    rank scoring settings limit score docs = rank scoring settings 0 score docs := by
  have hlength : (docs.toList.map Prod.snd).length = docs.size := by
    rw [List.length_map, Std.ExtTreeMap.length_toList]
  unfold rank
  dsimp only
  rw [pruneCandidates_of_le (by omega), pruneCandidates_of_le (.inl rfl),
    if_neg (by rw [List.length_map]; omega), if_neg (by omega)]

/-- **A limit that cuts nothing off changes nothing.** -/
theorem search_of_unpruned {limit : Int}
    (h : Unpruned limit (c.candidates single scoring settings name query queryFields).size) :
    c.search single scoring settings name query limit queryFields =
      c.search single scoring settings name query 0 queryFields := by
  rw [search_eq_rank, search_eq_rank, rank_of_le h.le]
  rfl

end CollectionIndex

end Hlquery.Index
