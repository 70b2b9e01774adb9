import Hlquery.Index.Deletions

/-!
# The documents that match a query

A query has words that are searched for and words that are negated. A word that is searched for is
resolved if some document has it, and the other ones are left out, unless the mode is `and`. In the
modes `or` and `min_should_match` the documents of the resolved words are put together in one map that
counts for each document by how many of the words it was found. The words are distinct, so the count
is the number of distinct resolved words that the document matches (`wordCount_resolved`).

If no word is resolved and there are negated ones, the search starts from all documents that memory
knows. That is meant for queries that only negate. **With a resolved word, or without negated ones,
the candidates are the documents that match enough of the resolved words, and a query that only
negates starts from all documents** (`mem_candidates_orMode`).

But what is asked is whether a word was resolved, not whether the query had one. A query for a word
that no document has is then answered with every document that the negated words leave. **The
documents that are returned match a word of the query, unless that happens**
(`returned_match_iff`).
-/

set_option autoImplicit false

namespace Hlquery.Index

open Bytes

/-! ## Distinct words -/

theorem nodup_eraseDups : ∀ (n : Nat) (terms : List Bytes), terms.length ≤ n → terms.eraseDups.Nodup
  | _, [], _ => by simp
  | n + 1, term :: terms, h => by
    have hle : (terms.filter fun b => !b == term).length ≤ n :=
      (List.length_filter_le _ _).trans (Nat.le_of_succ_le_succ h)
    rw [List.eraseDups_cons, List.nodup_cons]
    exact ⟨by simp, nodup_eraseDups n _ hle⟩

/-- **No word is searched for twice.** -/
theorem nodup_positiveTerms (settings : QuerySettings) (query : Bytes) :
    (positiveTerms settings query).Nodup := by
  have hunique : ∀ terms, (uniqueTerms terms).Nodup := fun terms =>
    nodup_eraseDups _ _ (Nat.le_refl _)
  unfold positiveTerms
  split
  · exact (hunique _).sublist (List.take_sublist _ _)
  · exact hunique _

namespace CollectionIndex

variable {S : Type} (single : SinglePrecision S) (scoring : Scoring S) (queryFields : List Bytes)
  (name : Bytes) (c : CollectionIndex S)

def Matches (docId word : Bytes) : Prop :=
  docId ∈ c.loadTermDocs single scoring queryFields name (normalizeTerm word)

instance (docId : Bytes) : DecidablePred (c.Matches single scoring queryFields name docId) :=
  fun word => inferInstanceAs
    (Decidable (docId ∈ c.loadTermDocs single scoring queryFields name (normalizeTerm word)))

def matchedTerms (words : List Bytes) (docId : Bytes) : Finset Bytes :=
  (c.resolvedTerms single scoring queryFields name words).toFinset.filter
    (c.Matches single scoring queryFields name docId)

def Negated (query docId : Bytes) : Prop :=
  ∃ word ∈ negativeTerms query, normalizeTerm word ≠ [] ∧
    c.Matches single scoring queryFields name docId word

variable {single scoring queryFields name c}

theorem isEmpty_iff_forall_not_mem {docs : ByteMap (Posting S)} :
    docs.isEmpty = true ↔ ∀ docId, docId ∉ docs := by
  rw [Std.ExtTreeMap.isEmpty_iff, Std.ExtTreeMap.eq_empty_iff_forall_not_mem]

variable {docId : Bytes} {settings : QuerySettings} {words : List Bytes}

theorem elem_negativeDocIds {query : Bytes} :
    (c.negativeDocIds single scoring queryFields name (negativeTerms query)).elem docId = true ↔
      c.Negated single scoring queryFields name query docId := by
  rw [List.elem_iff]
  unfold negativeDocIds
  rw [List.mem_flatMap]
  refine exists_congr fun word => and_congr_right fun _ => ?_
  dsimp only
  split
  · rename_i hnil
    simp [hnil]
  · rename_i hnil
    rw [Std.ExtTreeMap.mem_keys]
    exact ⟨fun h => ⟨hnil, h⟩, And.right⟩

/-- The documents that memory knows: those with recorded terms, and those with postings. -/
theorem mem_allDocs_iff : docId ∈ c.allDocs scoring name ↔ docId ∈ c.documentTerms.getD ∅ ∨
      docId ≠ [] ∧ ∃ (term : Bytes) (postings : List (Posting S)),
        (c.index.getD ∅)[term]? = some postings ∧ ∃ post ∈ postings, post.documentId = docId := by
  have hfold : ∀ (postings : List (Posting S)) (docs : ByteMap (Posting S)),
      docId ∈ postings.foldl (fun docs post => if docs.contains post.documentId then docs
        else docs.insert post.documentId post) docs ↔
      docId ∈ docs ∨ ∃ post ∈ postings, post.documentId = docId := by
    intro postings
    induction postings with
    | nil => intro docs; simp
    | cons post postings ih =>
      intro docs
      rw [List.foldl_cons, ih]
      simp only [List.mem_cons, exists_eq_or_imp, ← or_assoc]
      refine or_congr ?_ Iff.rfl
      split
      · rename_i hcontains
        refine ⟨.inl, ?_⟩
        rintro (h | rfl)
        · exact h
        · exact Std.ExtTreeMap.contains_iff_mem.mp hcontains
      · rw [Std.ExtTreeMap.mem_insert, Std.LawfulEqCmp.compare_eq_iff_eq, or_comm]
  unfold allDocs
  rw [hfold]
  simp only [List.mem_append, or_and_right, exists_or]
  constructor
  · rintro (h | ⟨post, hpost, rfl⟩ | ⟨post, hpost, rfl⟩)
    · cases h
    · obtain ⟨docId, hmem, rfl⟩ := List.mem_map.mp hpost
      exact .inl (Std.ExtTreeMap.mem_keys.mp hmem)
    · obtain ⟨found, hfound, rfl⟩ := List.mem_map.mp hpost
      obtain ⟨hlisted, hid⟩ := List.mem_filter.mp hfound
      obtain ⟨⟨term, postings⟩, hmem, hin⟩ := List.mem_flatMap.mp hlisted
      have hget := Std.ExtTreeMap.mem_toList_iff_getElem?_eq_some.mp hmem
      exact .inr ⟨by simpa using hid, term, postings, hget, found, hin, rfl⟩
  · rintro (h | ⟨hid, term, postings, hget, post, hpost, rfl⟩)
    · exact .inr (.inl ⟨_, List.mem_map_of_mem (Std.ExtTreeMap.mem_keys.mpr h), rfl⟩)
    · refine .inr (.inr ⟨_, List.mem_map_of_mem (List.mem_filter.mpr ⟨?_, by simpa using hid⟩), rfl⟩)
      exact List.mem_flatMap.mpr
        ⟨(term, postings), Std.ExtTreeMap.mem_toList_iff_getElem?_eq_some.mpr hget, hpost⟩

theorem wordCount_resolved (h : words.Nodup) (docId : Bytes) :
    wordCount ((c.resolvedTerms single scoring queryFields name words).map fun word =>
        c.loadTermDocs single scoring queryFields name (normalizeTerm word)) docId =
      (c.matchedTerms single scoring queryFields name words docId).card := by
  have hmatch : ((fun docs : ByteMap (Posting S) => docs.contains docId) ∘ fun word =>
      c.loadTermDocs single scoring queryFields name (normalizeTerm word)) =
        fun word => decide (c.Matches single scoring queryFields name docId word) := by
    funext word
    rw [Bool.eq_iff_iff, decide_eq_true_eq]
    exact Std.ExtTreeMap.contains_iff_mem
  have hnodup : ((c.resolvedTerms single scoring queryFields name words).filter fun word =>
      decide (c.Matches single scoring queryFields name docId word)).Nodup :=
    (h.sublist List.filter_sublist).sublist List.filter_sublist
  unfold wordCount
  rw [List.countP_map, hmatch, List.countP_eq_length_filter, ← List.toFinset_card_of_nodup hnodup,
    List.toFinset_filter]
  simp only [decide_eq_true_eq]
  rfl

/-! ## The candidates -/

theorem mem_filter_not_negated {docs : ByteMap (Posting S × Nat)} {query : Bytes} :
    docId ∈ docs.filter (fun docId _ =>
        !(c.negativeDocIds single scoring queryFields name (negativeTerms query)).elem docId) ↔
      docId ∈ docs ∧ ¬ c.Negated single scoring queryFields name query docId := by
  simp only [Std.ExtTreeMap.mem_filter, ← elem_negativeDocIds]
  simp

variable {settings : QuerySettings} {query : Bytes}

theorem neededWords_one_le (settings : QuerySettings) : neededWords settings 1 ≤ 1 := by
  unfold neededWords
  split
  · exact Nat.le_refl 1
  · exact Nat.le_refl 1
  · exact Nat.min_le_right _ _

/-- **The candidates of a query** that is not interrupted. They match enough of its resolved words; where
none is resolved, they are all documents if something is negated. -/
theorem mem_candidates : docId ∈ c.candidates single scoring settings name query queryFields ↔
      ¬ c.Interrupted single scoring queryFields name settings (positiveTerms settings query) ∧
      ¬ c.Negated single scoring queryFields name query docId ∧
      if c.resolvedTerms single scoring queryFields name (positiveTerms settings query) = [] then
        negativeTerms query ≠ [] ∧ docId ∈ c.allDocs scoring name
      else
        0 < (c.matchedTerms single scoring queryFields name (positiveTerms settings query)
            docId).card ∧
          neededWords settings (c.resolvedTerms single scoring queryFields name
            (positiveTerms settings query)).length ≤
            (c.matchedTerms single scoring queryFields name (positiveTerms settings query)
              docId).card := by
  unfold candidates
  dsimp only
  rw [termResults_eq]
  by_cases hterms : positiveTerms settings query = [] ∧ negativeTerms query = []
  · simp [hterms, resolvedTerms]
  rw [if_neg hterms]
  by_cases hstop : c.Interrupted single scoring queryFields name settings
      (positiveTerms settings query)
  · simp [hstop]
  rw [if_neg hstop, and_iff_right hstop]
  rw [mem_filter_not_negated, mem_combineDocs, and_comm]
  refine and_congr_right fun _ => ?_
  by_cases hresolved :
      c.resolvedTerms single scoring queryFields name (positiveTerms settings query) = []
  · rw [if_pos hresolved, hresolved, List.map_nil]
    by_cases hall : negativeTerms query ≠ [] ∧ ¬ (c.allDocs scoring name).isEmpty
    · rw [if_pos ⟨rfl, hall⟩, wordCount, List.countP_singleton, List.length_singleton,
        ← Std.ExtTreeMap.contains_iff_mem]
      split
      · rename_i hcontains
        simp [hcontains, hall.1, neededWords_one_le]
      · rename_i hcontains
        simp [hcontains]
    · rw [if_neg fun h => hall h.2]
      refine iff_of_false (by simp [wordCount]) fun h => hall ⟨h.1, fun hempty => ?_⟩
      exact isEmpty_iff_forall_not_mem.mp hempty docId h.2
  · rw [if_neg hresolved, if_neg fun h => hresolved (List.map_eq_nil_iff.mp h.1), List.length_map,
      wordCount_resolved (nodup_positiveTerms settings query)]

theorem resolvedTerms_eq_nil : c.resolvedTerms single scoring queryFields name words = [] ↔
      ∀ word ∈ words, normalizeTerm word ≠ [] →
        ∀ docId, ¬ c.Matches single scoring queryFields name docId word := by
  unfold resolvedTerms
  simp only [List.filter_eq_nil_iff, decide_eq_true_eq, not_and, not_not,
    isEmpty_iff_forall_not_mem]
  rfl

variable (single scoring queryFields name c) in
/-- **The candidates in the modes `or` and `min_should_match`.** If a word is resolved, they are the
documents that match the required number of distinct resolved words, without those that a negated word
takes away. A query without words, or without negated ones, of which nothing is resolved, has all
documents as candidates if it negates something, again without those that are taken away, and none
otherwise. -/
theorem mem_candidates_orMode (settings : QuerySettings)
    (hmode : MatchMode.ofText settings.matchMode ≠ .all) (query docId : Bytes) :
    (c.resolvedTerms single scoring queryFields name (positiveTerms settings query) ≠ [] →
      (docId ∈ c.candidates single scoring settings name query queryFields ↔
        neededWords settings (c.resolvedTerms single scoring queryFields name
            (positiveTerms settings query)).length ≤
          (c.matchedTerms single scoring queryFields name (positiveTerms settings query) docId).card ∧
        ¬ c.Negated single scoring queryFields name query docId)) ∧
    (positiveTerms settings query = [] ∨ negativeTerms query = [] →
      c.resolvedTerms single scoring queryFields name (positiveTerms settings query) = [] →
      (docId ∈ c.candidates single scoring settings name query queryFields ↔
        negativeTerms query ≠ [] ∧ docId ∈ c.allDocs scoring name ∧
          ¬ c.Negated single scoring queryFields name query docId)) := by
  have hgoes : ¬ c.Interrupted single scoring queryFields name settings
      (positiveTerms settings query) := by
    intro h
    rw [h.1] at hmode
    exact hmode (by decide +kernel)
  rw [mem_candidates, and_iff_right hgoes]
  constructor
  · intro hresolved
    have hneeded : 0 < neededWords settings (c.resolvedTerms single scoring queryFields name
        (positiveTerms settings query)).length := by
      have hpos := List.length_pos_iff.mpr hresolved
      unfold neededWords
      split
      · exact hpos
      · exact Nat.one_pos
      · exact Nat.lt_min.mpr ⟨by omega, hpos⟩
    rw [if_neg hresolved, and_comm]
    refine and_congr_left fun _ => ⟨And.right, fun h => ⟨Nat.lt_of_lt_of_le hneeded h, h⟩⟩
  · intro _ hnone
    rw [if_pos hnone, and_comm, and_assoc]

/-! ## A match for every document that is returned -/

variable (single scoring queryFields name c) in
/-- **Every document that a query with a word returns matches a word of it**, whatever the limit is,
exactly if the query negates nothing, or the mode is `and`, or one of its words is resolved, or the
negated words leave no document. -/
theorem returned_match_iff (settings : QuerySettings) (query : Bytes)
    (hword : ∃ word ∈ positiveTerms settings query, normalizeTerm word ≠ []) :
    (∀ (limit : Int) (docId : Bytes),
        c.Returns single scoring settings name query limit queryFields docId →
        ∃ word ∈ positiveTerms settings query, normalizeTerm word ≠ [] ∧
          c.Matches single scoring queryFields name docId word) ↔
      (negativeTerms query = [] ∨ settings.matchMode = lit "and" ∨
        (∃ word ∈ positiveTerms settings query, normalizeTerm word ≠ [] ∧
          ∃ docId, c.Matches single scoring queryFields name docId word) ∨
        ∀ docId ∈ c.allDocs scoring name,
          c.Negated single scoring queryFields name query docId) := by
  constructor
  · intro hall
    by_contra hcond
    push Not at hcond
    obtain ⟨hnegative, hand, hnone, docId, hmem, hkept⟩ := hcond
    -- nothing is found, so that every document that is returned is a mistake
    have hcandidate : docId ∈ c.candidates single scoring settings name query queryFields := by
      refine mem_candidates.mpr ⟨fun h => hand h.1, hkept, ?_⟩
      rw [if_pos (resolvedTerms_eq_nil.mpr hnone)]
      exact ⟨hnegative, hmem⟩
    obtain ⟨word, hin, hne, hmatch⟩ :=
      hall 0 docId ((returns_iff (.inl (Int.le_refl 0)) docId).mpr hcandidate)
    exact hnone word hin hne docId hmatch
  · intro hcond limit docId hreturned
    obtain ⟨hgoes, hkept, hmem⟩ := mem_candidates.mp (mem_candidates_of_returns hreturned)
    split at hmem
    · rename_i hresolved
      have hnone := resolvedTerms_eq_nil.mp hresolved
      rcases hcond with h | h | ⟨word, hin, hne, docId', hmatch⟩ | h
      · exact absurd h hmem.1
      · obtain ⟨word, hin, hne⟩ := hword
        exact absurd ⟨h, word, hin, hne, isEmpty_iff_forall_not_mem.mpr (hnone word hin hne)⟩ hgoes
      · exact absurd hmatch (hnone word hin hne docId')
      · exact absurd (h docId hmem.2) hkept
    · -- the document has at least one of the resolved words
      obtain ⟨word, hin⟩ := Finset.card_pos.mp hmem.1
      unfold matchedTerms resolvedTerms at hin
      simp only [Finset.mem_filter, List.mem_toFinset, List.mem_filter, decide_eq_true_eq] at hin
      exact ⟨word, hin.1.1, hin.1.2.1, hin.2⟩

end CollectionIndex

/-! ### Two documents -/

def orSettings : QuerySettings := ⟨0, lit "or", 1, 0⟩

/-- A collection with the documents `d` and `e`, which have one word each. -/
def twoIndexed : CollectionIndex Nat :=
  (InvertedIndex.run unitRanking
    [.addDocument smallSurroundings (lit "c") (titled (lit "d") (lit "word")),
      .addDocument smallSurroundings (lit "c") (titled (lit "e") (lit "other"))]).collection (lit "c")

theorem mem_candidates_orMode_twoIndexed :
    lit "d" ∈ twoIndexed.candidates bitScores countingScores orSettings (lit "c")
      (lit "word missing !other") [] := by
  refine ((CollectionIndex.mem_candidates_orMode bitScores countingScores [] (lit "c") twoIndexed
    orSettings (by decide +kernel) (lit "word missing !other") (lit "d")).1
      (by decide +kernel)).mpr ⟨by decide +kernel, ?_⟩
  rintro ⟨word, hword, -, hmatch⟩
  have hnegative : negativeTerms (lit "word missing !other") = [lit "other"] := by decide +kernel
  rw [hnegative, List.mem_singleton] at hword
  subst hword
  exact absurd hmatch (by decide +kernel)

/-- A query that only negates has a candidate that matches none of its words. -/
theorem negation_alone_is_candidate :
    lit "e" ∈ twoIndexed.candidates bitScores countingScores orSettings (lit "c") (lit "!word") [] ∧
      (twoIndexed.matchedTerms bitScores countingScores [] (lit "c")
        (positiveTerms orSettings (lit "!word")) (lit "e")).card <
        neededWords orSettings (twoIndexed.resolvedTerms bitScores countingScores [] (lit "c")
          (positiveTerms orSettings (lit "!word"))).length := by
  decide +kernel

theorem returned_match_twoIndexed :
    ∃ word ∈ positiveTerms orSettings (lit "word !other"), normalizeTerm word ≠ [] ∧
      twoIndexed.Matches bitScores countingScores [] (lit "c") (lit "d") word := by
  have hreturned : twoIndexed.Returns bitScores countingScores orSettings (lit "c")
      (lit "word !other") 0 [] (lit "d") := by
    unfold CollectionIndex.Returns
    decide +kernel
  exact (CollectionIndex.returned_match_iff bitScores countingScores [] (lit "c") twoIndexed
    orSettings (lit "word !other") ⟨lit "word", by decide +kernel, by decide +kernel⟩).mpr
      (.inr (.inr (.inl ⟨lit "word", by decide +kernel, by decide +kernel, lit "d",
        by decide +kernel⟩))) 0 (lit "d") hreturned

/-- A word that no document has is answered with a document that has no negated word. -/
theorem missing_word_returns_others :
    positiveTerms orSettings (lit "missing !word") = [lit "missing"] ∧
      (twoIndexed.loadTermDocs bitScores countingScores [] (lit "c") (lit "missing")).isEmpty = true ∧
      (twoIndexed.search bitScores countingScores orSettings (lit "c") (lit "missing !word") 0 []).map
        Posting.documentId = [lit "e"] := by
  decide +kernel

end Hlquery.Index
