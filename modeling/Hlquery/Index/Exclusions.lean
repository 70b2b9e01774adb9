import Hlquery.Index.SnapshotSearch
import Hlquery.Index.Vocabulary

/-!
# Negated words

A query negates a word with an exclamation mark or with `not` in front of it, and `Search` takes away
the documents that it finds for the word. The word is looked up as a whole: `NormalizeTerm` trims its
ends and leaves the characters inside as they are. The texts of the documents were cut at those
characters. So a word with a separator inside it is looked up under a term that no text has, and
nothing is taken away.

The lookup takes a document away that has all terms of the word if it finds one of these terms under
every key (`LooksFor`). For a word without wildcards that is all there is: **the documents with all
terms of a negated word are never returned exactly if one of the terms is the word as a whole, or its
singular or plural** (`negated_not_returned`).
-/

set_option autoImplicit false

namespace Hlquery.Index

open Bytes

/-! ## What a query negates -/

def negatedTokens : Bool → List Bytes → List Bytes
  | _, [] => []
  | nextTokenIsNegative, token :: tokens =>
      if toLower token = lit "not" then negatedTokens true tokens
      else
        let marked := token.head? == some (chr '!')
        if nextTokenIsNegative || marked then
          (if marked then token.tail else token) :: negatedTokens false tokens
        else negatedTokens false tokens

theorem negatedTerms_eq : ∀ (next : Bool) (tokens : List Bytes), negatedTerms next tokens =
      ((negatedTokens next tokens).map normalizeTerm).filter fun term => term ≠ []
  | _, [] => rfl
  | next, token :: tokens => by
    unfold negatedTerms negatedTokens
    dsimp only
    rw [negatedTerms_eq true tokens, negatedTerms_eq false tokens]
    split
    · rfl
    cases hnegative : next || token.head? == some (chr '!') with
    | false => simp
    | true =>
      simp only [Bool.true_and, if_true, List.map_cons, List.filter_cons]

theorem mem_negativeTerms {query term : Bytes} : term ∈ negativeTerms query ↔
      term ≠ [] ∧ ∃ token ∈ negatedTokens false (queryTokens query), normalizeTerm token = term := by
  unfold negativeTerms uniqueTerms
  rw [List.mem_eraseDups, negatedTerms_eq]
  simp only [List.mem_filter, List.mem_map, decide_eq_true_eq]
  tauto

theorem negatedTokens_marked {token : Bytes} (h : ∀ b ∈ token, isSpace b = false) :
    negatedTokens false (queryTokens (chr '!' :: token)) = [token] := by
  have hsplit : (chr '!' :: token).splitOnP isSpace = [chr '!' :: token] := by
    refine List.splitOnP_eq_singleton fun b hb => ?_
    rcases List.mem_cons.mp hb with rfl | hb
    · decide
    · simp [h b hb]
  have hnot : toLower (chr '!' :: token) ≠ lit "not" := by
    intro he
    have := (List.cons.inj he).1
    exact absurd this (by decide)
  have htokens : queryTokens (chr '!' :: token) = [chr '!' :: token] := by
    unfold queryTokens
    rw [hsplit]
    rfl
  rw [htokens, negatedTokens, if_neg hnot]
  rfl

namespace CollectionIndex

variable {S : Type} (single : SinglePrecision S) (scoring : Scoring S)

/-! ## What a document contains -/

/-- A document has a term in the searched fields: one of the two places has it under a key. -/
def Contains (queryFields : List Bytes) (c : CollectionIndex S) (docId term : Bytes) : Prop :=
  ∃ key ∈ buildScopedKeys queryFields term,
    (∃ index, c.searchedMMap = some index ∧
      ∃ post ∈ index.searchTerm single key, post.documentId = docId) ∨
    ∃ post ∈ c.postingsOf key, post.documentId = docId

def ContainsAll (queryFields : List Bytes) (c : CollectionIndex S) (docId token : Bytes) : Prop :=
  extractTerms token ≠ [] ∧ ∀ term ∈ extractTerms token, c.Contains single queryFields docId term

/-- The walk through the terms of the snapshot comes to every term that can be looked up. -/
def Walked (c : CollectionIndex S) : Prop :=
  ∀ index, c.searchedMMap = some index → ∀ key, index.searchTerm single key ≠ [] →
    key ∈ MMapIndex.mappedTerms [] index.termsData

/-- **The condition.** What a word is looked up as finds one of the terms: a pattern matches the term
under every key, in the way of memory and in that of the snapshot, and a plain word or its singular
or plural is the term. -/
def LooksFor (token term : Bytes) : Prop :=
  if isWildcardTerm (normalizeTerm token) then
    ∀ queryFields, ∀ key ∈ buildScopedKeys queryFields term,
      ∃ pattern ∈ buildScopedKeys queryFields (normalizeTerm token),
        scoring.wildcardMatch key pattern = true ∧
        ((isPrefixWildcardTerm (normalizeTerm token) && 1 < pattern.length) = true →
          startsWith key pattern.dropLast = true)
  else ∃ variant ∈ queryTermVariants scoring (normalizeTerm token), variant.1 = term

/-- Nothing with all terms of a negated word is returned, from any index that a run leaves whose
snapshot can be walked through if the word is a pattern. -/
def NeverReturned (ranking : Ranking S) (token : Bytes) : Prop :=
  ∀ (operations : List (Operation S)) (name : Bytes) (settings : QuerySettings) (query : Bytes)
    (limit : Int) (queryFields : List Bytes) (docId : Bytes),
    token ∈ negatedTokens false (queryTokens query) →
    (isWildcardTerm (normalizeTerm token) = true →
      ((InvertedIndex.run ranking operations).collection name).Walked single) →
    ((InvertedIndex.run ranking operations).collection name).Returns single scoring settings name
      query limit queryFields docId →
    ¬ ((InvertedIndex.run ranking operations).collection name).ContainsAll single queryFields docId
      token

/-! ## What is taken away -/

variable {single scoring} {c : CollectionIndex S} {name query docId : Bytes}
  {queryFields : List Bytes}

/-- **No candidate is negated**, from wherever the candidates start. -/
theorem not_negated_of_candidate {settings : QuerySettings}
    (h : docId ∈ c.candidates single scoring settings name query queryFields) :
    ¬ c.Negated single scoring queryFields name query docId :=
  (mem_candidates.mp h).2.1

theorem queryTermVariants_of_wildcard {word : Bytes} (h : isWildcardTerm word = true) :
    queryTermVariants scoring word = addVariant [] word (scoring.weight 100) := by
  unfold queryTermVariants
  simp [h]

theorem not_wildcard_of_variant {word : Bytes} (h : isWildcardTerm word = false)
    {variant : Bytes × S} (hvariant : variant ∈ queryTermVariants scoring word) :
    isWildcardTerm variant.1 = false := by
  obtain ⟨hstar, hquestion⟩ := not_mem_of_not_wildcard h
  have hmem := (isVariant_of_mem hvariant).mem
  unfold isWildcardTerm
  rw [Bool.or_eq_false_iff]
  constructor
  · rw [Bool.eq_false_iff, Ne, List.elem_iff]
    intro hb
    exact (hmem _ hb).elim hstar fun hend => absurd hend (by decide)
  · rw [Bool.eq_false_iff, Ne, List.elem_iff]
    intro hb
    exact (hmem _ hb).elim hquestion fun hend => absurd hend (by decide)

theorem LooksFor.mem_loadTermDocs {token term : Bytes} (h : LooksFor scoring token term)
    (hnormal : normalizeTerm token ≠ [])
    (hwalked : isWildcardTerm (normalizeTerm token) = true → c.Walked single)
    (hcontains : c.Contains single queryFields docId term) :
    docId ∈ c.loadTermDocs single scoring queryFields name (normalizeTerm token) := by
  obtain ⟨key, hkey, hplace⟩ := hcontains
  rw [CollectionIndex.mem_loadTermDocs]
  unfold LooksFor at h
  cases hwild : isWildcardTerm (normalizeTerm token) with
  | false =>
    rw [hwild] at h
    obtain ⟨variant, hvariant, rfl⟩ := h
    have hplain := not_wildcard_of_variant hwild hvariant
    refine hplace.imp ?_ ?_
    · rintro ⟨index, hindex, hpost⟩
      refine ⟨index, hindex, variant, hvariant, key, hkey, ?_⟩
      unfold mappedPostings
      rwa [hplain]
    · intro hpost
      refine ⟨variant, hvariant, key, hkey, ?_⟩
      unfold memoryPostings
      rwa [hplain]
  | true =>
    rw [hwild] at h
    obtain ⟨pattern, hpattern, hmatch, hstarts⟩ := h queryFields key hkey
    have hvariant : (normalizeTerm token, scoring.weight 100) ∈
        queryTermVariants scoring (normalizeTerm token) := by
      rw [queryTermVariants_of_wildcard hwild]
      simp [addVariant, hnormal]
    refine hplace.imp ?_ ?_
    · rintro ⟨index, hindex, post, hpost, hid⟩
      refine ⟨index, hindex, _, hvariant, pattern, hpattern, ?_⟩
      have hterm := hwalked hwild index hindex key (List.ne_nil_of_mem hpost)
      unfold mappedPostings
      rw [hwild, if_pos rfl]
      split
      · rename_i hprefix
        have hlong : 1 < pattern.length := by
          rw [Bool.and_eq_true, decide_eq_true_eq] at hprefix
          exact hprefix.2
        have hne : pattern.dropLast ≠ [] := by
          rw [← List.length_pos_iff, List.length_dropLast]
          omega
        unfold MMapIndex.searchPrefix
        rw [if_neg hne, exists_mem_searchTerms]
        exact ⟨key, hterm, hstarts hprefix, post, hpost, hid⟩
      · unfold MMapIndex.searchWildcard
        rw [if_neg (ne_nil_of_mem_keys hnormal hpattern), exists_mem_searchTerms]
        exact ⟨key, hterm, hmatch, post, hpost, hid⟩
    · rintro ⟨post, hpost, hid⟩
      refine ⟨_, hvariant, pattern, hpattern, post, ?_, hid⟩
      unfold memoryPostings
      rw [hwild, if_pos rfl]
      unfold postingsOf at hpost
      cases hget : (c.index.getD ∅)[key]? with
      | none =>
        rw [hget] at hpost
        cases hpost
      | some postings =>
        rw [hget] at hpost
        refine List.mem_flatMap.mpr ⟨(key, postings), List.mem_filter.mpr ⟨?_, hmatch⟩, hpost⟩
        exact Std.ExtTreeMap.mem_toList_iff_getElem?_eq_some.mpr hget

/-- **A word that looks for one of its terms** takes away what has them all, in every index. -/
theorem not_containsAll_of_returns {settings : QuerySettings} {limit : Int} {token : Bytes}
    (htoken : token ∈ negatedTokens false (queryTokens query))
    (hterm : ∃ term ∈ extractTerms token, LooksFor scoring token term)
    (hwalked : isWildcardTerm (normalizeTerm token) = true → c.Walked single)
    (hreturned : c.Returns single scoring settings name query limit queryFields docId) :
    ¬ c.ContainsAll single queryFields docId token := by
  intro hcontains
  obtain ⟨term, hterm, hlooks⟩ := hterm
  have hnormal := normalizeTerm_ne_nil_of_mem hterm
  refine not_negated_of_candidate (mem_candidates_of_returns hreturned) ?_
  refine ⟨normalizeTerm token, mem_negativeTerms.mpr ⟨hnormal, token, htoken, rfl⟩, ?_, ?_⟩
  · rwa [normalizeTerm_idem]
  unfold Matches
  rw [normalizeTerm_idem]
  exact hlooks.mem_loadTermDocs hnormal hwalked (hcontains.2 term hterm)

/-! ## A document that has a word as its title -/

theorem hasText_titled {id title field text term : Bytes} (hid : extractTerms id = [])
    (htext : (titled id title).HasText field text) (hterm : term ∈ extractTerms text) :
    field = lit "title" ∧ term ∈ extractTerms title := by
  have hnil : extractTerms ([] : Bytes) = [] := rfl
  have hget := htext.1
  unfold Document.fieldTermsByName titled at hget
  simp only [List.foldl_nil, ByteMap.get_insert, hid, hnil] at hget
  split at hget
  · rw [← Option.some.inj hget] at hterm
    cases hterm
  · split at hget
    · rw [← Option.some.inj hget] at hterm
      cases hterm
    · split at hget
      · rename_i hfield
        rw [← Option.some.inj hget] at hterm
        exact ⟨hfield, hterm⟩
      · cases hget

theorem mem_keys_titled (ranking : Ranking S) {id title word : Bytes} (hid : extractTerms id = []) :
    buildFieldScopedTerm (lit "title") word ∈
        ((titled id title).postings ranking name).map Prod.fst ↔ word ∈ extractTerms title := by
  rw [Document.mem_keys]
  constructor
  · rintro (hplain | ⟨field, text, htext, term, hterm, he⟩)
    · exact absurd (colon_mem_buildFieldScopedTerm _ _) (colon_not_mem_allTermsList _ hplain)
    · obtain ⟨rfl, hterm⟩ := hasText_titled hid htext hterm
      rw [(List.cons.inj (List.append_cancel_left he)).2]
      exact hterm
  · intro hword
    refine .inr ⟨lit "title", title, ⟨?_, fun term ht => ?_⟩, word, hword, rfl⟩
    · unfold Document.fieldTermsByName titled
      simp only [List.foldl_nil, ByteMap.get_insert]
      rw [if_neg (by decide), if_neg (by decide), if_pos trivial]
    · unfold Document.allTermsList titled
      simp [ht]

section Titled

variable {ranking : Ranking S} {id token : Bytes}

theorem searchedMMap_soleDocument (doc : Document) :
    (soleDocument ranking name doc).searchedMMap = none := by
  unfold searchedMMap
  rw [(soleDocument_spec ranking name doc).1]
  rfl

/-- The only document is what every word finds that finds something. -/
theorem eq_of_mem_loadTermDocs_soleDocument {doc : Document} {word : Bytes}
    (h : docId ∈ (soleDocument ranking name doc).loadTermDocs single scoring queryFields name word) :
    docId = doc.id := by
  rw [CollectionIndex.mem_loadTermDocs, searchedMMap_soleDocument] at h
  rcases h with ⟨index, hindex, -⟩ | ⟨variant, -, key, -, post, hpost, hid⟩
  · cases hindex
  have hposting : ∃ term, post ∈ (soleDocument ranking name doc).postingsOf term := by
    unfold memoryPostings at hpost
    split at hpost
    · obtain ⟨⟨term, postings⟩, hentry, hpost⟩ := List.mem_flatMap.mp hpost
      refine ⟨term, ?_⟩
      unfold postingsOf
      rw [Std.ExtTreeMap.mem_toList_iff_getElem?_eq_some.mp (List.mem_filter.mp hentry).1]
      exact hpost
    · exact ⟨key, hpost⟩
  obtain ⟨term, hpost⟩ := hposting
  exact ((exists_posting_soleDocument ranking name doc).mp ⟨post, hpost, hid⟩).1

/-- A word whose variants are not in the title is not found there. -/
theorem not_mem_loadTermDocs_titled {word : Bytes} (hid : extractTerms id = [])
    (hplain : isWildcardTerm word = false)
    (hnone : ∀ variant ∈ queryTermVariants scoring word, variant.1 ∉ extractTerms token) :
    docId ∉ (soleDocument ranking name (titled id token)).loadTermDocs single scoring
      [lit "title"] name word := by
  intro h
  rw [CollectionIndex.mem_loadTermDocs, searchedMMap_soleDocument] at h
  rcases h with ⟨index, hindex, -⟩ | ⟨variant, hvariant, key, hkey, post, hpost, hpostId⟩
  · cases hindex
  have hkey : key = buildFieldScopedTerm (lit "title") variant.1 := by
    have hkeys : buildScopedKeys [lit "title"] variant.1 =
        [buildFieldScopedTerm (lit "title") variant.1] := rfl
    rwa [hkeys, List.mem_singleton] at hkey
  unfold memoryPostings at hpost
  rw [not_wildcard_of_variant hplain hvariant] at hpost
  have hkeys := ((exists_posting_soleDocument ranking name (titled id token)).mp
    ⟨post, hpost, hpostId⟩).2
  rw [hkey, mem_keys_titled ranking hid] at hkeys
  exact hnone variant hvariant hkeys

/-- **The only document is returned** in the mode `or` by a query that negates something else. -/
theorem returns_soleDocument {doc : Document} (hnegative : negativeTerms query ≠ [])
    (hkept : ¬ (soleDocument ranking name doc).Negated single scoring queryFields name query doc.id) :
    (soleDocument ranking name doc).Returns single scoring orSettings name query 0 queryFields
      doc.id := by
  rw [returns_iff (.inl (Int.le_refl 0)), mem_candidates]
  refine ⟨fun h => absurd h.1 (by decide), hkept, ?_⟩
  split
  · -- nothing is found, so that the search starts from all documents
    exact ⟨hnegative, mem_allDocs_iff.mpr (.inl (soleDocument_spec ranking name doc).2.2)⟩
  · -- what one of the words finds is the document
    rename_i hresolved
    obtain ⟨word, hword⟩ := List.exists_mem_of_ne_nil _ hresolved
    have hfilter := List.mem_filter.mp hword
    simp only [decide_eq_true_eq, isEmpty_iff_forall_not_mem, not_forall, not_not] at hfilter
    obtain ⟨-, -, found, hmem⟩ := hfilter
    have hmatch : word ∈ (soleDocument ranking name doc).matchedTerms single scoring queryFields name
        (positiveTerms orSettings query) doc.id := by
      unfold matchedTerms
      rw [Finset.mem_filter, List.mem_toFinset]
      refine ⟨hword, ?_⟩
      rw [← eq_of_mem_loadTermDocs_soleDocument hmem]
      exact hmem
    have hpos : 0 < ((soleDocument ranking name doc).matchedTerms single scoring queryFields name
        (positiveTerms orSettings query) doc.id).card := Finset.card_pos.mpr ⟨word, hmatch⟩
    exact ⟨hpos, hpos⟩

end Titled

/-! ## Which words are never returned -/

variable (single scoring) in
/-- **The documents with all terms of a negated word.** If one of the terms is what the word is looked
up as, no search returns such a document, for every index and query. For a word without wildcards
that is the only way, unless it has no terms. -/
theorem negated_not_returned (ranking : Ranking S) (token : Bytes) :
    (extractTerms token = [] ∨ (∃ term ∈ extractTerms token, LooksFor scoring token term) →
      NeverReturned single scoring ranking token) ∧
    ((∀ b ∈ token, isSpace b = false) → isWildcardTerm (normalizeTerm token) = false →
      NeverReturned single scoring ranking token →
      extractTerms token = [] ∨ ∃ term ∈ extractTerms token, LooksFor scoring token term) := by
  constructor
  · rintro (hnil | hterm) operations name settings query limit queryFields docId htoken hwalked hreturned
    · exact fun hcontains => hcontains.1 hnil
    · exact not_containsAll_of_returns htoken hterm hwalked hreturned
  · intro hspace hplain hnever
    by_contra hcondition
    rw [not_or] at hcondition
    obtain ⟨hterms, hnone⟩ := hcondition
    -- the document with the word as its title, searched for with the word negated
    have hid : extractTerms (lit "-") = [] := by decide +kernel
    have htokens := negatedTokens_marked hspace
    have hnormal : normalizeTerm token ≠ [] := by
      obtain ⟨term, hterm⟩ := List.exists_mem_of_ne_nil _ hterms
      exact normalizeTerm_ne_nil_of_mem hterm
    have hmissing : ∀ variant ∈ queryTermVariants scoring (normalizeTerm token),
        variant.1 ∉ extractTerms token := by
      intro variant hvariant hmem
      refine hnone ⟨variant.1, hmem, ?_⟩
      unfold LooksFor
      rw [hplain]
      exact ⟨variant, hvariant, rfl⟩
    have hnegative : ∀ term, term ∈ negativeTerms (chr '!' :: token) ↔ term = normalizeTerm token := by
      intro term
      rw [mem_negativeTerms, htokens]
      constructor
      · rintro ⟨-, marked, hmarked, rfl⟩
        rw [List.mem_singleton.mp hmarked]
      · rintro rfl
        exact ⟨hnormal, token, List.mem_singleton_self _, rfl⟩
    have hkept : ¬ (soleDocument ranking (lit "c") (titled (lit "-") token)).Negated single scoring
        [lit "title"] (lit "c") (chr '!' :: token) (lit "-") := by
      rintro ⟨word, hword, -, hmatch⟩
      rw [(hnegative word).mp hword] at hmatch
      unfold Matches at hmatch
      rw [normalizeTerm_idem] at hmatch
      exact not_mem_loadTermDocs_titled hid hplain hmissing hmatch
    have hreturned : (soleDocument ranking (lit "c") (titled (lit "-") token)).Returns single scoring
        orSettings (lit "c") (chr '!' :: token) 0 [lit "title"] (lit "-") :=
      returns_soleDocument (List.ne_nil_of_mem ((hnegative _).mpr rfl)) hkept
    refine hnever [firstAddition (lit "c") (titled (lit "-") token)] (lit "c") orSettings
      (chr '!' :: token) 0 [lit "title"] (lit "-") (by rw [htokens]; exact List.mem_singleton_self _)
      (fun hwild => absurd hwild (by rw [hplain]; decide)) hreturned ⟨hterms, fun term hterm => ?_⟩
    refine ⟨buildFieldScopedTerm (lit "title") term, List.mem_singleton_self _, .inr ?_⟩
    exact (exists_posting_soleDocument ranking (lit "c") (titled (lit "-") token)).mpr
      ⟨rfl, (mem_keys_titled ranking hid).mpr hterm⟩

end CollectionIndex

/-! ### A hyphen inside a negated word -/

def hyphenated : InvertedIndex Nat :=
  InvertedIndex.run unitRanking [.addDocument smallSurroundings (lit "c")
    (titled (lit "d") (lit "foo bar"))]

theorem negated_not_returned_word :
    CollectionIndex.NeverReturned bitScores countingScores unitRanking (lit "Foo!") := by
  have hlooks : CollectionIndex.LooksFor countingScores (lit "Foo!") (lit "foo") := by
    unfold CollectionIndex.LooksFor
    rw [if_neg (by decide +kernel)]
    decide +kernel
  exact (CollectionIndex.negated_not_returned bitScores countingScores unitRanking (lit "Foo!")).1
    (.inr ⟨lit "foo", by decide +kernel, hlooks⟩)

/-- The document has both terms of the negated word and is returned. -/
theorem hyphenated_returned : negatedTokens false (queryTokens (lit "!foo-bar")) = [lit "foo-bar"] ∧
      extractTerms (lit "foo-bar") = [lit "foo", lit "bar"] ∧
      ((hyphenated.collection (lit "c")).postingsOf (lit "foo")).map Posting.documentId =
        [lit "d"] ∧
      ((hyphenated.collection (lit "c")).postingsOf (lit "bar")).map Posting.documentId =
        [lit "d"] ∧
      ((hyphenated.collection (lit "c")).search bitScores countingScores ⟨0, lit "and", 1, 0⟩
        (lit "c") (lit "!foo-bar") 0 []).map Posting.documentId = [lit "d"] := by
  decide +kernel

end Hlquery.Index
