import Hlquery.Index.Exclusions

/-!
# Patterns and the synthetic terms of fields

The terms of a field are indexed a second time under synthetic terms that begin with `__field__` and
the name of the field. A pattern that is searched for without fields is tried on every term that the
index has, the synthetic ones included. So it can match the name of a field, and then finds every
document that has anything in that field.

A pattern is confined if it never matches a synthetic term of a text without matching a term of the
text itself (`Confined`). A pattern that begins with a letter or digit is (`confined_of_head`), since
the synthetic terms begin with an underscore. **A query for a pattern returns only documents with a
plain term that matches exactly if the pattern is confined** (`pattern_plain_iff`).
-/

set_option autoImplicit false

namespace Hlquery.Index

open Bytes

/-! ## What a pattern matches -/

/-- **The condition.** A synthetic term of a text is matched only if a term of the text is. -/
def Confined (pattern : Bytes) : Prop :=
  ∀ field text : Bytes,
    (∃ term ∈ extractTerms text, wildcardMatch (buildFieldScopedTerm field term) pattern = true) →
      ∃ term ∈ extractTerms text, wildcardMatch term pattern = true

theorem charEqualCaseInsensitive_self (b : UInt8) : charEqualCaseInsensitive b b = true := by
  rw [charEqualCaseInsensitive_eq, beq_self_eq_true]

theorem matchPrefix_append : ∀ s rest : Bytes,
    matchPrefix charEqualCaseInsensitive (s ++ rest) s = true
  | [], [] => rfl
  | [], _ :: _ => rfl
  | b :: s, rest => by
    rw [List.cons_append]
    unfold matchPrefix
    rw [charEqualCaseInsensitive_self, matchPrefix_append s rest]
    rfl

theorem normalizePattern_cons {a : UInt8} (h : a ≠ star) :
    ∀ s : Bytes, normalizePattern (a :: s) = a :: normalizePattern s
  | [] => rfl
  | b :: s => by rw [normalizePattern, if_neg fun hc => h hc.1]

/-- A pattern that does not begin with a star hides nothing. -/
theorem hidesWildcard_cons {a : UInt8} (h : a ≠ star) (s : Bytes) :
    hidesWildcard (normalizePattern (a :: s)) = false := by
  rw [normalizePattern_cons h]
  simp [hidesWildcard, h]

theorem cString_append (s rest : Bytes) :
    cString (s ++ rest) = if 0 ∈ s then cString s else s ++ cString rest := by
  induction s with
  | nil => rfl
  | cons b s ih =>
    unfold cString at ih ⊢
    by_cases hb : b = 0
    · simp [hb]
    rw [List.cons_append, List.takeWhile_cons_of_pos (by simpa using hb),
      List.takeWhile_cons_of_pos (by simpa using hb), ih]
    simp only [List.mem_cons, Ne.symm hb, false_or]
    split <;> rfl

/-- **What starts with a word** matches the word with a star behind it. -/
theorem wildcardMatch_of_startsWith {str part : Bytes} (hstar : star ∉ part)
    (hquestion : questionMark ∉ part) (hne : part ≠ []) (h : startsWith str part = true) :
    wildcardMatch str (part ++ [star]) = true := by
  obtain ⟨rest, rfl⟩ := List.isPrefixOf_iff_prefix.mp h
  obtain ⟨a, part, rfl⟩ := List.exists_cons_of_ne_nil hne
  unfold wildcardMatch
  rw [cString_append, cString_append]
  by_cases hz : 0 ∈ a :: part
  · -- both are cut off inside the word
    have hsub : cString (a :: part) ⊆ a :: part := (List.takeWhile_prefix _).subset
    rw [if_pos hz, if_pos hz]
    generalize cString (a :: part) = word at hsub
    have hidden : hidesWildcard (normalizePattern word) = false := by
      cases word with
      | nil => rfl
      | cons b word => exact hidesWildcard_cons (fun he => hstar (he ▸ hsub List.mem_cons_self)) _
    have hself : Glob charEqualCaseInsensitive word (word ++ []) :=
      (glob_append fun hm => hstar (hsub hm)).mpr ⟨word, [], by simp,
        List.forall₂_same.mpr fun b _ => .inr (charEqualCaseInsensitive_self b), rfl⟩
    exact (matchInternal_iff hidden).mpr (by simpa using hself)
  · have hone : cString [star] = [star] := rfl
    rw [if_neg hz, if_neg hz, hone, matchInternal_stem hstar hquestion]
    exact matchPrefix_append _ _

theorem underscore_equal (b : UInt8) (h : b ≠ chr '_') :
    charEqualCaseInsensitive (chr '_') b = false := by
  have hall : ∀ n < 256, UInt8.ofNat n ≠ chr '_' →
      charEqualCaseInsensitive (chr '_') (UInt8.ofNat n) = false := by
    decide +kernel
  have := hall b.toNat (UInt8.toNat_lt b)
  rw [UInt8.ofNat_toNat] at this
  exact this h

/-- A pattern that begins with something else does not match what begins with an underscore. -/
theorem not_wildcardMatch_underscore {b : UInt8} (hstar : b ≠ star) (hquestion : b ≠ questionMark)
    (hunderscore : b ≠ chr '_') (str pattern : Bytes) :
    wildcardMatch (chr '_' :: str) (b :: pattern) = false := by
  have hstr : cString (chr '_' :: str) = chr '_' :: cString str := rfl
  unfold wildcardMatch
  rw [hstr]
  by_cases hzero : b = 0
  · -- the pattern is empty
    subst hzero
    rfl
  · have hpattern : cString (b :: pattern) = b :: cString pattern := by
      unfold cString
      rw [List.takeWhile_cons_of_pos (by simpa using hzero)]
    rw [hpattern, Bool.eq_false_iff, Ne, matchInternal_iff (hidesWildcard_cons hstar _),
      glob_cons_cons hstar, Fits, underscore_equal b hunderscore]
    simp [hquestion]

/-- **A pattern that begins with neither a wildcard nor an underscore is confined.** -/
theorem confined_of_head {b : UInt8} (hstar : b ≠ star) (hquestion : b ≠ questionMark)
    (hunderscore : b ≠ chr '_') (pattern : Bytes) : Confined (b :: pattern) := by
  rintro field text ⟨term, -, hmatch⟩
  have hnone := not_wildcardMatch_underscore hstar hquestion hunderscore
    (lit "_field__" ++ field ++ chr ':' :: term) pattern
  exact absurd hmatch (Bool.eq_false_iff.mp hnone)

/-! ## What the walk through a snapshot reads -/

theorem length_mappedTerms_le {rest piece : Bytes} :
    ∀ {term current : Bytes}, piece ∈ MMapIndex.mappedTerms current (term ++ 0 :: rest) →
      piece.length ≤ current.length + term.length ∨ piece ∈ MMapIndex.mappedTerms [] rest
  | [], current, h => by
    rw [List.nil_append, MMapIndex.mappedTerms, if_pos rfl] at h
    rcases List.mem_cons.mp h with rfl | h
    · exact .inl (by simp)
    · exact .inr h
  | b :: term, current, h => by
    rw [List.cons_append, MMapIndex.mappedTerms] at h
    split at h
    · rcases List.mem_cons.mp h with rfl | h
      · exact .inl (by simp)
      · exact (length_mappedTerms_le h).imp_left fun hle => by
          simp only [List.length_nil, List.length_cons] at hle ⊢
          omega
    · exact (length_mappedTerms_le h).imp_left fun hle => by
        simp only [List.length_cons] at hle ⊢
        omega

section Walk

variable {S : Type} {single : SinglePrecision S} {order : PostingSort S}
  {terms : ByteMap (List (Posting S))} {index : MMapIndex}

/-- The pieces that are read are not longer than the terms. -/
theorem IsSnapshot.short_of_mappedTerms (h : IsSnapshot single order terms index) {piece : Bytes}
    (hpiece : piece ∈ MMapIndex.mappedTerms [] index.termsData) : piece.length < 2 ^ 31 := by
  have hbuffer : ∀ entries : List (Bytes × Bytes), (∀ entry ∈ entries, entry.1.length < 2 ^ 31) →
      piece ∈ MMapIndex.mappedTerms [] (termsBuffer entries) → piece.length < 2 ^ 31 := by
    intro entries
    induction entries with
    | nil => intro _ hmem; simp [termsBuffer, MMapIndex.mappedTerms] at hmem
    | cons entry entries ih =>
      intro hshort hmem
      have hcons : termsBuffer (entry :: entries) = entry.1 ++ 0 :: termsBuffer entries := by
        simp [termsBuffer]
      rw [hcons] at hmem
      rcases length_mappedTerms_le hmem with hle | hmem
      · have := hshort entry List.mem_cons_self
        rw [List.length_nil, Nat.zero_add] at hle
        omega
      · exact ih (fun e he => hshort e (List.mem_cons_of_mem _ he)) hmem
  rw [h.termsData] at hpiece
  refine hbuffer _ (fun entry hentry => ?_) hpiece
  obtain ⟨⟨term, postings⟩, hterm, rfl⟩ := List.mem_map.mp hentry
  have hget := Std.ExtTreeMap.mem_toList_iff_getElem?_eq_some.mp hterm
  exact h.short term (Std.ExtTreeMap.mem_iff_isSome_getElem?.mpr (by rw [hget]; rfl))

/-- **What a walk finds is in the postings** that the snapshot was written from. -/
theorem IsSnapshot.posting_of_searchTerms (h : IsSnapshot single order terms index)
    (scoring : Scoring S) {test : Bytes → Bool} {docId : Bytes}
    (hfound : ∃ post ∈ index.searchTerms single scoring test, post.documentId = docId) :
    ∃ term, test term = true ∧ ∃ post ∈ terms[term]?.getD [], post.documentId = docId := by
  obtain ⟨term, hterm, htest, hpost⟩ := (exists_mem_searchTerms scoring test).mp hfound
  refine ⟨term, htest, ?_⟩
  have hshort := h.short_of_mappedTerms hterm
  have hne : term ≠ [] := by
    rintro rfl
    exact nomatch hpost
  exact (h.exists_mem_searchTerm hne hshort).mp hpost

end Walk

/-! ## A query for one pattern -/

namespace CollectionIndex

variable {S : Type} {single : SinglePrecision S} {scoring : Scoring S} {c : CollectionIndex S}
  {name query docId : Bytes} {settings : QuerySettings} {queryFields : List Bytes}

/-- **The candidates of one word** are its documents, in every mode. -/
theorem mem_candidates_single {word : Bytes} (hword : positiveTerms settings query = [word])
    (hnegative : negativeTerms query = []) (hnormal : normalizeTerm word ≠ []) :
    docId ∈ c.candidates single scoring settings name query queryFields ↔
      c.Matches single scoring queryFields name docId word := by
  have hkept : ¬ c.Negated single scoring queryFields name query docId := by
    rintro ⟨word, hmem, -⟩
    rw [hnegative] at hmem
    cases hmem
  rw [mem_candidates, and_iff_right hkept, hword]
  unfold Interrupted matchedTerms resolvedTerms
  by_cases hempty : (c.loadTermDocs single scoring queryFields name (normalizeTerm word)).isEmpty
  · have hnone : ¬ c.Matches single scoring queryFields name docId word :=
      isEmpty_iff_forall_not_mem.mp hempty docId
    simp [hempty, hnegative, hnone]
  · rw [Std.ExtTreeMap.isEmpty_iff] at hempty
    by_cases hmatch : c.Matches single scoring queryFields name docId word
    · simp [hnormal, hempty, hmatch, Finset.filter_singleton, neededWords_one_le]
    · simp [hnormal, hempty, hmatch, Finset.filter_singleton]

theorem foundBy_pattern {lookup : Bytes → Bytes → List (Posting S)} {pattern : Bytes}
    (hwild : isWildcardTerm pattern = true) :
    FoundBy scoring [] lookup pattern docId ↔
      ∃ post ∈ lookup pattern pattern, post.documentId = docId := by
  have hne : pattern ≠ [] := by
    rintro rfl
    exact absurd hwild (by decide)
  have hvariants : queryTermVariants scoring pattern = [(pattern, scoring.weight 100)] := by
    rw [queryTermVariants_of_wildcard hwild]
    simp [addVariant, hne]
  unfold FoundBy
  rw [hvariants]
  simp [buildScopedKeys]

/-- The test that the snapshot makes for a pattern is not wider than the pattern. -/
theorem exists_mem_mappedPostings {index : MMapIndex} {order : PostingSort S}
    {terms : ByteMap (List (Posting S))} (h : IsSnapshot single order terms index) {pattern : Bytes}
    (hmatch : scoring.wildcardMatch = wildcardMatch) (hwild : isWildcardTerm pattern = true)
    (hfound : ∃ post ∈ mappedPostings single scoring index pattern pattern,
      post.documentId = docId) :
    ∃ term, wildcardMatch term pattern = true ∧
      ∃ post ∈ terms[term]?.getD [], post.documentId = docId := by
  unfold mappedPostings at hfound
  rw [hwild, if_pos rfl] at hfound
  split at hfound
  · rename_i hprefix
    rw [Bool.and_eq_true, decide_eq_true_eq] at hprefix
    obtain ⟨hlast, hlong⟩ := hprefix
    unfold isPrefixWildcardTerm at hlast
    rw [Bool.and_eq_true, Bool.not_eq_true', beq_iff_eq] at hlast
    obtain ⟨hstar, hquestion⟩ := not_mem_of_not_wildcard hlast.2
    have hne : pattern.dropLast ≠ [] := by
      rw [← List.length_pos_iff, List.length_dropLast]
      omega
    have hpattern : pattern.dropLast ++ [star] = pattern :=
      List.dropLast_append_getLast? _ hlast.1
    unfold MMapIndex.searchPrefix at hfound
    rw [if_neg hne] at hfound
    obtain ⟨term, hstarts, hpost⟩ := h.posting_of_searchTerms scoring hfound
    have hterm := wildcardMatch_of_startsWith hstar hquestion hne hstarts
    rw [hpattern] at hterm
    exact ⟨term, hterm, hpost⟩
  · unfold MMapIndex.searchWildcard at hfound
    split at hfound
    · obtain ⟨post, hpost, -⟩ := hfound
      cases hpost
    · rw [hmatch] at hfound
      exact h.posting_of_searchTerms scoring hfound

theorem exists_mem_memoryPostings {terms : ByteMap (List (Posting S))} {pattern : Bytes}
    (hmatch : scoring.wildcardMatch = wildcardMatch) (hwild : isWildcardTerm pattern = true) :
    (∃ post ∈ memoryPostings scoring terms pattern pattern, post.documentId = docId) ↔
      ∃ term, wildcardMatch term pattern = true ∧
        ∃ post ∈ terms[term]?.getD [], post.documentId = docId := by
  unfold memoryPostings
  rw [hwild, if_pos rfl, hmatch]
  constructor
  · rintro ⟨post, hpost, hid⟩
    obtain ⟨⟨term, postings⟩, hentry, hpost⟩ := List.mem_flatMap.mp hpost
    obtain ⟨hterm, htest⟩ := List.mem_filter.mp hentry
    refine ⟨term, htest, post, ?_, hid⟩
    rw [Std.ExtTreeMap.mem_toList_iff_getElem?_eq_some.mp hterm]
    exact hpost
  · rintro ⟨term, htest, post, hpost, hid⟩
    cases hget : terms[term]? with
    | none =>
      rw [hget] at hpost
      cases hpost
    | some postings =>
      rw [hget] at hpost
      exact ⟨post, List.mem_flatMap.mpr ⟨(term, postings), List.mem_filter.mpr
        ⟨Std.ExtTreeMap.mem_toList_iff_getElem?_eq_some.mpr hget, htest⟩, hpost⟩, hid⟩

def PlainMatch (single : SinglePrecision S) (c : CollectionIndex S) (docId pattern : Bytes) : Prop :=
  ∃ term, chr ':' ∉ term ∧ wildcardMatch term pattern = true ∧ c.Contains single [] docId term

end CollectionIndex

namespace Traced

variable {S : Type} {single : SinglePrecision S} {order : PostingSort S} {ranking : Ranking S}

/-- The postings in memory are those that some run leaves, and the snapshot was written from those of
some run. -/
structure Reached (single : SinglePrecision S) (order : PostingSort S) (ranking : Ranking S)
    (name : Bytes) (c : CollectionIndex S) : Prop where
  memory : ∃ calls,
    c.index = (((start ∅ ∅).run single order ranking calls).store.index.collection name).index
  snapshot : ∀ index, c.searchedMMap = some index → ∃ calls terms,
    (((start ∅ ∅).run single order ranking calls).store.index.collection name).index = some terms ∧
      IsSnapshot single order terms index

/-- **The plain term behind a synthetic one.** In the postings that a run leaves, a document with a
term that a confined pattern matches has a plain one. -/
theorem plain_of_confined (calls : List (Call S)) (name : Bytes) {pattern docId term : Bytes}
    (hconfined : Confined pattern) (hmatch : wildcardMatch term pattern = true)
    (hpost : ∃ post ∈ (((start ∅ ∅).run single order ranking calls).store.index.collection
      name).postingsOf term, post.documentId = docId) :
    ∃ plain, chr ':' ∉ plain ∧ plain ≠ [] ∧ wildcardMatch plain pattern = true ∧
      ∃ post ∈ (((start ∅ ∅).run single order ranking calls).store.index.collection
        name).postingsOf plain, post.documentId = docId := by
  obtain ⟨hinv, hfrom⟩ := run_fromDocuments single order ranking calls name
  generalize ((start ∅ ∅).run single order ranking calls).store.index.collection name = c at *
  obtain ⟨post, hpost, rfl⟩ := hpost
  obtain ⟨recorded, hrecorded, hterm⟩ := hinv.toConsistent.recorded_of_posting hpost
  obtain ⟨doc, hid, rfl⟩ := hfrom _ _ hrecorded
  have hplain : ∀ plain ∈ doc.allTermsList, wildcardMatch plain pattern = true →
      ∃ plain, chr ':' ∉ plain ∧ plain ≠ [] ∧ wildcardMatch plain pattern = true ∧
        ∃ found ∈ c.postingsOf plain, found.documentId = post.documentId := by
    intro plain hplain hmatch
    have hkey := (Document.mem_keys ranking name).mpr (.inl hplain)
    exact ⟨plain, colon_not_mem_allTermsList doc hplain, ne_nil_of_mem_postings ranking name doc hkey,
      hmatch, hinv.toConsistent.posting_of_recorded
        ⟨_, hrecorded, CollectionIndex.mem_recordedTerms.mpr hkey⟩⟩
  rcases (Document.mem_keys ranking name).mp (CollectionIndex.mem_recordedTerms.mp hterm) with
    hall | ⟨field, text, htext, word, hword, rfl⟩
  · exact hplain term hall hmatch
  · obtain ⟨plain, hmem, hmatch⟩ := hconfined field text ⟨word, hword, hmatch⟩
    exact hplain plain (htext.2 plain hmem) hmatch

/-- A confined pattern is matched by a plain term of each document that it finds. -/
theorem Reached.plainMatch {name docId pattern : Bytes} {c : CollectionIndex S} {scoring : Scoring S}
    (h : Reached single order ranking name c) (hmatch : scoring.wildcardMatch = wildcardMatch)
    (hwild : isWildcardTerm pattern = true) (hconfined : Confined pattern)
    (hfound : docId ∈ c.loadTermDocs single scoring [] name pattern) :
    c.PlainMatch single docId pattern := by
  rw [CollectionIndex.mem_loadTermDocs] at hfound
  rcases hfound with ⟨index, hindex, hfound⟩ | hfound
  · obtain ⟨calls, terms, hterms, hsnapshot⟩ := h.snapshot index hindex
    rw [CollectionIndex.foundBy_pattern hwild] at hfound
    obtain ⟨term, hterm, hpost⟩ :=
      CollectionIndex.exists_mem_mappedPostings hsnapshot hmatch hwild hfound
    have hmemory : ∀ key, (((start ∅ ∅).run single order ranking calls).store.index.collection
        name).postingsOf key = terms[key]?.getD [] := by
      intro key
      unfold CollectionIndex.postingsOf
      rw [hterms]
      rfl
    obtain ⟨plain, hcolon, hne, hplain, hpost⟩ :=
      plain_of_confined calls name hconfined hterm (by rw [hmemory]; exact hpost)
    rw [hmemory] at hpost
    have hshort : plain.length < 2 ^ 31 := by
      refine hsnapshot.short plain (Std.ExtTreeMap.mem_iff_isSome_getElem?.mpr ?_)
      cases hget : terms[plain]? with
      | none =>
        rw [hget] at hpost
        exact nomatch hpost
      | some postings => rfl
    exact ⟨plain, hcolon, hplain, plain, List.mem_singleton_self _,
      .inl ⟨index, hindex, (hsnapshot.exists_mem_searchTerm hne hshort).mpr hpost⟩⟩
  · obtain ⟨calls, hcalls⟩ := h.memory
    have hmemory : ∀ key, (((start ∅ ∅).run single order ranking calls).store.index.collection
        name).postingsOf key = c.postingsOf key := by
      intro key
      unfold CollectionIndex.postingsOf
      rw [hcalls]
    rw [CollectionIndex.foundBy_pattern hwild,
      CollectionIndex.exists_mem_memoryPostings hmatch hwild] at hfound
    obtain ⟨term, hterm, hpost⟩ := hfound
    obtain ⟨plain, hcolon, -, hplain, hpost⟩ :=
      plain_of_confined calls name hconfined hterm (by rw [hmemory]; exact hpost)
    rw [hmemory] at hpost
    exact ⟨plain, hcolon, hplain, plain, List.mem_singleton_self _, .inr hpost⟩

/-! ## A document with one field -/

def withField (field text : Bytes) : Document := ⟨lit "-", [], [], [(field, text)], by simp⟩

theorem allTermsList_withField (field text : Bytes) :
    (withField field text).allTermsList = extractTerms text := by
  have hnil : extractTerms ([] : Bytes) = [] := rfl
  have hid : extractTerms (lit "-") = [] := by decide +kernel
  unfold Document.allTermsList withField
  simp [hnil, hid]

theorem mem_of_plain_key {field text name key : Bytes} (hcolon : chr ':' ∉ key)
    (hkey : key ∈ ((withField field text).postings ranking name).map Prod.fst) :
    key ∈ extractTerms text := by
  rcases (Document.mem_keys ranking name).mp hkey with hplain | ⟨field', text', -, term, -, rfl⟩
  · rwa [allTermsList_withField] at hplain
  · exact absurd (colon_mem_buildFieldScopedTerm field' term) hcolon

variable (ranking) in
theorem scoped_key_withField {field text term : Bytes} (name : Bytes)
    (hterm : term ∈ extractTerms text) :
    buildFieldScopedTerm field term ∈ ((withField field text).postings ranking name).map Prod.fst := by
  refine (Document.mem_keys ranking name).mpr (.inr ⟨field, text, ⟨?_, fun t ht => ?_⟩, term, hterm,
    rfl⟩)
  · unfold Document.fieldTermsByName withField
    rw [List.foldl_cons, List.foldl_nil, ByteMap.get_insert, if_pos rfl]
  · rwa [allTermsList_withField]

variable (single order ranking) in
theorem reached_soleDocument (name : Bytes) (doc : Document) :
    Reached single order ranking name (soleDocument ranking name doc) where
  memory := by
    refine ⟨[.addDocument ⟨0, 0, fun _ _ => 0⟩ name doc], ?_⟩
    unfold run
    rw [List.foldl_cons, List.foldl_nil, step]
    split <;> rfl
  snapshot index hindex := by
    rw [CollectionIndex.searchedMMap_soleDocument] at hindex
    cases hindex

/-! ## Which patterns find plain terms only -/

variable (single order ranking) in
/-- **A query for a pattern.** Of every index, it returns only documents with a plain term that the
pattern matches, exactly if the pattern is confined. -/
theorem pattern_plain_iff {scoring : Scoring S} (hmatch : scoring.wildcardMatch = wildcardMatch)
    {settings : QuerySettings} {query word : Bytes} (hword : positiveTerms settings query = [word])
    (hnegative : negativeTerms query = []) (hwild : isWildcardTerm (normalizeTerm word) = true) :
    (∀ (name : Bytes) (c : CollectionIndex S), Reached single order ranking name c →
      ∀ (limit : Int) (docId : Bytes), c.Returns single scoring settings name query limit [] docId →
          c.PlainMatch single docId (normalizeTerm word)) ↔ Confined (normalizeTerm word) := by
  have hnormal : normalizeTerm word ≠ [] := by
    intro hnil
    rw [hnil] at hwild
    exact absurd hwild (by decide)
  constructor
  · -- a text whose synthetic terms alone are matched makes a document that should not be returned
    rintro hall field text ⟨term, hterm, hscoped⟩
    have hpost := (exists_posting_soleDocument ranking (lit "c") (withField field text)).mpr
      ⟨rfl, scoped_key_withField ranking (lit "c") hterm⟩
    have hreturned : (soleDocument ranking (lit "c") (withField field text)).Returns single scoring
        settings (lit "c") query 0 [] (lit "-") := by
      rw [CollectionIndex.returns_iff (.inl (Int.le_refl 0)),
        CollectionIndex.mem_candidates_single hword hnegative hnormal]
      unfold CollectionIndex.Matches
      rw [CollectionIndex.mem_loadTermDocs, CollectionIndex.foundBy_pattern hwild,
        CollectionIndex.exists_mem_memoryPostings hmatch hwild]
      exact .inr ⟨_, hscoped, hpost⟩
    obtain ⟨plain, hcolon, hplain, key, hkey, hplace⟩ :=
      hall (lit "c") _ (reached_soleDocument single order ranking _ _) 0 (lit "-") hreturned
    obtain rfl : key = plain := List.mem_singleton.mp hkey
    rw [CollectionIndex.searchedMMap_soleDocument, exists_posting_soleDocument] at hplace
    rcases hplace with ⟨index, hindex, -⟩ | ⟨-, hin⟩
    · cases hindex
    · exact ⟨key, mem_of_plain_key hcolon hin, hplain⟩
  · intro hconfined name c hreached limit docId hreturned
    have hcandidate := CollectionIndex.mem_candidates_of_returns hreturned
    rw [CollectionIndex.mem_candidates_single hword hnegative hnormal] at hcandidate
    exact hreached.plainMatch hmatch hwild hconfined hcandidate

end Traced

/-! ### The name of a field -/

def zebraIndexed : CollectionIndex Nat :=
  soleDocument unitRanking (lit "c") (titled (lit "d") (lit "zebra"))

theorem pattern_plain_zebra : zebraIndexed.PlainMatch bitScores (lit "d") (lit "zeb*") := by
  have hreturned : zebraIndexed.Returns bitScores wildcardScores orSettings (lit "c") (lit "zeb*") 0 []
      (lit "d") := by
    unfold CollectionIndex.Returns
    decide +kernel
  have hmatch : wildcardScores.wildcardMatch = wildcardMatch := rfl
  have hword : positiveTerms orSettings (lit "zeb*") = [lit "zeb*"] := by decide +kernel
  have hconfined : Confined (normalizeTerm (lit "zeb*")) :=
    confined_of_head (by decide) (by decide) (by decide) (lit "eb*")
  exact (Traced.pattern_plain_iff bitScores (insertionOrder Nat) unitRanking hmatch hword
    (by decide +kernel) (by decide +kernel)).mpr hconfined (lit "c") zebraIndexed
      (Traced.reached_soleDocument bitScores (insertionOrder Nat) unitRanking _ _) 0 (lit "d")
      hreturned

/-- A pattern that matches the name of a field finds a document none of whose words it matches. -/
theorem field_name_matched : positiveTerms orSettings (lit "*title*") = [lit "*title*"] ∧
      (zebraIndexed.index.map fun terms => (terms.keys.filter fun term =>
        !term.elem (chr ':') && wildcardMatch term (lit "*title*"))) = some [] ∧
      (zebraIndexed.search bitScores wildcardScores orSettings (lit "c") (lit "*title*") 0 []).map
        Posting.documentId = [lit "d"] := by
  decide +kernel

end Hlquery.Index
