import Hlquery.Index.InvertedIndex

/-!
# The maps of the index agree

Five maps describe the documents of a collection, and each operation updates them in separate steps.
`CollectionIndex.Consistent` says how they hang together; `Invariant` adds the one fact that
`RemoveDocumentFromIndex` relies on without saying so: where there are document terms, there is an
entry for the postings, so that it does not return early.

Removing a document filters it out of every posting list (`removeDocument_postings`), and entering
one appends at most one posting to each (`enterDocument_postings`). That it is at most one rests on
the terms: the plain terms of a document are a set, the synthetic terms can be read back, and no
plain term is a synthetic one.
-/

set_option autoImplicit false

namespace Hlquery.Index

open Bytes

/-! ## The terms of a document are distinct -/

section Distinct

variable {S : Type} (ranking : Ranking S) (collection : Bytes) (doc : Document)

theorem nodup_toList (set : ByteSet) : set.toList.Nodup :=
  Std.ExtTreeSet.distinct_toList.imp fun {a b} hab he => hab (by rw [he, Std.compare_self])

variable {terms : List Bytes}

theorem mem_ofList {term : Bytes} :
    term ∈ (Std.ExtTreeSet.ofList terms compare).toList ↔ term ∈ terms := by
  simp

theorem colon_not_mem_allTermsList {term : Bytes} (h : term ∈ doc.allTermsList) :
    chr ':' ∉ term := by
  unfold Document.allTermsList at h
  simp only [List.mem_append, List.mem_flatMap] at h
  rcases h with ((h | h) | h) | ⟨field, -, h⟩
  all_goals exact colon_not_mem_extractTerms h

/-- The terms of a field are those of a text of the document, and all of them are plain terms. -/
theorem exists_fieldText {name : Bytes}
    (h : doc.fieldTermsByName[name]? = some terms) :
    ∃ text, terms = extractTerms text ∧ ∀ term ∈ extractTerms text, term ∈ doc.allTermsList := by
  have hfold : ∀ (name : Bytes) terms, doc.fieldTermsByName[name]? = some terms →
      ∃ text, terms = extractTerms text ∧ ∀ term ∈ extractTerms text, term ∈ doc.allTermsList := by
    refine List.foldlRecOn (motive := fun byName : ByteMap (List Bytes) =>
      ∀ (name : Bytes) terms, byName[name]? = some terms → ∃ text, terms = extractTerms text ∧
        ∀ term ∈ extractTerms text, term ∈ doc.allTermsList) doc.fields _ ?_
      fun byName h field hfield => ByteMap.forall_insert h ⟨field.2, rfl, fun term ht => ?_⟩
    · refine ByteMap.forall_insert (ByteMap.forall_insert (ByteMap.forall_insert
        (fun _ _ h => nomatch h) ⟨doc.title, rfl, ?_⟩) ⟨doc.content, rfl, ?_⟩) ⟨doc.id, rfl, ?_⟩
      all_goals simp +contextual [Document.allTermsList]
    · exact List.mem_append_right _ (List.mem_flatMap.mpr ⟨field, hfield, ht⟩)
  exact hfold name terms h

theorem colon_not_mem_fieldTerms {name : Bytes}
    (h : doc.fieldTermsByName[name]? = some terms) : ∀ term ∈ terms, chr ':' ∉ term := by
  obtain ⟨text, rfl, hplain⟩ := exists_fieldText doc h
  exact fun term ht => colon_not_mem_allTermsList doc (hplain term ht)

/-- **A document has one posting for each of its terms**, plain and synthetic. -/
theorem nodup_postings : ((doc.postings ranking collection).map Prod.fst).Nodup := by
  have hplain : (doc.plainPostings ranking collection).map Prod.fst =
      (Std.ExtTreeSet.ofList doc.allTermsList compare).toList := by
    simp [Document.plainPostings, Function.comp_def]
  have hscoped : (doc.scopedPostings ranking collection).map Prod.fst =
      doc.fieldTermsByName.toList.flatMap fun field =>
        (Std.ExtTreeSet.ofList field.2 compare).toList.map (buildFieldScopedTerm field.1) := by
    simp [Document.scopedPostings, List.map_flatMap, Function.comp_def]
  have hcolon : ∀ field ∈ doc.fieldTermsByName.toList,
      ∀ term ∈ (Std.ExtTreeSet.ofList field.2 compare).toList, chr ':' ∉ term := by
    intro field hf term ht
    exact colon_not_mem_fieldTerms doc (Std.ExtTreeMap.mem_toList_iff_getElem?_eq_some.mp hf) term
      (mem_ofList.mp ht)
  unfold Document.postings
  rw [List.map_append, hplain, hscoped]
  refine List.Nodup.append (nodup_toList _) ?_ ?_
  · rw [List.nodup_flatMap]
    constructor
    · -- within one field the terms are distinct
      intro field hf
      refine (nodup_toList _).map_on fun t ht t' ht' he => ?_
      exact (buildFieldScopedTerm_inj (hcolon field hf t ht) (hcolon field hf t' ht') he).2
    · -- across fields the names are
      refine Std.ExtTreeMap.distinct_keys_toList.imp_of_mem fun {a b} ha hb hab => ?_
      intro x hx hx'
      obtain ⟨t, ht, rfl⟩ := List.mem_map.mp hx
      obtain ⟨t', ht', he⟩ := List.mem_map.mp hx'
      have := (buildFieldScopedTerm_inj (hcolon b hb t' ht') (hcolon a ha t ht) he).1
      exact hab (by rw [this, Std.compare_self])
  · -- a synthetic term holds a colon, a plain one does not
    intro x hx hx'
    obtain ⟨field, -, hx'⟩ := List.mem_flatMap.mp hx'
    obtain ⟨t, -, rfl⟩ := List.mem_map.mp hx'
    exact colon_not_mem_allTermsList doc (mem_ofList.mp hx) (colon_mem_buildFieldScopedTerm _ _)

theorem documentId_of_mem_postings {entry : Bytes × Posting S}
    (h : entry ∈ doc.postings ranking collection) : entry.2.documentId = doc.id := by
  unfold Document.postings Document.plainPostings Document.scopedPostings at h
  simp only [List.mem_append, List.mem_map, List.mem_flatMap] at h
  rcases h with ⟨term, -, rfl⟩ | ⟨field, -, term, -, rfl⟩
  all_goals rfl

end Distinct

namespace CollectionIndex

variable {S : Type}

/-! ## The invariant -/

def postingsOf (c : CollectionIndex S) (term : Bytes) : List (Posting S) :=
  (c.index.getD ∅)[term]?.getD []

def termsOf (c : CollectionIndex S) (docId : Bytes) : Option ByteSet :=
  (c.documentTerms.getD ∅)[docId]?

def lengthOf (c : CollectionIndex S) (docId : Bytes) : Option Nat :=
  (c.documentLengths.getD ∅)[docId]?

def postingCount (c : CollectionIndex S) (term docId : Bytes) : Nat :=
  (c.postingsOf term).countP fun post => post.documentId = docId

def Recorded (c : CollectionIndex S) (term docId : Bytes) : Prop :=
  ∃ terms, c.termsOf docId = some terms ∧ term ∈ terms

/-- **The maps of a collection agree.** A stored number that is missing counts as zero. -/
structure Consistent (c : CollectionIndex S) : Prop where
  one_posting : ∀ term docId, c.Recorded term docId → c.postingCount term docId = 1
  no_posting : ∀ term docId, ¬ c.Recorded term docId → c.postingCount term docId = 0
  no_empty_list : ∀ term : Bytes, (c.index.getD ∅)[term]? ≠ some []
  same_documents : ∀ docId, (c.lengthOf docId).isSome ↔ (c.termsOf docId).isSome
  total_length : c.totalLength.getD 0 = sumLengths (c.documentLengths.getD ∅)
  doc_count : c.docCount.getD 0 = (c.documentTerms.getD ∅).size

structure Invariant (c : CollectionIndex S) : Prop extends Consistent c where
  indexed : c.documentTerms.isSome → c.index.isSome

theorem invariant_empty : (empty : CollectionIndex S).Invariant where
  one_posting term docId h := by
    obtain ⟨terms, h, -⟩ := h
    simp [termsOf, empty] at h
  no_posting term docId _ := by simp [postingCount, postingsOf, empty]
  no_empty_list term := by simp [empty]
  same_documents docId := by simp [lengthOf, termsOf, empty]
  total_length := rfl
  doc_count := by simp [empty]
  indexed h := absurd h (by simp [empty])

variable {c : CollectionIndex S} {docId : Bytes} {c' : CollectionIndex S}

theorem Invariant.congr (h : c.Invariant) (hi : c'.index = c.index)
    (ht : c'.documentTerms = c.documentTerms) (hl : c'.documentLengths = c.documentLengths)
    (htotal : c'.totalLength = c.totalLength) (hcount : c'.docCount = c.docCount) :
    c'.Invariant := by
  obtain ⟨index', terms', lengths', total', count', avg', mmap', dirty', mutation', flush',
    access'⟩ := c'
  dsimp only at hi ht hl htotal hcount
  subst hi ht hl htotal hcount
  exact ⟨⟨h.one_posting, h.no_posting, h.no_empty_list, h.same_documents, h.total_length,
    h.doc_count⟩, h.indexed⟩

/-! ## The stored numbers -/

theorem sumLengths_insert {lengths : ByteMap Nat} (h : lengths[docId]? = none) (n : Nat) :
    sumLengths (lengths.insert docId n) = sumLengths lengths + n := by
  have hget : (lengths.insert docId n)[docId]? = some n := by rw [ByteMap.get_insert, if_pos rfl]
  have := ((ByteMap.toList_perm_erase hget).map Prod.snd).sum_eq
  rw [ByteMap.erase_insert h] at this
  unfold sumLengths
  rw [this, List.map_cons, List.sum_cons, Nat.add_comm]

theorem sumLengths_erase {lengths : ByteMap Nat} {n : Nat} (h : lengths[docId]? = some n) :
    sumLengths lengths = n + sumLengths (lengths.erase docId) := by
  have := ((ByteMap.toList_perm_erase h).map Prod.snd).sum_eq
  unfold sumLengths
  rw [this, List.map_cons, List.sum_cons]

/-- The total that is used, given that the stored one is right or missing. -/
theorem ensureTotalLength_fst (h : c.totalLength.getD 0 = sumLengths (c.documentLengths.getD ∅)) :
    c.ensureTotalLength.1 = sumLengths (c.documentLengths.getD ∅) := by
  unfold ensureTotalLength
  cases ht : c.totalLength with
  | none => rfl
  | some total => rw [ht] at h; exact h

theorem ensureTotalLength_snd (c : CollectionIndex S) :
    c.ensureTotalLength.2 = { c with totalLength := some c.ensureTotalLength.1 } := by
  unfold ensureTotalLength
  cases ht : c.totalLength with
  | none => rfl
  | some total => dsimp only; rw [← ht]

theorem refreshStats_spec (h : c.totalLength.getD 0 = sumLengths (c.documentLengths.getD ∅)) :
    c.refreshStats.index = c.index ∧ c.refreshStats.documentTerms = c.documentTerms ∧
      c.refreshStats.documentLengths = c.documentLengths ∧
      c.refreshStats.totalLength = some (sumLengths (c.documentLengths.getD ∅)) ∧
      c.refreshStats.docCount = some (c.documentLengths.getD ∅).size := by
  unfold refreshStats
  dsimp only
  split
  · rename_i hzero
    have hnil : (c.documentLengths.getD ∅).toList = [] := by
      rw [← List.length_eq_zero_iff, Std.ExtTreeMap.length_toList]
      exact hzero
    exact ⟨rfl, rfl, rfl, by simp [sumLengths, hnil], rfl⟩
  · rw [ensureTotalLength_snd]
    refine ⟨rfl, rfl, rfl, ?_, rfl⟩
    exact congrArg some (ensureTotalLength_fst (c := { c with docCount := _ }) h)

/-! ## Removing a document -/

theorem unlessEmpty_getD {V : Type} (m : ByteMap V) : (unlessEmpty m).getD ∅ = m := by
  unfold unlessEmpty
  split
  · rename_i h
    exact (Std.ExtTreeMap.isEmpty_iff.mp h).symm
  · rfl

def keptPostings (docId : Bytes) (postings : List (Posting S)) : Option (List (Posting S)) :=
  let kept := postings.filter fun post => post.documentId ≠ docId
  if kept.isEmpty then none else some kept

theorem keptPostings_getD (docId : Bytes) (postings : List (Posting S)) :
    (keptPostings docId postings).getD [] =
      postings.filter fun post => post.documentId ≠ docId := by
  unfold keptPostings
  dsimp only
  split
  · rename_i h
    exact (List.isEmpty_iff.mp h).symm
  · rfl

theorem keptPostings_idem {postings kept : List (Posting S)}
    (h : keptPostings docId postings = some kept) : keptPostings docId kept = some kept := by
  unfold keptPostings at h ⊢
  dsimp only at h ⊢
  split at h
  · cases h
  rename_i hne
  cases h
  rw [List.filter_filter]
  simp only [Bool.and_self]
  rw [if_neg hne]

theorem keptPostings_ne_nil (docId : Bytes) (postings : List (Posting S)) :
    keptPostings docId postings ≠ some [] := by
  unfold keptPostings
  dsimp only
  split
  · simp
  rename_i hk
  intro he
  exact hk (by rw [Option.some.inj he]; rfl)

theorem removePostings_get (docId : Bytes) (index : ByteMap (List (Posting S)))
    (term term' : Bytes) :
    (removePostings docId index term)[term']? =
      if term' = term then index[term]?.bind (keptPostings docId) else index[term']? := by
  unfold removePostings
  cases hget : index[term]? with
  | none =>
    by_cases h : term' = term
    · rw [if_pos h, h]; exact hget
    · rw [if_neg h]
  | some postings =>
    dsimp only [Option.bind_some]
    unfold keptPostings
    dsimp only
    split
    · exact ByteMap.get_erase ..
    · exact ByteMap.get_insert ..

/-- The lists of the terms are filtered, and the others are left alone. -/
theorem foldl_removePostings_get (docId term : Bytes) :
    ∀ (terms : List Bytes) (index : ByteMap (List (Posting S))),
      (terms.foldl (removePostings docId) index)[term]? =
        if term ∈ terms then index[term]?.bind (keptPostings docId) else index[term]?
  | [], index => by simp
  | t :: terms, index => by
    rw [List.foldl_cons, foldl_removePostings_get docId term terms, removePostings_get]
    by_cases h : term = t
    · subst h
      rw [if_pos rfl, if_pos (List.mem_cons_self ..)]
      -- a second pass over a filtered list changes nothing
      have hidem : (index[term]?.bind (keptPostings docId)).bind (keptPostings docId) =
          index[term]?.bind (keptPostings docId) := by
        cases hget : index[term]? with
        | none => rfl
        | some postings =>
          rw [Option.bind_some]
          cases hk : keptPostings docId postings with
          | none => rfl
          | some kept => exact keptPostings_idem hk
      rw [hidem, ite_self]
    · rw [if_neg h]
      simp [h]

/-- What is left after the removal of a document that has recorded terms. -/
theorem removeLength_spec (docId : Bytes)
    (h : c.totalLength.getD 0 = sumLengths (c.documentLengths.getD ∅)) :
    (c.removeLength docId).index = c.index ∧
      (c.removeLength docId).documentTerms = c.documentTerms ∧
      (c.removeLength docId).documentLengths.getD ∅ = (c.documentLengths.getD ∅).erase docId ∧
      (c.removeLength docId).totalLength.getD 0 =
        sumLengths ((c.documentLengths.getD ∅).erase docId) := by
  unfold removeLength
  cases hl : c.documentLengths with
  | none =>
    rw [hl, Option.getD_none] at h
    have herase : (∅ : ByteMap Nat).erase docId = ∅ := ByteMap.erase_of_none (by simp)
    exact ⟨rfl, rfl, by rw [Option.getD_none, hl, herase]; rfl, by rw [Option.getD_none, herase, h]⟩
  | some lengths =>
    rw [hl, Option.getD_some] at h
    dsimp only [Option.getD_some]
    cases hget : lengths[docId]? with
    | none => exact ⟨rfl, rfl, unlessEmpty_getD _, by rw [ByteMap.erase_of_none hget]; exact h⟩
    | some removed =>
      have hsum := sumLengths_erase hget
      have htotal : c.ensureTotalLength.1 = sumLengths lengths := by
        have := ensureTotalLength_fst (c := c) (by rw [hl]; exact h)
        rwa [hl] at this
      rw [ensureTotalLength_snd]
      refine ⟨rfl, rfl, unlessEmpty_getD _, ?_⟩
      simp only [Option.getD_some, htotal]
      split
      all_goals omega

structure Without (c : CollectionIndex S) (docId : Bytes) (c' : CollectionIndex S) : Prop where
  postings : ∀ term, c'.postingsOf term =
    (c.postingsOf term).filter fun post => post.documentId ≠ docId
  no_empty_list : ∀ term : Bytes, (c'.index.getD ∅)[term]? ≠ some []
  terms : c'.documentTerms.getD ∅ = (c.documentTerms.getD ∅).erase docId
  lengths : c'.documentLengths.getD ∅ = (c.documentLengths.getD ∅).erase docId
  total_length : c'.totalLength.getD 0 = sumLengths (c'.documentLengths.getD ∅)
  doc_count : c'.docCount.getD 0 = (c'.documentLengths.getD ∅).size
  indexed : c'.documentTerms.isSome → c'.index.isSome

theorem Consistent.filter_postingsOf (h : c.Consistent) {term : Bytes}
    (hr : ¬ c.Recorded term docId) :
    (c.postingsOf term).filter (fun post => post.documentId ≠ docId) = c.postingsOf term := by
  have hcount := h.no_posting term docId hr
  unfold postingCount at hcount
  rw [List.countP_eq_zero] at hcount
  refine List.filter_eq_self.mpr fun post hp => ?_
  simpa using hcount post hp

theorem Consistent.size_lengths (h : c.Consistent) :
    (c.documentLengths.getD ∅).size = (c.documentTerms.getD ∅).size :=
  ByteMap.size_eq_of_same_keys h.same_documents

theorem Invariant.without_self (h : c.Invariant) (hn : c.termsOf docId = none) :
    c.Without docId c where
  postings term := (h.filter_postingsOf (by rintro ⟨terms, ht, -⟩; simp [hn] at ht)).symm
  no_empty_list := h.no_empty_list
  terms := (ByteMap.erase_of_none hn).symm
  lengths := by
    have hlen : c.lengthOf docId = none := by
      rw [← Option.not_isSome_iff_eq_none, h.same_documents, hn]
      simp
    exact (ByteMap.erase_of_none hlen).symm
  total_length := h.total_length
  doc_count := h.doc_count.trans h.size_lengths.symm
  indexed := h.indexed

/-- **Removing a document** takes it out of every posting list, the terms and the lengths. -/
theorem Invariant.removeDocument (h : c.Invariant) (docId : Bytes) :
    c.Without docId (c.removeDocumentFromIndex docId) := by
  unfold removeDocumentFromIndex
  cases ht : c.documentTerms with
  | none =>
    have hn : c.termsOf docId = none := by simp [termsOf, ht]
    cases hi : c.index with
    | none => exact h.without_self hn
    | some index => exact h.without_self hn
  | some documentTerms =>
    obtain ⟨index, hi⟩ := Option.isSome_iff_exists.mp (h.indexed (by rw [ht]; rfl))
    rw [hi]
    dsimp only
    cases hget : documentTerms[docId]? with
    | none => exact h.without_self (by rw [termsOf, ht]; exact hget)
    | some terms =>
      set c₁ : CollectionIndex S :=
        { c with
          index := some (terms.toList.foldl (removePostings docId) index)
          documentTerms := unlessEmpty (documentTerms.erase docId) } with hc₁
      obtain ⟨hi₂, ht₂, hl₂, htot₂⟩ := removeLength_spec (c := c₁) docId h.total_length
      obtain ⟨hi₃, ht₃, hl₃, htot₃, hcnt₃⟩ :=
        refreshStats_spec (c := removeLength docId c₁) (htot₂.trans (by rw [hl₂]))
      have hindex := hi₃.trans hi₂
      refine ⟨?_, ?_, ?_, ?_, ?_, ?_, ?_⟩
      · -- a list that is not visited holds no posting of the document
        intro term
        by_cases hm : term ∈ terms.toList
        · unfold postingsOf
          rw [hindex, hi, Option.getD_some, Option.getD_some, foldl_removePostings_get, if_pos hm]
          cases hp : index[term]? with
          | none => rfl
          | some postings => exact keptPostings_getD docId postings
        · have hr : ¬ c.Recorded term docId := by
            rintro ⟨terms', ht', hmem⟩
            rw [termsOf, ht, Option.getD_some, hget] at ht'
            cases ht'
            exact hm (Std.ExtTreeSet.mem_toList.mpr hmem)
          rw [h.filter_postingsOf hr]
          unfold postingsOf
          rw [hindex, hi, Option.getD_some, Option.getD_some, foldl_removePostings_get, if_neg hm]
      · intro term
        have hne := h.no_empty_list term
        rw [hi, Option.getD_some] at hne
        rw [hindex, Option.getD_some, foldl_removePostings_get]
        split
        · cases hp : index[term]? with
          | none => simp
          | some postings => exact keptPostings_ne_nil docId postings
        · exact hne
      · rw [ht₃, ht₂, ht, Option.getD_some]
        exact unlessEmpty_getD _
      · rw [hl₃, hl₂]
      · rw [htot₃, hl₃, Option.getD_some]
      · rw [hcnt₃, hl₃, Option.getD_some]
      intro _
      rw [hindex]
      rfl

theorem Without.termsOf (w : c.Without docId c') (d : Bytes) :
    c'.termsOf d = if d = docId then none else c.termsOf d := by
  unfold CollectionIndex.termsOf
  rw [w.terms, ByteMap.get_erase]

theorem Without.lengthOf (w : c.Without docId c') (d : Bytes) :
    c'.lengthOf d = if d = docId then none else c.lengthOf d := by
  unfold CollectionIndex.lengthOf
  rw [w.lengths, ByteMap.get_erase]

theorem Without.postingCount (w : c.Without docId c') (term d : Bytes) :
    c'.postingCount term d = if d = docId then 0 else c.postingCount term d := by
  unfold CollectionIndex.postingCount
  rw [w.postings, List.countP_filter]
  by_cases hd : d = docId
  · subst hd
    rw [if_pos rfl, List.countP_eq_zero]
    simp
  · rw [if_neg hd]
    refine List.countP_congr fun post _ => ?_
    simp only [ne_eq, decide_not, Bool.and_eq_true, decide_eq_true_eq, Bool.not_eq_true',
      decide_eq_false_iff_not, and_iff_left_iff_imp]
    intro he he'
    exact hd (he.symm.trans he')

theorem Without.invariant (w : c.Without docId c') (h : c.Consistent) : c'.Invariant := by
  have hrecorded : ∀ term d, c'.Recorded term d ↔ d ≠ docId ∧ c.Recorded term d := by
    intro term d
    unfold Recorded
    rw [w.termsOf]
    by_cases hd : d = docId <;> simp [hd]
  have hsame : ∀ d, (c'.lengthOf d).isSome ↔ (c'.termsOf d).isSome := by
    intro d
    rw [w.lengthOf, w.termsOf]
    split
    · simp
    · exact h.same_documents d
  refine ⟨⟨?_, ?_, w.no_empty_list, hsame, w.total_length, ?_⟩, w.indexed⟩
  · intro term d hr
    obtain ⟨hd, hr⟩ := (hrecorded term d).mp hr
    rw [w.postingCount, if_neg hd]
    exact h.one_posting term d hr
  · intro term d hr
    rw [w.postingCount]
    split
    · rfl
    · rename_i hd
      exact h.no_posting term d fun hr' => hr ((hrecorded term d).mpr ⟨hd, hr'⟩)
  · rw [w.doc_count]
    exact ByteMap.size_eq_of_same_keys hsame

/-! ## Entering a document -/

theorem foldl_pushPosting_get (term : Bytes) :
    ∀ (entries : List (Bytes × Posting S)) (index : ByteMap (List (Posting S))),
      (entries.foldl pushPosting index)[term]?.getD [] =
        index[term]?.getD [] ++ (entries.filter fun entry => entry.1 = term).map Prod.snd
  | [], index => by simp
  | entry :: entries, index => by
    rw [List.foldl_cons, foldl_pushPosting_get term entries]
    unfold pushPosting
    rw [ByteMap.get_insert]
    by_cases h : term = entry.1
    · rw [if_pos h, List.filter_cons_of_pos (by simp [h]), Option.getD_some, ← h]
      simp
    · rw [if_neg h, List.filter_cons_of_neg (by simpa using Ne.symm h)]

theorem foldl_pushPosting_ne_nil :
    ∀ (entries : List (Bytes × Posting S)) (index : ByteMap (List (Posting S))),
      (∀ term : Bytes, index[term]? ≠ some []) →
      ∀ term : Bytes, (entries.foldl pushPosting index)[term]? ≠ some []
  | [], _, h => h
  | entry :: entries, index, h => by
    refine foldl_pushPosting_ne_nil entries _ fun term => ?_
    unfold pushPosting
    rw [ByteMap.get_insert]
    split
    · simp
    · exact h term

/-- Among entries with distinct terms there is one for each of their terms. -/
theorem length_filter_of_nodup {entries : List (Bytes × Posting S)}
    (h : (entries.map Prod.fst).Nodup) (term : Bytes) :
    (entries.filter fun entry => entry.1 = term).length =
      if term ∈ entries.map Prod.fst then 1 else 0 := by
  have hcount : (entries.map Prod.fst).count term =
      (entries.filter fun entry => entry.1 = term).length := by
    rw [List.count, List.countP_map, List.countP_eq_length_filter]
    refine congrArg List.length (List.filter_congr fun entry _ => ?_)
    rw [Bool.eq_iff_iff]
    simp
  rw [← hcount, List.Nodup.count h]

/-- What entering a document makes of the five maps. -/
theorem enterDocument_spec (ranking : Ranking S) (collection : Bytes) {doc : Document}
    (htotal : c.totalLength.getD 0 = sumLengths (c.documentLengths.getD ∅))
    (hnew : c.lengthOf doc.id = none) :
    (c.enterDocument ranking collection doc).index =
        some ((doc.postings ranking collection).foldl pushPosting (c.index.getD ∅)) ∧
      (c.enterDocument ranking collection doc).documentTerms =
        some ((c.documentTerms.getD ∅).insert doc.id
          (.ofList ((doc.postings ranking collection).map Prod.fst) _)) ∧
      (c.enterDocument ranking collection doc).documentLengths =
        some ((c.documentLengths.getD ∅).insert doc.id doc.allTermsList.length) ∧
      (c.enterDocument ranking collection doc).totalLength.getD 0 =
        sumLengths ((c.documentLengths.getD ∅).insert doc.id doc.allTermsList.length) ∧
      (c.enterDocument ranking collection doc).docCount.getD 0 =
        ((c.documentLengths.getD ∅).insert doc.id doc.allTermsList.length).size := by
  unfold CollectionIndex.enterDocument
  dsimp only
  rw [ensureTotalLength_snd]
  set c₁ : CollectionIndex S :=
    { c with
      index := some ((doc.postings ranking collection).foldl pushPosting (c.index.getD ∅))
      documentTerms := some ((c.documentTerms.getD ∅).insert doc.id
        (.ofList ((doc.postings ranking collection).map Prod.fst) _)) } with hc₁
  have hfst : c₁.ensureTotalLength.1 = sumLengths (c.documentLengths.getD ∅) :=
    ensureTotalLength_fst (c := c₁) htotal
  rw [hfst]
  set c₂ : CollectionIndex S :=
    { c₁ with
      documentLengths := some ((c.documentLengths.getD ∅).insert doc.id doc.allTermsList.length)
      totalLength := some (sumLengths (c.documentLengths.getD ∅) + doc.allTermsList.length) }
    with hc₂
  obtain ⟨hi, ht, hl, htot, hcnt⟩ := refreshStats_spec (c := c₂) (sumLengths_insert hnew _).symm
  exact ⟨hi, ht, hl, by rw [htot]; rfl, by rw [hcnt]; rfl⟩

/-- **Entering a document** that is not recorded keeps the maps in agreement. -/
theorem Invariant.enterDocument (h : c.Invariant) (ranking : Ranking S) (collection : Bytes)
    {doc : Document} (hnew : c.termsOf doc.id = none) :
    (c.enterDocument ranking collection doc).Invariant := by
  have hnodup := nodup_postings ranking collection doc
  have hnoLength : c.lengthOf doc.id = none := by
    rw [← Option.not_isSome_iff_eq_none, h.same_documents, hnew]
    simp
  obtain ⟨hi, ht, hl, htot, hcnt⟩ :=
    enterDocument_spec ranking collection h.total_length hnoLength
  set c' := c.enterDocument ranking collection doc with hc'
  set entries := doc.postings ranking collection with hentries
  have hterms : ∀ d, c'.termsOf d = if d = doc.id then
      some (.ofList (entries.map Prod.fst) _) else c.termsOf d := by
    intro d
    unfold CollectionIndex.termsOf
    rw [ht, Option.getD_some, ByteMap.get_insert]
  have hlengths : ∀ d, c'.lengthOf d = if d = doc.id then
      some doc.allTermsList.length else c.lengthOf d := by
    intro d
    unfold CollectionIndex.lengthOf
    rw [hl, Option.getD_some, ByteMap.get_insert]
  have hsame : ∀ d, (c'.lengthOf d).isSome ↔ (c'.termsOf d).isSome := by
    intro d
    rw [hterms, hlengths]
    split
    · simp
    · exact h.same_documents d
  have hrecorded : ∀ term, c'.Recorded term doc.id ↔ term ∈ entries.map Prod.fst := by
    unfold Recorded
    rw [hterms, if_pos rfl]
    simp [Std.ExtTreeSet.mem_ofList]
  have hother : ∀ term d, d ≠ doc.id → (c'.Recorded term d ↔ c.Recorded term d) := by
    intro term d hd
    unfold Recorded
    rw [hterms, if_neg hd]
  -- the appended postings are all of this document, and at most one to a list
  have happended : ∀ term d, ((entries.filter fun entry => entry.1 = term).map Prod.snd).countP
        (fun post => post.documentId = d) =
      if d = doc.id then (if term ∈ entries.map Prod.fst then 1 else 0) else 0 := by
    intro term d
    rw [List.countP_map]
    by_cases hd : d = doc.id
    · rw [if_pos hd, ← length_filter_of_nodup hnodup term]
      refine List.countP_eq_length.mpr fun entry he => ?_
      simpa [hd] using documentId_of_mem_postings ranking collection doc (List.mem_filter.mp he).1
    · rw [if_neg hd, List.countP_eq_zero]
      intro entry he
      have := documentId_of_mem_postings ranking collection doc (List.mem_filter.mp he).1
      simpa [this] using Ne.symm hd
  have hcount : ∀ term d, c'.postingCount term d = c.postingCount term d +
      if d = doc.id then (if term ∈ entries.map Prod.fst then 1 else 0) else 0 := by
    intro term d
    unfold postingCount CollectionIndex.postingsOf
    rw [hi, Option.getD_some, foldl_pushPosting_get, List.countP_append, happended]
  have hbefore : ∀ term, c.postingCount term doc.id = 0 := fun term =>
    h.no_posting term doc.id (by rintro ⟨terms, ht', -⟩; rw [hnew] at ht'; cases ht')
  refine ⟨⟨?_, ?_, ?_, hsame, ?_, ?_⟩, ?_⟩
  · intro term d hr
    rw [hcount]
    by_cases hd : d = doc.id
    · subst hd
      rw [hbefore, if_pos rfl, if_pos ((hrecorded term).mp hr)]
    · rw [if_neg hd]
      exact h.one_posting term d ((hother term d hd).mp hr)
  · intro term d hr
    rw [hcount]
    by_cases hd : d = doc.id
    · subst hd
      rw [hbefore, if_pos rfl, if_neg fun hm => hr ((hrecorded term).mpr hm)]
    · rw [if_neg hd]
      exact h.no_posting term d fun hr' => hr ((hother term d hd).mpr hr')
  · rw [hi, Option.getD_some]
    exact foldl_pushPosting_ne_nil entries _ h.no_empty_list
  · rw [htot, hl, Option.getD_some]
  · rw [hcnt, ← ByteMap.size_eq_of_same_keys hsame, hl, Option.getD_some]
  intro _
  rw [hi]
  rfl

theorem Invariant.replaceDocument (h : c.Invariant) (ranking : Ranking S) (collection : Bytes)
    (doc : Document) :
    ((c.removeDocumentFromIndex doc.id).enterDocument ranking collection doc).Invariant := by
  have w := h.removeDocument doc.id
  refine (w.invariant h.toConsistent).enterDocument ranking collection ?_
  rw [w.termsOf, if_pos rfl]

end CollectionIndex

/-! ## Runs -/

namespace InvertedIndex

variable {S : Type}

open CollectionIndex

def Invariant (ix : InvertedIndex S) : Prop := ∀ name, (ix.collection name).Invariant

theorem collection_modify (ix : InvertedIndex S) (name name' : Bytes)
    (f : CollectionIndex S → CollectionIndex S) :
    (ix.modify name f).collection name' =
      if name' = name then f (ix.collection name) else ix.collection name' := by
  unfold modify collection
  rw [ByteMap.get_insert]
  split <;> rfl

variable {ix : InvertedIndex S}

theorem Invariant.modify (h : ix.Invariant) (name : Bytes)
    {f : CollectionIndex S → CollectionIndex S}
    (hf : (ix.collection name).Invariant → (f (ix.collection name)).Invariant) :
    (ix.modify name f).Invariant := by
  intro name'
  rw [collection_modify]
  split
  · exact hf (h name)
  · exact h name'

theorem Invariant.touch (h : ix.Invariant) (name : Bytes) (now : Nat) :
    (ix.modify name (.touch name now)).Invariant := by
  refine h.modify name fun hc => ?_
  unfold CollectionIndex.touch
  split
  · exact hc
  · exact hc.congr rfl rfl rfl rfl rfl

theorem evictLoop_invariant (targetBytes : Nat) :
    ∀ (candidates : List EvictionCandidate) (loadedBytes : Nat) {ix : InvertedIndex S},
      ix.Invariant → (evictLoop targetBytes loadedBytes candidates ix).Invariant
  | [], _, _, h => h
  | candidate :: candidates, loadedBytes, ix, h => by
    unfold evictLoop
    split
    · exact h
    · refine evictLoop_invariant targetBytes candidates _ (h.modify _ fun _ => ?_)
      exact invariant_empty.congr rfl rfl rfl rfl rfl

theorem Invariant.evict (h : ix.Invariant) (estimateMemory : Bytes → CollectionIndex S → Nat)
    (targetBytes : Nat) : (ix.evictLoadedCollections estimateMemory targetBytes).Invariant := by
  unfold evictLoadedCollections
  split
  · exact h
  dsimp only
  split
  · exact h
  · exact evictLoop_invariant targetBytes _ _ h

theorem Invariant.addDocument (h : ix.Invariant) (ranking : Ranking S) (env : Surroundings S)
    (name : Bytes) (doc : Document) : (ix.addDocument ranking env name doc).1.Invariant := by
  have htouch := h.touch name env.accessTime
  unfold InvertedIndex.addDocument
  dsimp only
  split
  · exact htouch
  split
  · exact htouch
  have hentered := htouch.modify name (f := fun c =>
    ((c.removeDocumentFromIndex doc.id).enterDocument ranking name doc).markDirty env.mutationTime)
    fun hc => (hc.replaceDocument ranking name doc).congr rfl rfl rfl rfl rfl
  split
  · exact hentered.evict _ _
  · exact hentered

theorem installLoaded_invariant :
    ∀ (opened : List (Bytes × MMapIndex)) {ix : InvertedIndex S}, ix.Invariant →
      (opened.foldl (fun ix entry =>
        ix.modify entry.1 fun c => { c with mmapIndex := some entry.2 }) ix).Invariant
  | [], _, h => h
  | _ :: opened, _, h =>
    installLoaded_invariant opened (h.modify _ fun hc => hc.congr rfl rfl rfl rfl rfl)

/-- **Every call keeps the invariant.** -/
theorem Invariant.step (h : ix.Invariant) (ranking : Ranking S) (operation : Operation S) :
    (ix.step ranking operation).Invariant := by
  cases operation with
  | addDocument env name doc => exact h.addDocument ranking env name doc
  | updateDocument env name oldDoc newDoc sameId =>
    refine ((h.touch name env.accessTime).modify name fun hc => ?_).evict _ _
    rw [sameId]
    exact (hc.replaceDocument ranking name newDoc).congr rfl rfl rfl rfl rfl
  | deleteDocument env name docId =>
    refine ((h.touch name env.accessTime).modify name fun hc => ?_).evict _ _
    exact ((hc.removeDocument docId).invariant hc.toConsistent).congr rfl rfl rfl rfl rfl
  | deleteCollection name =>
    intro name'
    change (((ix.erase name)[name']?).getD CollectionIndex.empty).Invariant
    rw [ByteMap.get_erase]
    split
    · exact invariant_empty
    · exact h name'
  | clear => exact fun _ => invariant_empty
  | evict estimateMemory maxBytes => exact h.evict estimateMemory maxBytes
  | finishFlush name opened copiedAt now =>
    exact h.modify name fun hc => hc.congr rfl rfl rfl rfl rfl
  | installLoaded env opened => exact (installLoaded_invariant opened h).evict _ _

/-- **In every reachable state the maps of every collection agree.** -/
theorem run_consistent (ranking : Ranking S) (operations : List (Operation S)) (name : Bytes) :
    ((run ranking operations).collection name).Consistent := by
  have hrun : ∀ (operations : List (Operation S)) {ix : InvertedIndex S}, ix.Invariant →
      (operations.foldl (step ranking) ix).Invariant := by
    intro operations
    induction operations with
    | nil => intro ix h; exact h
    | cons operation operations ih => intro ix h; exact ih (h.step ranking operation)
  have hempty : (∅ : InvertedIndex S).Invariant := fun _ => invariant_empty
  exact (hrun operations hempty name).toConsistent

end InvertedIndex

end Hlquery.Index
