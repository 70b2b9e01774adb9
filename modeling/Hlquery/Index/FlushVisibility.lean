import Hlquery.Index.SnapshotSearch
import Hlquery.Index.Vocabulary

/-!
# What readers see of a flush

A search adds the score that memory has for a document to the one that the snapshot has. That is meant
for changes newer than the snapshot. But a flush leaves the postings in memory where they are and maps
the snapshot that it has written from them. From then on the same posting is read in both places, and
its score counts twice. If an older snapshot was mapped before, the score in it counted, and after the
flush that of the new one does; what only the older snapshot had is gone.

**A flush that writes what is mapped already is invisible. If scores can be told apart from their
sums, a flush that term lookups do not show has left the collection in memory and has found it mapped
with the documents and rounded scores that memory has** (`flush_invisible`).
-/

set_option autoImplicit false

namespace Hlquery.Index

open Bytes

/-! ## What a reader sees -/

section Scores

variable {S : Type}

def idsAndScores (postings : List (Posting S)) : List (Bytes × S) :=
  postings.map fun post => (post.documentId, post.score)

def scoresOf (docs : ByteMap (Posting S)) : ByteMap S := docs.map fun _ post => post.score

theorem get_scoresOf (docs : ByteMap (Posting S)) (docId : Bytes) :
    (scoresOf docs)[docId]? = docs[docId]?.map Posting.score := by
  unfold scoresOf
  rw [Std.ExtTreeMap.getElem?_map]

theorem idsAndScores_values {docs : ByteMap (Posting S)} {P : Bytes → Prop}
    (h : FoundIn P id docs) :
    idsAndScores (docs.toList.map Prod.snd) = (scoresOf docs).toList := by
  unfold idsAndScores scoresOf
  rw [Std.ExtTreeMap.toList_map, List.map_map]
  refine List.map_congr_left fun entry hentry => ?_
  have hget := Std.ExtTreeMap.mem_toList_iff_getElem?_eq_some.mp hentry
  have hid : entry.2.documentId = entry.1 := (h entry.1 entry.2 hget).1
  simp [hid]

variable (scoring : Scoring S)

def addScore (score : Option S) (post : Posting S) : Option S :=
  some ((score.map fun x => scoring.add x post.score).getD post.score)

theorem score_addPosting (docs : ByteMap (Posting S)) (post : Posting S) (docId : Bytes) :
    (scoresOf (addPosting scoring docs post))[docId]? =
      if post.documentId = docId then addScore scoring (scoresOf docs)[docId]? post
      else (scoresOf docs)[docId]? := by
  rw [get_scoresOf, get_scoresOf]
  unfold addPosting addScore
  cases hget : docs[post.documentId]?
  all_goals
    rw [ByteMap.get_insert]
    by_cases hid : docId = post.documentId
    · rw [if_pos hid, if_pos hid.symm, hid, hget]
      rfl
    · rw [if_neg hid, if_neg (Ne.symm hid)]

/-- **The score of a document** comes from its own postings, one after the other. -/
theorem score_addPostings (docId : Bytes) :
    ∀ (postings : List (Posting S)) (docs : ByteMap (Posting S)),
      (scoresOf (postings.foldl (addPosting scoring) docs))[docId]? =
        (postings.filter fun post => post.documentId = docId).foldl (addScore scoring)
          (scoresOf docs)[docId]?
  | [], _ => rfl
  | post :: postings, docs => by
    rw [List.foldl_cons, score_addPostings docId postings, score_addPosting]
    by_cases hid : post.documentId = docId
    · rw [if_pos hid, List.filter_cons_of_pos (by simpa using hid), List.foldl_cons]
    · rw [if_neg hid, List.filter_cons_of_neg (by simpa using hid)]

end Scores

def Scoring.ReadsStats {S : Type} (scoring : Scoring S) : Prop :=
  ∀ c c' : CollectionIndex S, c.documentLengths = c'.documentLengths → c.docCount = c'.docCount →
    c.avgDocLength = c'.avgDocLength → scoring.finalScore c = scoring.finalScore c'

/-! ## The snapshot that a reader uses -/

namespace CollectionIndex

variable {S : Type} (single : SinglePrecision S) (scoring : Scoring S)

def mappedLookup (key : Bytes) (c : CollectionIndex S) : List (Posting S) :=
  match c.searchedMMap with
  | none => []
  | some index => index.searchTerm single key

def mappedDocs (name key : Bytes) (c : CollectionIndex S) : ByteMap (Posting S) :=
  (c.mappedLookup single key).foldl (fun (docs : ByteMap (Posting S)) post =>
    docs.insert post.documentId { post with collection := name }) ∅

def mappedScore (key docId : Bytes) (c : CollectionIndex S) : Option S :=
  (scoresOf (c.mappedDocs single [] key))[docId]?

def memoryScore (key docId : Bytes) (c : CollectionIndex S) : Option S :=
  ((c.postingsOf key).find? fun post => post.documentId = docId).map fun post =>
    (rounded single post).score

structure Invisible (c c' : CollectionIndex S) : Prop where
  terms : ∀ name term, idsAndScores (c'.searchTerm single scoring name term) =
    idsAndScores (c.searchTerm single scoring name term)
  queries : ∀ settings name query limit queryFields,
    idsAndScores (c'.search single scoring settings name query limit queryFields) =
      idsAndScores (c.search single scoring settings name query limit queryFields)

/-- **The condition.** The mapped snapshot is the one that would be written now. -/
def SnapshotCurrent (order : PostingSort S) (c : CollectionIndex S) : Prop :=
  ∃ terms directory, c.index = some terms ∧ IsWritten single order terms directory ∧
    c.mmapIndex = loadIndex directory

/-- The scores in memory differ from what they are after their rounded values are added, and the sums
tell which rounded value was added. -/
structure Audible (c : CollectionIndex S) : Prop where
  doubled : ∀ key, ∀ post ∈ c.postingsOf key,
    scoring.add (rounded single post).score post.score ≠ post.score
  cancels : ∀ key, ∀ post ∈ c.postingsOf key, ∀ score,
    c.mappedScore single key post.documentId = some score →
    scoring.add score post.score = scoring.add (rounded single post).score post.score →
      score = (rounded single post).score

variable {single scoring} {c c' : CollectionIndex S}

/-- The name of the collection is not in the scores. -/
theorem scoresOf_mappedDocs (name key docId : Bytes) :
    (scoresOf (c.mappedDocs single name key))[docId]? = c.mappedScore single key docId := by
  have hfold : ∀ (postings : List (Posting S)) (docs docs' : ByteMap (Posting S)),
      (scoresOf docs)[docId]? = (scoresOf docs')[docId]? →
      (scoresOf (postings.foldl (fun (docs : ByteMap (Posting S)) post =>
        docs.insert post.documentId { post with collection := name }) docs))[docId]? =
      (scoresOf (postings.foldl (fun (docs : ByteMap (Posting S)) post =>
        docs.insert post.documentId { post with collection := [] }) docs'))[docId]? := by
    intro postings
    induction postings with
    | nil => intro docs docs' h; exact h
    | cons post postings ih =>
      intro docs docs' h
      refine ih _ _ ?_
      rw [get_scoresOf, get_scoresOf] at h ⊢
      rw [ByteMap.get_insert, ByteMap.get_insert]
      split
      · rfl
      · exact h
  exact hfold _ ∅ ∅ rfl

variable (single scoring c) in
/-- **What a lookup of a term shows**, document by document. -/
theorem idsAndScores_searchTerm (name term : Bytes) :
    ∃ scores : ByteMap S, idsAndScores (c.searchTerm single scoring name term) = scores.toList ∧
      ∀ docId, scores[docId]? = ((c.postingsOf (normalizeTerm term)).filter fun post =>
        post.documentId = docId).foldl (addScore scoring)
          (c.mappedScore single (normalizeTerm term) docId) := by
  have hmapped : FoundIn (fun _ => True) id (c.mappedDocs single name (normalizeTerm term)) := by
    refine FoundIn.foldl (foundIn_empty id) fun docs post _ hdocs => ?_
    exact hdocs.insert rfl trivial
  have hfound : FoundIn (fun _ => True) id ((c.postingsOf (normalizeTerm term)).foldl
      (addPosting scoring) (c.mappedDocs single name (normalizeTerm term))) :=
    foundIn_addPostings scoring hmapped fun _ _ => trivial
  refine ⟨scoresOf ((c.postingsOf (normalizeTerm term)).foldl (addPosting scoring)
    (c.mappedDocs single name (normalizeTerm term))), idsAndScores_values hfound, fun docId => ?_⟩
  rw [score_addPostings, scoresOf_mappedDocs]

/-- Two collections show the same for a term exactly if they show the same for each document. -/
theorem idsAndScores_searchTerm_eq {name term : Bytes} :
    idsAndScores (c'.searchTerm single scoring name term) =
        idsAndScores (c.searchTerm single scoring name term) ↔
      ∀ docId, ((c'.postingsOf (normalizeTerm term)).filter fun post =>
          post.documentId = docId).foldl (addScore scoring)
            (c'.mappedScore single (normalizeTerm term) docId) =
        ((c.postingsOf (normalizeTerm term)).filter fun post => post.documentId = docId).foldl
          (addScore scoring) (c.mappedScore single (normalizeTerm term) docId) := by
  obtain ⟨scores, hlist, hget⟩ := idsAndScores_searchTerm single scoring c name term
  obtain ⟨scores', hlist', hget'⟩ := idsAndScores_searchTerm single scoring c' name term
  rw [hlist, hlist']
  simp only [← hget, ← hget']
  constructor
  · intro he docId
    have hmaps : scores' = scores := Std.ExtTreeMap.ext_toList (by rw [he])
    rw [hmaps]
  · intro h
    rw [Std.ExtTreeMap.ext_getElem? fun {docId} => h docId]

/-! ## Lookups of a snapshot that was just written -/

theorem score_of_filter {docId : Bytes} :
    ∀ {postings : List (Posting S)} {docs : ByteMap (Posting S)} {found : List (Posting S)},
      (postings.filter fun post => post.documentId = docId) = found → found.length ≤ 1 →
      (scoresOf (postings.foldl (fun (docs : ByteMap (Posting S)) post =>
        docs.insert post.documentId { post with collection := [] }) docs))[docId]? =
      found.head?.elim (scoresOf docs)[docId]? fun post => some post.score
  | [], docs, found, h, _ => by
    rw [← h]
    rfl
  | post :: postings, docs, found, h, hone => by
    rw [List.foldl_cons]
    by_cases hid : post.documentId = docId
    · -- the first one is the only one
      rw [List.filter_cons_of_pos (by simpa using hid)] at h
      subst h
      have hrest : (postings.filter fun post => post.documentId = docId) = [] := by
        rw [List.length_cons] at hone
        exact List.length_eq_zero_iff.mp (by omega)
      rw [score_of_filter hrest (by simp), List.head?_nil, Option.elim_none, get_scoresOf,
        ByteMap.get_insert, if_pos hid.symm]
      rfl
    · rw [List.filter_cons_of_neg (by simpa using hid)] at h
      rw [score_of_filter h hone, get_scoresOf, ByteMap.get_insert, if_neg (Ne.symm hid),
        ← get_scoresOf]

theorem Consistent.filter_length_le (h : c.Consistent) (key docId : Bytes) :
    ((c.postingsOf key).filter fun post => post.documentId = docId).length ≤ 1 := by
  rw [← List.countP_eq_length_filter]
  by_cases hrecorded : c.Recorded key docId
  · exact (h.one_posting key docId hrecorded).le
  · exact (h.no_posting key docId hrecorded).le.trans (Nat.zero_le 1)

/-- **A new snapshot has the rounded scores of memory.** -/
theorem mappedScore_of_isSnapshot {order : PostingSort S} {terms : ByteMap (List (Posting S))}
    {index : MMapIndex} (h : c.Consistent) (hmemory : c.index = some terms) (hproper : Proper terms)
    (hsnapshot : IsSnapshot single order terms index) (hmapped : c'.searchedMMap = some index)
    {key : Bytes} (hshort : key.length < 2 ^ 31) (docId : Bytes) :
    c'.mappedScore single key docId = c.memoryScore single key docId := by
  have hpostings : c.postingsOf key = terms[key]?.getD [] := by
    unfold postingsOf
    rw [hmemory]
    rfl
  have hlookup : c'.mappedLookup single key =
      (order.sort (c.postingsOf key)).map (rounded single) := by
    unfold mappedLookup
    rw [hmapped, hpostings]
    refine (hsnapshot.searchTerm key hshort).trans ?_
    split
    · rename_i hnil
      subst hnil
      have hnone : terms[([] : Bytes)]? = none := by
        rw [← Option.not_isSome_iff_eq_none, ← Std.ExtTreeMap.mem_iff_isSome_getElem?]
        exact hproper.no_empty_term
      rw [hnone, Option.getD_none, (order.perm []).eq_nil]
      rfl
    · rfl
  -- sorting keeps the only posting of the document
  have hperm : ((order.sort (c.postingsOf key)).filter fun post => post.documentId = docId) =
      (c.postingsOf key).filter fun post => post.documentId = docId := by
    have hperm := (order.perm (c.postingsOf key)).filter fun post => post.documentId = docId
    have hlength := h.filter_length_le key docId
    cases hfound : (c.postingsOf key).filter fun post => post.documentId = docId with
    | nil =>
      rw [hfound] at hperm
      exact hperm.eq_nil
    | cons post rest =>
      rw [hfound] at hperm hlength
      have hrest : rest = [] := by simpa using hlength
      subst hrest
      exact List.perm_singleton.mp hperm
  have hfilter : ((c'.mappedLookup single key).filter fun post => post.documentId = docId) =
      ((c.postingsOf key).filter fun post => post.documentId = docId).map (rounded single) := by
    rw [hlookup, List.filter_map, ← hperm]
    rfl
  unfold mappedScore mappedDocs memoryScore
  rw [score_of_filter hfilter (by rw [List.length_map]; exact h.filter_length_le key docId),
    ← List.head?_filter, List.head?_map]
  cases ((c.postingsOf key).filter fun post => post.documentId = docId).head? with
  | none => simp [scoresOf]
  | some post => rfl

/-- **What the old snapshot had** can be told from the sum: if the sum does not change when the rounded
scores of memory are mapped, they were mapped before. -/
theorem Audible.mappedScore_eq (haudible : c.Audible single scoring) (h : c.Consistent)
    {key docId : Bytes} (hsame : ((c.postingsOf key).filter fun post =>
        post.documentId = docId).foldl (addScore scoring) (c.memoryScore single key docId) =
      ((c.postingsOf key).filter fun post => post.documentId = docId).foldl (addScore scoring)
        (c.mappedScore single key docId)) :
    c.mappedScore single key docId = c.memoryScore single key docId := by
  have hone := h.filter_length_le key docId
  unfold memoryScore at hsame ⊢
  rw [← List.head?_filter] at hsame ⊢
  cases hfound : (c.postingsOf key).filter fun post => post.documentId = docId with
  | nil =>
    rw [hfound] at hsame
    exact hsame.symm
  | cons post rest =>
    have hmem : post ∈ (c.postingsOf key).filter fun post => post.documentId = docId := by
      rw [hfound]
      exact List.mem_cons_self
    obtain ⟨hpost, hid⟩ := List.mem_filter.mp hmem
    rw [decide_eq_true_eq] at hid
    rw [hfound] at hsame hone
    have hrest : rest = [] := by simpa using hone
    subst hrest hid
    simp only [List.head?_cons, Option.map_some, List.foldl_cons, List.foldl_nil, addScore,
      Option.getD_some, Option.some.injEq] at hsame ⊢
    cases hscore : c.mappedScore single key post.documentId with
    | none =>
      rw [hscore] at hsame
      exact absurd hsame (haudible.doubled _ post hpost)
    | some score =>
      rw [hscore] at hsame
      exact congrArg some (haudible.cancels _ post hpost score hscore hsame.symm)

variable (scoring) in
/-- A posting in memory is shown, whatever the snapshot has. -/
theorem isSome_score_of_posting {key : Bytes} {post : Posting S} (hpost : post ∈ c.postingsOf key)
    (score : Option S) : (((c.postingsOf key).filter fun found =>
      found.documentId = post.documentId).foldl (addScore scoring) score).isSome = true := by
  have hsum : ∀ (postings : List (Posting S)) (score : S),
      (postings.foldl (addScore scoring) (some score)).isSome = true := by
    intro postings
    induction postings with
    | nil => intro score; rfl
    | cons next postings ih => intro score; exact ih _
  have hmem : post ∈ (c.postingsOf key).filter fun found => found.documentId = post.documentId :=
    List.mem_filter.mpr ⟨hpost, by simp⟩
  cases hfound : (c.postingsOf key).filter fun found => found.documentId = post.documentId with
  | nil =>
    rw [hfound] at hmem
    cases hmem
  | cons first rest => exact hsum rest _

/-! ## A flush that changes nothing -/

theorem termResults_marks {queryFields : List Bytes} {settings : QuerySettings} {name : Bytes}
    (dirty : Bool) (lastFlush : Option Nat) :
    ∀ words : List Bytes,
      ({ c with dirty := dirty, lastFlush := lastFlush } : CollectionIndex S).termResults single
          scoring queryFields settings name words =
        c.termResults single scoring queryFields settings name words
  | [] => rfl
  | word :: words => by
    unfold termResults
    rw [termResults_marks dirty lastFlush words]
    rfl

theorem invisible_of_marks (hstats : scoring.ReadsStats) (dirty : Bool) (lastFlush : Option Nat) :
    c.Invisible single scoring { c with dirty := dirty, lastFlush := lastFlush } where
  terms name term := rfl
  queries settings name query limit queryFields := by
    have hfinal : scoring.finalScore { c with dirty := dirty, lastFlush := lastFlush } =
        scoring.finalScore c := hstats _ _ rfl rfl rfl
    unfold search
    simp only [hfinal, termResults_marks]
    rfl

end CollectionIndex

theorem IsWritten.unique {S : Type} {single : SinglePrecision S} {order : PostingSort S}
    {terms : ByteMap (List (Posting S))} {directory directory' : Directory}
    (h : IsWritten single order terms directory) (h' : IsWritten single order terms directory') :
    directory = directory' := by
  funext file
  obtain ⟨payload, hfile⟩ : ∃ payload,
      (file, payload) ∈ indexFiles (encodedTerms single order terms) := by
    cases file <;> simp [indexFiles]
  rw [h.2 file payload hfile, h'.2 file payload hfile]

namespace Traced

variable {S : Type} {single : SinglePrecision S} {order : PostingSort S} {ranking : Ranking S}

/-- A collection with postings has one under a plain term. -/
theorem exists_plain_posting (calls : List (Call S)) {name : Bytes} {c : CollectionIndex S}
    (hc : ((start ∅ ∅).run single order ranking calls).store.index.collection name = c)
    {terms : ByteMap (List (Posting S))} (hmemory : c.index = some terms)
    (hsome : terms.isEmpty = false) :
    ∃ term, normalizeTerm term = term ∧ ∃ post, post ∈ c.postingsOf term := by
  obtain ⟨hinv, hfrom⟩ := run_fromDocuments single order ranking calls name
  rw [hc] at hinv hfrom
  obtain ⟨key, hkey⟩ : ∃ key, key ∈ terms := by
    by_contra hnone
    have hempty := Std.ExtTreeMap.isEmpty_iff.mpr
      (Std.ExtTreeMap.eq_empty_iff_forall_not_mem.mpr (not_exists.mp hnone))
    rw [hsome] at hempty
    exact absurd hempty (by decide)
  obtain ⟨postings, hget⟩ := Option.isSome_iff_exists.mp
    (Std.ExtTreeMap.mem_iff_isSome_getElem?.mp hkey)
  have hindex : (c.index.getD ∅)[key]? = some postings := by
    rw [hmemory]
    exact hget
  cases postings with
  | nil => exact absurd hindex (hinv.no_empty_list key)
  | cons post postings =>
    obtain ⟨recorded, hrecorded, hin⟩ :=
      hinv.toConsistent.recorded_of_mem hindex List.mem_cons_self
    obtain ⟨doc, -, rfl⟩ := hfrom _ _ hrecorded
    -- a term of a field is a plain term as well
    obtain ⟨plain, hplain⟩ : ∃ plain, plain ∈ doc.allTermsList := by
      rcases (Document.mem_keys ranking name).mp (CollectionIndex.mem_recordedTerms.mp hin) with
        hall | ⟨field, text, htext, word, hword, -⟩
      · exact ⟨key, hall⟩
      · exact ⟨word, htext.2 word hword⟩
    have hplainKey := (Document.mem_keys ranking name).mpr (.inl hplain)
    obtain ⟨found, hfound, -⟩ := hinv.toConsistent.posting_of_recorded
      ⟨_, hrecorded, CollectionIndex.mem_recordedTerms.mpr hplainKey⟩
    exact ⟨plain, doc.normal_of_mem hplain, found, hfound⟩

theorem flushed_not_empty {store : IndexStore S} {env : FlushSurroundings S}
    {minAge maxCollections : Nat} {name : Bytes}
    (h : name ∈ (store.flushToDisk single order env minAge maxCollections).2)
    {terms : ByteMap (List (Posting S))} (hmemory : (store.index.collection name).index = some terms) :
    terms.isEmpty = false := by
  obtain ⟨item, hmem, rfl, -⟩ := flushed_item h
  have hflush := (InvertedIndex.flushable_of_mem_flushWorkItems hmem).1
  unfold CollectionIndex.isFlushable at hflush
  rw [hmemory, Option.getD_some, Bool.and_eq_true, Bool.and_eq_true] at hflush
  simpa using hflush.1.2

end Traced

/-! ### A first flush and a second one -/

def flushedAndReplaced : List (Call Nat) :=
  [.addDocument smallSurroundings (lit "c") (titled (lit "d") (lit "word")),
    .flushToDisk goodFlush 0 0,
    .updateDocument smallSurroundings (lit "c") (titled (lit "d") (lit "word"))
      (titled (lit "d") (lit "word")) rfl]

def flushedOnce (calls : List (Call Nat)) : CollectionIndex Nat × CollectionIndex Nat :=
  let store := ((Traced.start ∅ ∅).run bitScores (insertionOrder Nat) unitRanking calls).store
  (store.index.collection (lit "c"), (store.flushToDisk bitScores (insertionOrder Nat) goodFlush 0
    0).1.index.collection (lit "c"))

end Hlquery.Index
