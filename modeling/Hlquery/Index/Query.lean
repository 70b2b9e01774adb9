import Hlquery.Index.InvertedIndex

/-!
# Searching the index

A search reads two places: the mapped snapshot of a collection, if one is loaded, and the postings
in memory. `SearchTerm` looks one term up in both and merges what it finds by document.
`Search` takes the words of a query, adds a singular or plural to each, turns them into synthetic
terms where the query is restricted to fields, and looks every one of them up in the same two places;
what is found for the negated words is taken away at the end.

The scores are arithmetic on `double`s with a dozen settings and decide the order of the results and
which of too many are kept. `Scoring` has the arithmetic and the choices, with what is promised of
them. So has the matching of a term with a pattern, on which nothing here depends.

Hash maps are maps here, and what they are turned into is listed in the order of the ids.

**A search only finds documents that one of the two places holds** (`searchTerm_found`,
`search_found`).
-/

set_option autoImplicit false

namespace Hlquery.Index

open Bytes

/-! ## Scores -/

/-- The arithmetic of scores and what is done with them. -/
structure Scoring (S : Type) where
  one : S
  /-- A weight in hundredths. -/
  weight : Nat → S
  add : S → S → S
  mul : S → S → S
  max : S → S → S
  /-- The score of a document in the end: from the collection, the terms of the query, the documents
  of each term, and the document with the number of terms that it matches. -/
  finalScore : CollectionIndex S → List Bytes → List (ByteMap (Posting S)) → Posting S × Nat → S
  /-- `nth_element` and `resize`: the best documents. -/
  best : Nat → List (Posting S × Nat) → List (Posting S × Nat)
  best_subset : ∀ n postings, best n postings ⊆ postings
  /-- `sort` by falling score. -/
  sort : List (Posting S) → List (Posting S)
  sort_perm : ∀ postings, (sort postings).Perm postings
  /-- `Wildcard::Match` of a term and a pattern. -/
  wildcardMatch : Bytes → Bytes → Bool

section Merging

variable {S : Type} (scoring : Scoring S)

/-- A posting is added to the documents of a term: its score is added where the document is there
already. -/
def addPosting (docs : ByteMap (Posting S)) (post : Posting S) : ByteMap (Posting S) :=
  match docs[post.documentId]? with
  | none => docs.insert post.documentId post
  | some existing =>
      docs.insert post.documentId { existing with score := scoring.add existing.score post.score }

def weighted (weight : S) (post : Posting S) : Posting S :=
  { post with score := scoring.mul post.score weight }

end Merging

/-! ## The mapped snapshot -/

namespace MMapIndex

variable {S : Type} (single : SinglePrecision S) (scoring : Scoring S)

/-- The terms of `terms.bin`, up to the last terminating zero. -/
def mappedTerms : Bytes → Bytes → List Bytes
  | _, [] => []
  | current, b :: s =>
      if b = 0 then current.reverse :: mappedTerms [] s else mappedTerms (b :: current) s

def searchTerms (index : MMapIndex) (test : Bytes → Bool) : List (Posting S) :=
  let docScores := ((mappedTerms [] index.termsData).filter test).foldl (fun docs term =>
    (index.searchTerm single term).foldl (addPosting scoring) docs) ∅
  scoring.sort (docScores.toList.map Prod.snd)

/-- `SearchPrefix` without a limit. -/
def searchPrefix (index : MMapIndex) (prefixValue : Bytes) : List (Posting S) :=
  if prefixValue = [] then []
  else index.searchTerms single scoring fun term => startsWith term prefixValue

/-- `SearchWildcard` without a limit. -/
def searchWildcard (index : MMapIndex) (patternValue : Bytes) : List (Posting S) :=
  if patternValue = [] then []
  else index.searchTerms single scoring fun term => scoring.wildcardMatch term patternValue

end MMapIndex

namespace CollectionIndex

variable {S : Type} (single : SinglePrecision S) (scoring : Scoring S)

/-- The mapped snapshot, if a search uses it. -/
def searchedMMap (c : CollectionIndex S) : Option MMapIndex :=
  c.mmapIndex.filter fun index => 0 < index.termCount

/-- `SearchTerm`, of a collection with its name. -/
def searchTerm (name term : Bytes) (c : CollectionIndex S) : List (Posting S) :=
  let normalizedTerm := normalizeTerm term
  let mapped := match c.searchedMMap with
    | none => []
    | some index => index.searchTerm single normalizedTerm
  let termDocs := mapped.foldl (fun (docs : ByteMap (Posting S)) post =>
    docs.insert post.documentId { post with collection := name }) ∅
  let memory := (c.index.getD ∅)[normalizedTerm]?.getD []
  (memory.foldl (addPosting scoring) termDocs).toList.map Prod.snd

end CollectionIndex

/-! ## The words of a query -/

section Words

variable {S : Type} (scoring : Scoring S)

def addVariant (variants : List (Bytes × S)) (value : Bytes) (weight : S) : List (Bytes × S) :=
  if value = [] ∨ variants.any (fun variant => variant.1 = value) then variants
  else variants ++ [(value, weight)]

def isWildcardTerm (term : Bytes) : Bool := term.elem (chr '*') || term.elem (chr '?')

def isPrefixWildcardTerm (term : Bytes) : Bool :=
  term.getLast? == some (chr '*') && !isWildcardTerm term.dropLast

def endsWithText (term ending : Bytes) : Bool := ending.isSuffixOf term

/-- `AddQueryTermVariants`: the term and its singular or plural. -/
def queryTermVariants (term : Bytes) : List (Bytes × S) :=
  let variants := addVariant [] term (scoring.weight 100)
  let size := term.length
  if size ≤ 3 || isWildcardTerm term then variants
  else if 4 < size && endsWithText term (lit "ies") then
    addVariant variants (term.take (size - 3) ++ lit "y") (scoring.weight 92)
  else if endsWithText term (lit "y") then
    if ((term.take (size - 1)).getLast?.all fun c => !(lit "aeiou").elem c) then
      addVariant variants (term.take (size - 1) ++ lit "ies") (scoring.weight 88)
    else addVariant variants (term ++ lit "s") (scoring.weight 86)
  else if 4 < size && endsWithText term (lit "es") then
    let stem := term.take (size - 2)
    if stem.getLast?.any fun c => (lit "sxzh").elem c then
      addVariant variants stem (scoring.weight 86)
    else variants
  else if endsWithText term (lit "s") && 4 < size && !endsWithText term (lit "ss") then
    addVariant variants (term.take (size - 1)) (scoring.weight 88)
  else addVariant (addVariant variants (term ++ lit "s") (scoring.weight 84)) (term ++ lit "es")
    (scoring.weight 80)

def queryTokens (query : Bytes) : List Bytes := (query.splitOnP isSpace).filter fun token => token ≠ []

/-- The negated words: the one after a `not`, and the ones that start with an exclamation mark. -/
def negatedTerms : Bool → List Bytes → List Bytes
  | _, [] => []
  | nextTokenIsNegative, token :: tokens =>
      if toLower token = lit "not" then negatedTerms true tokens
      else
        let marked := token.head? == some (chr '!')
        let normalized := normalizeTerm (if marked then token.tail else token)
        if (nextTokenIsNegative || marked) && normalized ≠ [] then
          normalized :: negatedTerms false tokens
        else negatedTerms false tokens

def uniqueTerms (terms : List Bytes) : List Bytes := (terms.filter fun term => term ≠ []).eraseDups

structure QuerySettings where
  maxQueryTerms : Int
  matchMode : Bytes
  minShouldMatch : Int
  candidatePruneMultiplier : Int

def negativeTerms (query : Bytes) : List Bytes := uniqueTerms (negatedTerms false (queryTokens query))

def positiveTerms (settings : QuerySettings) (query : Bytes) : List Bytes :=
  let negative := negatedTerms false (queryTokens query)
  let queryTerms := extractTerms query
  let queryTerms := if negative = [] then queryTerms else
    queryTerms.filter fun term => term ≠ lit "not" ∧ ¬ negative.elem term
  let queryTerms := uniqueTerms queryTerms
  if 0 < settings.maxQueryTerms then queryTerms.take settings.maxQueryTerms.toNat else queryTerms

/-- `BuildScopedKeys`. -/
def buildScopedKeys (queryFields : List Bytes) (term : Bytes) : List Bytes :=
  if queryFields = [] then [term]
  else (queryFields.filter fun field => field ≠ []).map fun field => buildFieldScopedTerm field term

end Words

/-! ## The documents of one word -/

namespace CollectionIndex

variable {S : Type} (single : SinglePrecision S) (scoring : Scoring S) (queryFields : List Bytes)

def mappedPostings (index : MMapIndex) (variant key : Bytes) : List (Posting S) :=
  if isWildcardTerm variant then
    if isPrefixWildcardTerm variant && 1 < key.length then
      index.searchPrefix single scoring key.dropLast
    else index.searchWildcard single scoring key
  else index.searchTerm single key

def memoryPostings (terms : ByteMap (List (Posting S))) (variant key : Bytes) : List (Posting S) :=
  if isWildcardTerm variant then
    (terms.toList.filter fun entry => scoring.wildcardMatch entry.1 key).flatMap Prod.snd
  else terms[key]?.getD []

def weightedPostings (lookup : Bytes → Bytes → List (Posting S)) (word : Bytes) :
    List (Posting S) :=
  (queryTermVariants scoring word).flatMap fun variant =>
    (buildScopedKeys queryFields variant.1).flatMap fun key =>
      (lookup variant.1 key).map (weighted scoring variant.2)

/-- `LoadTermDocs`: first the snapshot, then memory. -/
def loadTermDocs (name : Bytes) (c : CollectionIndex S) (word : Bytes) : ByteMap (Posting S) :=
  let mapped := match c.searchedMMap with
    | none => []
    | some index => (weightedPostings scoring queryFields (mappedPostings single scoring index)
        word).map fun post => { post with collection := name }
  let memory := weightedPostings scoring queryFields
    (memoryPostings scoring (c.index.getD ∅)) word
  (mapped ++ memory).foldl (addPosting scoring) ∅

/-- The documents of each word that is found; with the mode `and` a word that is not found ends the
search. -/
def termResults (settings : QuerySettings) (name : Bytes) (c : CollectionIndex S) :
    List Bytes → Option (List (ByteMap (Posting S)))
  | [] => some []
  | word :: words =>
      let normalized := normalizeTerm word
      if normalized = [] then termResults settings name c words
      else
        let termDocs := c.loadTermDocs single scoring queryFields name normalized
        if termDocs.isEmpty then
          if settings.matchMode = lit "and" then none else termResults settings name c words
        else (termResults settings name c words).map (termDocs :: ·)

def negativeDocIds (name : Bytes) (c : CollectionIndex S) (negative : List Bytes) : List Bytes :=
  negative.flatMap fun word =>
    let normalized := normalizeTerm word
    if normalized = [] then []
    else (c.loadTermDocs single scoring queryFields name normalized).keys

/-- All documents that memory knows, for a query that only negates. -/
def allDocs (name : Bytes) (c : CollectionIndex S) : ByteMap (Posting S) :=
  let known : List (Posting S) := (c.documentTerms.getD ∅).keys.map fun docId =>
    { documentId := docId, collection := name, score := scoring.one, positions := [] }
  let indexed := ((c.index.getD ∅).toList.flatMap Prod.snd).filter fun post =>
    post.documentId ≠ []
  let indexed := indexed.map fun post =>
    { post with collection := name, score := scoring.max post.score scoring.one }
  (known ++ indexed).foldl (fun docs post =>
    if docs.contains post.documentId then docs else docs.insert post.documentId post) ∅

end CollectionIndex

/-! ## The documents of a query -/

inductive MatchMode where
  | all | any | minShouldMatch
deriving DecidableEq, Repr

def MatchMode.ofText (text : Bytes) : MatchMode :=
  if toLower text = lit "or" then .any
  else if toLower text = lit "min_should_match" then .minShouldMatch
  else .all

section Combining

variable {S : Type} (scoring : Scoring S)

def joinPostings (a b : Posting S) : Posting S :=
  { a with score := scoring.add a.score b.score, positions := a.positions ++ b.positions }

/-- The documents that another word has as well, with the number of words. `Search` walks through two
sorted arrays where one side is much larger; the outcome is the same. -/
def intersectDocs (docs : ByteMap (Posting S × Nat)) (termDocs : ByteMap (Posting S)) :
    ByteMap (Posting S × Nat) :=
  docs.filterMap fun docId entry =>
    termDocs[docId]?.map fun post => (joinPostings scoring entry.1 post, entry.2 + 1)

def uniteDocs (docs : ByteMap (Posting S × Nat)) (termDocs : ByteMap (Posting S)) :
    ByteMap (Posting S × Nat) :=
  termDocs.toList.foldl (fun docs entry =>
    match docs[entry.1]? with
    | none => docs.insert entry.1 (entry.2, 1)
    | some existing =>
        docs.insert entry.1 (joinPostings scoring existing.1 entry.2, existing.2 + 1)) docs

/-- The candidates of a query: in all words, starting with the rarest, or in enough of them. -/
def combineDocs (settings : QuerySettings) (results : List (ByteMap (Posting S))) :
    ByteMap (Posting S × Nat) :=
  match MatchMode.ofText settings.matchMode with
  | .all =>
      match results.insertionSort fun a b => a.size ≤ b.size with
      | [] => ∅
      | rarest :: others =>
          others.foldl (intersectDocs scoring) (rarest.map fun _ post => (post, 1))
  | .any => results.foldl (uniteDocs scoring) ∅
  | .minShouldMatch =>
      let required := min (max 1 settings.minShouldMatch).toNat results.length
      (results.foldl (uniteDocs scoring) ∅).filter fun _ entry => required ≤ entry.2

/-- Too many candidates are cut down before they are scored. -/
def pruneCandidates (settings : QuerySettings) (limit : Nat) (candidates : List (Posting S × Nat)) :
    List (Posting S × Nat) :=
  let multiplier := (max 0 settings.candidatePruneMultiplier).toNat
  if 0 < limit ∧ 0 < multiplier then
    let candidateLimit := max limit (min (limit * multiplier) (2 ^ 64 - 1))
    if candidateLimit < candidates.length then scoring.best candidateLimit candidates else candidates
  else candidates

end Combining

namespace CollectionIndex

variable {S : Type} (single : SinglePrecision S) (scoring : Scoring S) (settings : QuerySettings)

/-- `Search`, of a collection with its name. -/
def search (name query : Bytes) (limit : Int) (queryFields : List Bytes) (c : CollectionIndex S) :
    List (Posting S) :=
  let limit := (min (max limit 0) 10000).toNat
  let queryTerms := positiveTerms settings query
  let negative := negativeTerms query
  if queryTerms = [] ∧ negative = [] then []
  else
    match c.termResults single scoring queryFields settings name queryTerms with
    | none => []
    | some results =>
        let results := if results = [] ∧ negative ≠ [] ∧ ¬ (c.allDocs scoring name).isEmpty then
          [c.allDocs scoring name] else results
        if results = [] then []
        else
          let excluded := c.negativeDocIds single scoring queryFields name negative
          let docScores := (combineDocs scoring settings results).filter fun docId _ =>
            !excluded.elem docId
          let candidates := pruneCandidates scoring settings limit
            (docScores.toList.map Prod.snd)
          let scored := candidates.map fun entry =>
            ({ entry.1 with score := scoring.finalScore c queryTerms results entry }, entry.2)
          let kept := if 0 < limit ∧ limit < scored.length then scoring.best limit scored else scored
          scoring.sort (kept.map Prod.fst)

end CollectionIndex

/-! ## What can be found -/

def MMapIndex.Holds {S : Type} (single : SinglePrecision S) (index : MMapIndex) (docId : Bytes) :
    Prop :=
  ∃ term, ∃ post ∈ index.searchTerm single term, post.documentId = docId

def CollectionIndex.Holds {S : Type} (single : SinglePrecision S) (c : CollectionIndex S)
    (docId : Bytes) : Prop :=
  (∃ index, c.mmapIndex = some index ∧ index.Holds single docId) ∨
    (∃ (term : Bytes) (postings : List (Posting S)), (c.index.getD ∅)[term]? = some postings ∧
      ∃ post ∈ postings, post.documentId = docId) ∨
    docId ∈ c.documentTerms.getD ∅

section Found

variable {S V : Type} (scoring : Scoring S) {P : Bytes → Prop}

/-- Every posting of the map stands under its id, and the id has the property. -/
def FoundIn (P : Bytes → Prop) (f : V → Posting S) (docs : ByteMap V) : Prop :=
  ∀ (docId : Bytes) (v : V), docs[docId]? = some v → (f v).documentId = docId ∧ P docId

theorem foundIn_empty (f : V → Posting S) : FoundIn P f ∅ := by
  intro docId v h
  cases h

variable {f : V → Posting S} {docs : ByteMap V}

theorem FoundIn.insert (h : FoundIn P f docs) {docId : Bytes} {v : V}
    (hv : (f v).documentId = docId) (hp : P docId) : FoundIn P f (docs.insert docId v) :=
  ByteMap.forall_insert h ⟨hv, hp⟩

theorem FoundIn.addPosting {docs : ByteMap (Posting S)} (h : FoundIn P id docs) {post : Posting S}
    (hp : P post.documentId) : FoundIn P id (addPosting scoring docs post) := by
  unfold Index.addPosting
  cases hget : docs[post.documentId]? with
  | none => exact h.insert rfl hp
  | some existing => exact h.insert (h _ _ hget).1 hp

theorem FoundIn.foldl {α : Type} {step : ByteMap V → α → ByteMap V} {items : List α}
    (h : FoundIn P f docs)
    (hstep : ∀ item ∈ items, ∀ docs, FoundIn P f docs → FoundIn P f (step docs item)) :
    FoundIn P f (items.foldl step docs) :=
  List.foldlRecOn items step h fun docs hdocs item hitem => hstep item hitem docs hdocs

theorem foundIn_addPostings {postings : List (Posting S)} {docs : ByteMap (Posting S)}
    (h : FoundIn P id docs) (hp : ∀ post ∈ postings, P post.documentId) :
    FoundIn P id (postings.foldl (Index.addPosting scoring) docs) :=
  h.foldl fun post hmem _ h' => h'.addPosting scoring (hp post hmem)

theorem FoundIn.of_mem (h : FoundIn P f docs) {v : V} (hv : v ∈ docs.toList.map Prod.snd) :
    P (f v).documentId := by
  obtain ⟨⟨docId, v⟩, hmem, rfl⟩ := List.mem_map.mp hv
  obtain ⟨hid, hp⟩ := h docId v (Std.ExtTreeMap.mem_toList_iff_getElem?_eq_some.mp hmem)
  exact hid ▸ hp

theorem FoundIn.filter (h : FoundIn P f docs) (test : Bytes → V → Bool) :
    FoundIn P f (docs.filter test) := by
  intro docId v hget
  rw [Std.ExtTreeMap.getElem?_filter'] at hget
  exact h docId v (Option.filter_eq_some_iff.mp hget).1

end Found

namespace MMapIndex

variable {S : Type} {single : SinglePrecision S} (scoring : Scoring S)

variable {index : MMapIndex} {post : Posting S}

theorem searchTerms_found {test : Bytes → Bool} (h : post ∈ index.searchTerms single scoring test) :
    index.Holds single post.documentId := by
  unfold searchTerms at h
  rw [(scoring.sort_perm _).mem_iff] at h
  refine FoundIn.of_mem (f := id) (FoundIn.foldl (foundIn_empty id) ?_) h
  intro term _ docs hdocs
  exact foundIn_addPostings scoring hdocs fun post hp => ⟨term, post, hp, rfl⟩

theorem searchPrefix_found {prefixValue : Bytes}
    (h : post ∈ index.searchPrefix single scoring prefixValue) :
    index.Holds single post.documentId := by
  unfold searchPrefix at h
  split at h
  · cases h
  · exact searchTerms_found scoring h

theorem searchWildcard_found {patternValue : Bytes}
    (h : post ∈ index.searchWildcard single scoring patternValue) :
    index.Holds single post.documentId := by
  unfold searchWildcard at h
  split at h
  · cases h
  · exact searchTerms_found scoring h

end MMapIndex

namespace CollectionIndex

variable {S : Type} {single : SinglePrecision S} (scoring : Scoring S) {c : CollectionIndex S}

theorem holds_of_mapped {index : MMapIndex} (h : c.searchedMMap = some index) {docId : Bytes}
    (hd : index.Holds single docId) : c.Holds single docId :=
  .inl ⟨index, (Option.filter_eq_some_iff.mp h).1, hd⟩

theorem holds_of_memory {term : Bytes} {post : Posting S}
    (h : post ∈ (c.index.getD ∅)[term]?.getD []) : c.Holds single post.documentId := by
  cases hget : (c.index.getD ∅)[term]? with
  | none => rw [hget] at h; cases h
  | some postings =>
    rw [hget] at h
    exact .inr (.inl ⟨term, postings, hget, post, h, rfl⟩)

/-- **What `SearchTerm` returns is in the collection.** -/
theorem searchTerm_found {name term : Bytes} {post : Posting S}
    (h : post ∈ c.searchTerm single scoring name term) : c.Holds single post.documentId := by
  refine FoundIn.of_mem (f := id) (foundIn_addPostings scoring (FoundIn.foldl
    (foundIn_empty id) ?_) fun post hp => holds_of_memory hp) h
  intro post hp docs hdocs
  refine hdocs.insert rfl ?_
  cases hmap : c.searchedMMap with
  | none => rw [hmap] at hp; cases hp
  | some index =>
    rw [hmap] at hp
    exact holds_of_mapped hmap ⟨_, post, hp, rfl⟩

theorem mappedPostings_found {index : MMapIndex} {variant key : Bytes} {post : Posting S}
    (h : post ∈ mappedPostings single scoring index variant key) :
    index.Holds single post.documentId := by
  unfold mappedPostings at h
  split at h
  · split at h
    · exact MMapIndex.searchPrefix_found scoring h
    · exact MMapIndex.searchWildcard_found scoring h
  · exact ⟨key, post, h, rfl⟩

theorem memoryPostings_found {variant key : Bytes} {post : Posting S}
    (h : post ∈ memoryPostings scoring (c.index.getD ∅) variant key) :
    c.Holds single post.documentId := by
  unfold memoryPostings at h
  split at h
  · obtain ⟨⟨term, postings⟩, hmem, hp⟩ := List.mem_flatMap.mp h
    have hget := Std.ExtTreeMap.mem_toList_iff_getElem?_eq_some.mp (List.mem_filter.mp hmem).1
    exact .inr (.inl ⟨term, postings, hget, post, hp, rfl⟩)
  · exact holds_of_memory h

theorem weightedPostings_found {P : Bytes → Prop} {queryFields : List Bytes}
    {lookup : Bytes → Bytes → List (Posting S)} {word : Bytes}
    (h : ∀ variant key, ∀ post ∈ lookup variant key, P post.documentId) :
    ∀ post ∈ weightedPostings scoring queryFields lookup word, P post.documentId := by
  intro post hp
  obtain ⟨variant, -, hp⟩ := List.mem_flatMap.mp hp
  obtain ⟨key, -, hp⟩ := List.mem_flatMap.mp hp
  obtain ⟨found, hfound, rfl⟩ := List.mem_map.mp hp
  exact h variant.1 key found hfound

theorem loadTermDocs_found (queryFields : List Bytes) (name word : Bytes) :
    FoundIn (c.Holds single) id (c.loadTermDocs single scoring queryFields name word) := by
  refine foundIn_addPostings scoring (foundIn_empty id) fun post hp => ?_
  rcases List.mem_append.mp hp with hp | hp
  · cases hmap : c.searchedMMap with
    | none => rw [hmap] at hp; cases hp
    | some index =>
      rw [hmap] at hp
      obtain ⟨found, hfound, rfl⟩ := List.mem_map.mp hp
      exact weightedPostings_found scoring (fun variant key post hp =>
        holds_of_mapped hmap (mappedPostings_found scoring hp)) found hfound
  · exact weightedPostings_found scoring
      (fun variant key post hp => memoryPostings_found scoring hp) post hp

theorem allDocs_found (name : Bytes) :
    FoundIn (c.Holds single) id (c.allDocs scoring name) := by
  refine FoundIn.foldl (foundIn_empty id) fun post hp docs hdocs => ?_
  have hholds : c.Holds single post.documentId := by
    rcases List.mem_append.mp hp with hp | hp
    · obtain ⟨docId, hd, rfl⟩ := List.mem_map.mp hp
      exact .inr (.inr (Std.ExtTreeMap.mem_keys.mp hd))
    · obtain ⟨found, hfound, rfl⟩ := List.mem_map.mp hp
      obtain ⟨⟨term, postings⟩, hmem, hpost⟩ :=
        List.mem_flatMap.mp (List.mem_filter.mp hfound).1
      exact .inr (.inl ⟨term, postings, Std.ExtTreeMap.mem_toList_iff_getElem?_eq_some.mp hmem,
        found, hpost, rfl⟩)
  split
  · exact hdocs
  · exact hdocs.insert rfl hholds

end CollectionIndex

section Combined

variable {S : Type} (scoring : Scoring S) {P : Bytes → Prop}

theorem FoundIn.intersectDocs {docs : ByteMap (Posting S × Nat)} (h : FoundIn P Prod.fst docs)
    (termDocs : ByteMap (Posting S)) :
    FoundIn P Prod.fst (intersectDocs scoring docs termDocs) := by
  intro docId entry hget
  unfold Index.intersectDocs at hget
  rw [Std.ExtTreeMap.getElem?_filterMap'] at hget
  obtain ⟨before, hbefore, hjoin⟩ := Option.bind_eq_some_iff.mp hget
  obtain ⟨post, -, rfl⟩ := Option.map_eq_some_iff.mp hjoin
  exact h docId before hbefore

theorem FoundIn.uniteDocs {docs : ByteMap (Posting S × Nat)} (h : FoundIn P Prod.fst docs)
    {termDocs : ByteMap (Posting S)} (ht : FoundIn P id termDocs) :
    FoundIn P Prod.fst (uniteDocs scoring docs termDocs) := by
  refine h.foldl fun entry hmem docs hdocs => ?_
  obtain ⟨hid, hp⟩ := ht entry.1 entry.2 (Std.ExtTreeMap.mem_toList_iff_getElem?_eq_some.mp hmem)
  cases hget : docs[entry.1]? with
  | none => exact hdocs.insert hid hp
  | some existing => exact hdocs.insert (hdocs _ _ hget).1 hp

/-- **The candidates are documents of the words.** -/
theorem combineDocs_found (settings : QuerySettings) {results : List (ByteMap (Posting S))}
    (h : ∀ docs ∈ results, FoundIn P id docs) :
    FoundIn P Prod.fst (combineDocs scoring settings results) := by
  have hunited : FoundIn P Prod.fst (results.foldl (Index.uniteDocs scoring) ∅) :=
    FoundIn.foldl (foundIn_empty Prod.fst) fun docs hd _ h' => h'.uniteDocs scoring (h docs hd)
  unfold combineDocs
  split
  · split
    · exact foundIn_empty _
    · rename_i rarest others hsort
      have hrarest : rarest ∈ results :=
        (List.perm_insertionSort _ results).mem_iff.mp (by rw [hsort]; simp)
      refine FoundIn.foldl ?_ fun docs _ _ h' => h'.intersectDocs scoring docs
      intro docId entry hget
      rw [Std.ExtTreeMap.getElem?_map] at hget
      obtain ⟨post, hpost, rfl⟩ := Option.map_eq_some_iff.mp hget
      exact h rarest hrarest docId post hpost
  · exact hunited
  · exact hunited.filter _

theorem pruneCandidates_subset (settings : QuerySettings) (limit : Nat)
    (candidates : List (Posting S × Nat)) :
    pruneCandidates scoring settings limit candidates ⊆ candidates := by
  unfold pruneCandidates
  dsimp only
  split
  · split
    · exact scoring.best_subset _ _
    · exact List.Subset.refl _
  · exact List.Subset.refl _

end Combined

end Hlquery.Index
