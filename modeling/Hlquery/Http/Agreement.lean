import Hlquery.Http.Dispatch

/-!
# Where the path dispatcher runs what the resolver found

The resolver is meant to be the authority: the action that it finds is what a request is authorized
for. But the handler comes from the path dispatcher, which looks for words anywhere in the path. This
module says, action by action, for which paths the two agree.

The words are those of the routes. A path can hold a word that is not its own in the name of a
collection or of a document, or behind a question mark that came in encoded; each rule that stands
before the right one in the chain and fires on such a word takes the request away.
-/

set_option autoImplicit false

namespace Hlquery.Http

open Bytes

/-! ## The condition -/

def has (p : Bytes) (word : String) : Bool := contains p (lit word)

def takenBySynonyms (method : Method) (p : Bytes) : Bool :=
  if method = .get then has p "/synonyms" else has p "/synonyms/"

def takenByStopwords (method : Method) (p : Bytes) : Bool :=
  match method with
  | .get | .post => has p "/stopwords" && !has p "/stopwords/"
  | .delete => has p "/stopwords/"
  | _ => false

def passesSets (method : Method) (p : Bytes) : Bool :=
  !takenBySynonyms method p && !takenByStopwords method p

/-- The rule for `/collections/{collection}/search` takes a GET or POST. -/
def takenBySearch (n : Bytes) : Bool :=
  has n "/search" && lacks n [lit "/documents", lit "/synonyms", lit "/stopwords"]

def documentOperations : List Bytes :=
  [lit "/documents/search", lit "/documents/facet_counts", lit "/documents/maybe",
    lit "/documents/export"]

/-- No rule about sets, searches or operations on documents takes the request. For a POST the rule
about documents counts among these. -/
def passesOperations (method : Method) (p n : Bytes) : Bool :=
  passesSets method p && !takenBySearch n &&
    if method = .post then lacks p [lit "/documents"]
    else lacks p documentOperations && !(has p "/documents/" && has p "/context")

def passesVectorSearch (p n : Bytes) : Bool := !has p "/vector_search" && !vectorSearchAlias n

def takenByDocuments (p : Bytes) : Bool :=
  (has p "/documents" && lacks p [lit "/documents/", lit "/search", lit "/facet_counts",
    lit "/export", lit "/import"]) || plainDocument p

def reachesOverrides (p n : Bytes) : Bool :=
  passesOperations .get p n && passesVectorSearch p n && !endsWith n (lit "/lang") &&
    !takenByDocuments p

def namesOverride (p : Bytes) : Bool :=
  has p "/overrides/" || has p "/curations/" || has p "/curation_sets/"

def namesOverrides (p : Bytes) : Bool :=
  (has p "/overrides" && !has p "/overrides/") ||
    ((has p "/curations" || has p "/curation_sets") && lacks p curationItems)

/-- When the dispatchers agree on a request with this action, by the path and the normalized
path. -/
def agreement (action : RouteAction) (method : Method) (p n : Bytes) : Bool :=
  match action with
  -- dispatched by action
  | .ping | .connections | .rocksDB | .startup | .integrity | .selfCheck | .flush
  | .metricsHistory | .cache | .debugCounters | .etc | .analyticsClick | .notFound => true
  -- a prefix decides in both
  | .listUsers | .createUser | .getUser | .updateUser | .deleteUser | .listKeys | .createKey
  | .getKey | .updateKey | .deleteKey | .listPresets | .upsertPreset | .getPreset | .deletePreset
  | .upsertAlias | .getAlias | .deleteAlias | .upsertGlobalSynonym | .getGlobalSynonym
  | .deleteGlobalSynonym | .deleteGlobalStopword => true
  -- no rule of the chain has their handler
  | .moduleLoad | .moduleUnload | .updateByQuery | .deleteByQuery => false
  | .getModuleSyntax => endsWith n (lit "/syntax")
  | .moduleAPI => !(method == .get && endsWith n (lit "/syntax"))
  | .listSynonyms => has p "/synonyms" && !has p "/synonyms/"
  | .getSynonym | .upsertSynonym | .deleteSynonym => has p "/synonyms/"
  | .listStopwords | .createStopword =>
      !takenBySynonyms method p && has p "/stopwords" && !has p "/stopwords/"
  | .deleteStopword => !has p "/synonyms/" && has p "/stopwords/"
  | .documentSearch =>
      p == lit "/sql" || (inCollections p && passesSets method p && has p "/documents/search")
  | .facetCounts =>
      passesSets method p && !has p "/documents/search" && has p "/documents/facet_counts"
  | .maybeSuggest =>
      passesSets method p && lacks p [lit "/documents/search", lit "/documents/facet_counts"] &&
        has p "/documents/maybe"
  | .getDocumentContext =>
      passesSets method p &&
        lacks p [lit "/documents/search", lit "/documents/facet_counts", lit "/documents/maybe"]
  | .exportDocuments =>
      passesSets method p &&
        lacks p [lit "/documents/search", lit "/documents/facet_counts", lit "/documents/maybe"] &&
        !(method == .get && has p "/context") && has p "/documents/export"
  | .bulkImportDocuments =>
      passesSets method p && lacks p documentOperations && has p "/documents/import"
  | .addDocument => passesSets method p && lacks p documentOperations && !has p "/documents/import"
  | .vectorSearch => passesOperations method p n && !passesVectorSearch p n
  | .getCollectionLanguage =>
      passesOperations method p n && !has p "/vector_search" && endsWith n (lit "/lang")
  | .getCollection =>
      lacks n [lit "/search"] && lacks p collectionParts && !has p "/vector_search" &&
        !endsWith n (lit "/lang")
  | .updateCollection => passesOperations method p n && !has p "/vector_search"
  | .deleteCollection => lacks p collectionParts
  | .listDocuments =>
      passesSets method p &&
        lacks p [lit "/vector_search", lit "/documents/", lit "/search", lit "/facet_counts",
          lit "/export", lit "/import"]
  | .getDocument =>
      passesSets method p && lacks p documentParts &&
        lacks p [lit "/context", lit "/vector_search"] && !endsWith n (lit "/lang")
  | .updateDocument | .deleteDocument => passesSets method p && lacks p documentParts
  | .deleteDocumentsByFilter => passesSets method p && !has p "/documents/"
  | .listOverrides => reachesOverrides p n && namesOverrides p
  | .getOverride => reachesOverrides p n && !namesOverrides p && namesOverride p
  | .upsertOverride =>
      namesOverride p &&
        if method = .post then
          passesOperations method p n && passesVectorSearch p n && !has p "/update"
        else passesSets method p && !plainDocument p
  | .deleteOverride =>
      namesOverride p && passesSets method p && !plainDocument p &&
        !(has p "/documents" && !has p "/documents/")
  | .listAliases =>
      p == lit "/aliases" ||
        (inCollections p && reachesOverrides p n &&
          lacks p [lit "/overrides", lit "/curations", lit "/curation_sets"] &&
          endsWith n (lit "/aliases"))
  -- the rest have exact paths, and the dispatcher wants the path without a trailing slash
  | _ => p == n

/-- **The dispatchers agree on the request.** -/
def routedAsResolved (method : Method) (p : Bytes) : Bool :=
  agreement (resolveHttpRoute method p) method p (normalizePath p)

/-! ## A chain as a list of conditions -/

def firstTrue : List (Bool × Handler) → Option Handler
  | [] => none
  | (fits, handler) :: rest => if fits then some handler else firstTrue rest

def picks (handler : Handler) : List (Bool × Handler) → Bool
  | [] => false
  | (fits, handler') :: rest =>
      if handler' = handler then fits || picks handler rest else !fits && picks handler rest

theorem firstTrue_eq_some_iff {handler : Handler} :
    ∀ {rules : List (Bool × Handler)}, firstTrue rules = some handler ↔ picks handler rules = true
  | [] => by simp [firstTrue, picks]
  | (fits, handler') :: rest => by
    have ih := @firstTrue_eq_some_iff handler rest
    cases fits <;> by_cases h : handler' = handler <;> simp [firstTrue, picks, h, ih]

theorem firstHandler_eq_firstTrue (method : Method) (path : Bytes) :
    ∀ rules : List PathRule, firstHandler rules method path =
      firstTrue (rules.map fun rule => (rule.applies method path, rule.handler))
  | [] => rfl
  | rule :: rules => by
    have ih := firstHandler_eq_firstTrue method path rules
    unfold firstHandler at ih ⊢
    rw [List.find?_cons, List.map_cons, firstTrue]
    cases rule.applies method path with
    | true => rfl
    | false => exact ih

variable {n p w : Bytes} {rules : List PathRule} {method : Method} {action : RouteAction}
  {rule : PathRule} {chain : List (Bool × Handler)}

theorem exists_rule_of_firstHandler {path : Bytes} {handler : Handler}
    (h : firstHandler rules method path = some handler) :
    ∃ rule ∈ rules, rule.handler = handler ∧ rule.test path (normalizePath path) = true := by
  obtain ⟨rule, hrule, hh⟩ := Option.map_eq_some_iff.mp h
  have happlies := List.find?_some hrule
  rw [PathRule.applies, Bool.and_eq_true] at happlies
  exact ⟨rule, List.mem_of_find?_eq_some hrule, hh, happlies.2⟩

/-! ## The chain below `/collections/` -/

/-- The chain as a GET below `/collections/` meets it. -/
def getChain (p n : Bytes) : List (Bool × Handler) :=
  [(has p "/synonyms" && lacks p [lit "/synonyms/"], .listSynonyms),
    (has p "/synonyms/", .getSynonym),
    (has p "/stopwords" && lacks p [lit "/stopwords/"], .listStopwords),
    (has p "/documents/search", .search),
    (takenBySearch n, .search),
    (has p "/documents/facet_counts", .facetCounts),
    (has p "/documents/maybe", .maybe),
    (has p "/documents/" && has p "/context", .getDocumentContext),
    (has p "/documents/export", .exportDocuments),
    (p == lit "/collections/distributed", .listCollectionsDistributed),
    (has p "/vector_search" || vectorSearchAlias n, .vectorSearch),
    (decide ((lit "/collections/").length < n.length) && endsWith n (lit "/lang"),
      .getCollectionLanguage),
    (lacks n [lit "/search"] && lacks p collectionParts, .getCollection),
    (has p "/documents" && lacks p [lit "/documents/", lit "/search", lit "/facet_counts",
      lit "/export", lit "/import"], .listDocuments),
    (plainDocument p, .getDocument),
    (has p "/overrides" && lacks p [lit "/overrides/"], .listOverrides),
    (overrideItem [lit "/curations", lit "/curation_sets"] p && lacks p curationItems,
      .listOverrides),
    (overrideItem [lit "/overrides/"] p, .getOverride),
    (overrideItem curationItems p, .getOverride),
    (endsWith n (lit "/aliases"), .listAliases)]

def postChain (p n : Bytes) : List (Bool × Handler) :=
  [(has p "/synonyms/" && has p "/synonyms", .createOrUpdateSynonym),
    (has p "/stopwords" && lacks p [lit "/stopwords/"], .createStopword),
    (has p "/documents/search", .search),
    (takenBySearch n, .search),
    (has p "/documents/facet_counts", .facetCounts),
    (has p "/documents/maybe", .maybe),
    (has p "/documents/export", .exportDocuments),
    (has p "/documents" && has p "/documents/import", .bulkImportDocuments),
    (has p "/documents", .addDocument),
    (has p "/vector_search" || vectorSearchAlias n, .vectorSearch),
    (has p "/update", .updateCollection),
    (overrideItem [lit "/overrides/"] p, .createOrUpdateOverride),
    (overrideItem curationItems p, .createOrUpdateOverride)]

def putChain (p : Bytes) : List (Bool × Handler) :=
  [(has p "/synonyms/" && has p "/synonyms", .createOrUpdateSynonym),
    (plainDocument p, .updateDocument),
    (overrideItem [lit "/overrides/"] p, .createOrUpdateOverride),
    (overrideItem curationItems p, .createOrUpdateOverride)]

def deleteChain (p : Bytes) : List (Bool × Handler) :=
  [(has p "/synonyms/", .deleteSynonym),
    (has p "/stopwords/", .deleteStopword),
    (lacks p collectionParts, .deleteCollection),
    (plainDocument p, .deleteDocument),
    (has p "/documents" && lacks p [lit "/documents/"], .deleteDocumentsByFilter),
    (overrideItem [lit "/overrides/"] p, .deleteOverride),
    (overrideItem curationItems p, .deleteOverride)]

/-- What the chain comes to for a path below `/collections/`. -/
def collectionChain (method : Method) (p n : Bytes) : List (Bool × Handler) :=
  match method with
  | .get => getChain p n
  | .post => postChain p n
  | .put => putChain p
  | .delete => deleteChain p
  | _ => []

theorem firstHandler_skipMethod (h : rule.methods.contains method = false)
    (hrest : firstHandler rules method p = firstTrue chain) :
    firstHandler (rule :: rules) method p = firstTrue chain := by
  rw [← hrest]
  unfold firstHandler PathRule.applies
  rw [List.find?_cons, h]
  rfl

theorem firstHandler_skipTest (h : rule.test p (normalizePath p) = false)
    (hrest : firstHandler rules method p = firstTrue chain) :
    firstHandler (rule :: rules) method p = firstTrue chain := by
  rw [← hrest]
  simp [firstHandler, PathRule.applies, h]

theorem firstHandler_next {fits : Bool} (hm : rule.methods.contains method = true)
    (h : rule.test p (normalizePath p) = fits)
    (hrest : firstHandler rules method p = firstTrue chain) :
    firstHandler (rule :: rules) method p = firstTrue ((fits, rule.handler) :: chain) := by
  rw [firstTrue, ← hrest, ← h]
  unfold firstHandler PathRule.applies
  rw [List.find?_cons, hm]
  cases rule.test p (normalizePath p) <;> rfl

theorem beq_of_inCollections (hp : inCollections p = true) (hw : inCollections w = false) :
    (p == w) = false := by
  rw [beq_eq_false_iff_ne]
  intro h
  rw [← h, hp] at hw
  cases hw

/-- What the chain comes to for a path below `/collections/`: the other rules have another method or
another first segment. -/
theorem firstHandler_collection (hp : inCollections p = true) (method : Method) :
    firstHandler pathRules method p = firstTrue (collectionChain method p (normalizePath p)) := by
  have hmodules : startsWith p (lit "/modules/") = false := by
    obtain ⟨t, rfl⟩ := startsWith_iff.mp hp
    rfl
  have haliases : startsWith p (lit "/aliases/") = false := by
    obtain ⟨t, rfl⟩ := startsWith_iff.mp hp
    rfl
  have hglobal : globalItem synonymSets p = false ∧ globalItem stopwordSets p = false := by
    obtain ⟨t, rfl⟩ := startsWith_iff.mp hp
    exact ⟨rfl, rfl⟩
  -- rule by rule: its method is another one, its test fails, or it is the next of the chain
  cases method <;> unfold collectionChain <;> simp only [getChain, postChain, putChain, deleteChain]
  all_goals
    repeat' first
      | refine firstHandler_skipMethod rfl ?_
      | (refine firstHandler_skipTest ?_ ?_
         focus
           simp (disch := decide) only [beq_of_inCollections hp, hmodules, haliases, hglobal,
             Bool.or_false, Bool.false_and]
           done)
      | (refine firstHandler_next rfl ?_ ?_
         focus
           simp only [hp, has, takenBySearch, synonymItem, wordWithoutItem, Bool.true_and])
  all_goals rfl

theorem firstHandler_account_collection (hn : inCollections n = true) (hnp : normalizePath p = n)
    (method : Method) : firstHandler accountRules method p = none := by
  obtain ⟨t, rfl⟩ := startsWith_iff.mp hn
  rw [firstHandler_eq_firstTrue]
  unfold PathRule.applies
  rw [hnp]
  cases method <;> rfl

theorem dispatchPath_collection (hn : inCollections (normalizePath p) = true)
    (hp : inCollections p = true) (method : Method) :
    dispatchPath method p = firstTrue (collectionChain method p (normalizePath p)) := by
  unfold dispatchPath
  rw [firstHandler_account_collection hn rfl, Option.or_none, firstHandler_collection hp]

/-! ## Words -/

@[simp] theorem lacks_nil (p : Bytes) : lacks p [] = true := rfl

@[simp] theorem lacks_cons (p w : Bytes) (ws : List Bytes) :
    lacks p (w :: ws) = (!contains p w && lacks p ws) := rfl

theorem contains_lit (p : Bytes) (w : String) : contains p (lit w) = has p w := rfl

theorem has_of_has {w w' : String} (hw : lit w' <:+: lit w) (h : has p w = true) :
    has p w' = true := contains_of_infix_pat h hw

theorem startsWith_normalizePath (p : Bytes) : normalizePath p <+: p := by
  have htake : p.takeWhile (· != chr '?') <+: p := List.takeWhile_prefix _
  unfold normalizePath
  simp only
  split
  · exact (List.dropLast_prefix _).trans htake
  · exact htake

theorem has_of_normalized {w : String} (h : has (normalizePath p) w = true) :
    has p w = true := contains_of_infix h (startsWith_normalizePath p).isInfix

theorem startsWith_of_normalized (h : startsWith (normalizePath p) w = true) :
    startsWith p w = true := by
  obtain ⟨t, ht⟩ := startsWith_iff.mp h
  obtain ⟨u, hu⟩ := startsWith_normalizePath p
  exact startsWith_iff.mpr ⟨t ++ u, by rw [← hu, ht, List.append_assoc]⟩

/-- Which words bring which others with them. -/
structure WordFacts (p n : Bytes) : Prop where
  synonyms : has p "/synonyms/" = true → has p "/synonyms" = true
  stopwords : has p "/stopwords/" = true → has p "/stopwords" = true
  documents : has p "/documents/" = true → has p "/documents" = true
  operation : (has p "/documents/search" || has p "/documents/facet_counts" ||
    has p "/documents/maybe" || has p "/documents/export" || has p "/documents/import") = true →
      has p "/documents/" = true
  search : has p "/documents/search" = true → has p "/search" = true
  facetCounts : has p "/documents/facet_counts" = true → has p "/facet_counts" = true
  maybe : has p "/documents/maybe" = true → has p "/maybe" = true
  exports : has p "/documents/export" = true → has p "/export" = true
  overrides : has p "/overrides/" = true → has p "/overrides" = true
  curations : has p "/curations/" = true → has p "/curations" = true
  curationSets : has p "/curation_sets/" = true → has p "/curation_sets" = true
  normalizedSearch : has n "/search" = true → has p "/search" = true
  normalizedDocuments : has n "/documents" = true → has p "/documents" = true
  normalizedItem : has n "/documents/" = true → has p "/documents/" = true ∧ has n "/documents" = true
  normalizedContext : has n "/context" = true → has p "/context" = true
  normalizedUpdate : has n "/update" = true → has p "/update" = true
  endsSearch : endsWith n (lit "/search") = true → has n "/search" = true
  endsLang : endsWith n (lit "/lang") = true → endsWith n (lit "/search") = false
  endsAliases : endsWith n (lit "/aliases") = true → has p "/aliases" = true

theorem infix_of_endsWith (h : endsWith n w = true) : w <:+: n := by
  obtain ⟨t, ht⟩ := startsWith_iff.mp h
  refine ⟨t.reverse, [], ?_⟩
  rw [List.append_nil, ← List.reverse_reverse n, ht, List.reverse_append, List.reverse_reverse]

theorem wordFacts (p : Bytes) : WordFacts p (normalizePath p) where
  synonyms := has_of_has (by decide)
  stopwords := has_of_has (by decide)
  documents := has_of_has (by decide)
  operation := by
    simp only [Bool.or_eq_true]
    rintro ((((h | h) | h) | h) | h) <;> exact has_of_has (by decide) h
  search := has_of_has (by decide)
  facetCounts := has_of_has (by decide)
  maybe := has_of_has (by decide)
  exports := has_of_has (by decide)
  overrides := has_of_has (by decide)
  curations := has_of_has (by decide)
  curationSets := has_of_has (by decide)
  normalizedSearch := has_of_normalized
  normalizedDocuments := has_of_normalized
  normalizedItem h := ⟨has_of_normalized h, has_of_has (by decide) h⟩
  normalizedContext := has_of_normalized
  normalizedUpdate := has_of_normalized
  endsSearch h := contains_iff.mpr (infix_of_endsWith h)
  endsLang h := by
    obtain ⟨t, ht⟩ := startsWith_iff.mp h
    unfold endsWith
    rw [ht]
    rfl
  endsAliases h :=
    contains_iff.mpr ((infix_of_endsWith h).trans (startsWith_normalizePath p).isInfix)

/-! ## What the resolver's tests say about the path -/

theorem intercalate_append {sep : Bytes} {ys : List Bytes} (hys : ys ≠ []) :
    ∀ {xs : List Bytes}, xs ≠ [] →
      sep.intercalate (xs ++ ys) = sep.intercalate xs ++ sep ++ sep.intercalate ys
  | [], h => absurd rfl h
  | [x], _ => by simp [List.intercalate_cons_of_ne_nil hys]
  | x :: x' :: xs, _ => by
    have ih := @intercalate_append sep ys hys (x' :: xs) (List.cons_ne_nil x' xs)
    rw [List.cons_append, List.intercalate_cons_of_ne_nil (by simp), ih,
      List.intercalate_cons_of_ne_nil (List.cons_ne_nil x' xs)]
    simp

/-- A segment that is not the first has a slash in front, and one that is not the last a slash
behind. -/
theorem infix_of_segments {pre post : List Bytes} (h : splitRouteSegments n = pre ++ w :: post)
    (hpre : pre ≠ []) : chr '/' :: w <:+: n ∧ (post ≠ [] → (chr '/' :: w) ++ [chr '/'] <:+: n) := by
  obtain ⟨l₁, l₂, hsplit, h₁, h₂⟩ := List.filter_eq_append_iff.mp h
  obtain ⟨e, l₃, rfl, -, -, h₃⟩ := List.filter_eq_cons_iff.mp h₂
  have hn : n = [chr '/'].intercalate ((l₁ ++ e) ++ w :: l₃) := by
    rw [List.append_assoc, ← hsplit, List.intercalate_splitOn]
  have hne : l₁ ++ e ≠ [] := by
    intro hnil
    rw [List.append_eq_nil_iff] at hnil
    rw [hnil.1] at h₁
    exact hpre h₁.symm
  rw [intercalate_append (List.cons_ne_nil w l₃) hne] at hn
  refine ⟨?_, ?_⟩
  · cases l₃ with
    | nil => exact ⟨[chr '/'].intercalate (l₁ ++ e), [], by rw [hn]; simp⟩
    | cons x l₃ =>
      refine ⟨[chr '/'].intercalate (l₁ ++ e), [chr '/'] ++ [chr '/'].intercalate (x :: l₃), ?_⟩
      rw [hn, List.intercalate_cons_of_ne_nil (List.cons_ne_nil x l₃)]
      simp
  · intro hpost
    have hl₃ : l₃ ≠ [] := by
      intro hnil
      rw [hnil] at h₃
      exact hpost h₃.symm
    refine ⟨[chr '/'].intercalate (l₁ ++ e), [chr '/'].intercalate l₃, ?_⟩
    rw [hn, List.intercalate_cons_of_ne_nil hl₃]
    simp

/-- A path that ends in a slash and a word has the word as its last segment. -/
theorem getLast_segments (h : endsWith n (chr '/' :: w) = true) (hne : w ≠ []) (hw : chr '/' ∉ w) :
    (splitRouteSegments n).getLast? = some w := by
  obtain ⟨t, ht⟩ := startsWith_iff.mp h
  have hn : n = t.reverse ++ chr '/' :: w := by
    rw [← List.reverse_reverse n, ht, List.reverse_append, List.reverse_reverse]
  unfold splitRouteSegments
  rw [hn, List.splitOn_append_cons_self, List.splitOn_eq_singleton hw, List.filter_append]
  simp [hne]

/-- The words that the tests of the resolver leave in the path. -/
def PathFacts (action : RouteAction) (n : Bytes) : Prop :=
  match action with
  | .documentSearch | .facetCounts | .maybeSuggest | .exportDocuments | .bulkImportDocuments
  | .getDocument | .updateDocument | .deleteDocument => has n "/documents/" = true
  | .getDocumentContext => has n "/documents/" = true ∧ has n "/context" = true
  | .listDocuments => has n "/documents" = true ∧ endsWith n (lit "/lang") = false
  | .addDocument | .deleteDocumentsByFilter => has n "/documents" = true
  | .updateCollection => has n "/update" = true ∧ endsWith n (lit "/search") = false
  | _ => True

theorem inCollections_of_segments (h : collectionSegments n ≠ []) :
    inCollections n = true ∧ collectionSegments n = splitRouteSegments n := by
  unfold collectionSegments at h ⊢
  split
  · rename_i hs
    exact ⟨hs, rfl⟩
  · rename_i hs
    rw [if_neg hs] at h
    exact absurd rfl h

theorem isCollectionWord_segments {words : List Bytes} (h : isCollectionWord words n = true) :
    inCollections n = true ∧ ∃ top c word, splitRouteSegments n = [top, c, word] ∧ word ∈ words := by
  unfold isCollectionWord at h
  split at h
  · rename_i top c word hs
    have hn := inCollections_of_segments (n := n) (by simp [hs])
    refine ⟨hn.1, top, c, word, hn.2 ▸ hs, ?_⟩
    rw [Bool.and_eq_true] at h
    simpa using h.2
  · cases h

theorem isCollectionChild_segments {words : List Bytes} (h : isCollectionChild words n = true) :
    inCollections n = true ∧
      ∃ top c word item, splitRouteSegments n = [top, c, word, item] ∧ word ∈ words := by
  unfold isCollectionChild at h
  split at h
  · rename_i top c word item hs
    have hn := inCollections_of_segments (n := n) (by simp [hs])
    refine ⟨hn.1, top, c, word, item, hn.2 ▸ hs, ?_⟩
    rw [Bool.and_eq_true] at h
    simpa using h.2
  · cases h

/-- Operations on documents, and documents, stand behind `documents/`. -/
theorem has_documents_of_operation {operations : List Bytes}
    (h : isDocumentOperation operations n = true) :
    inCollections n = true ∧ has n "/documents/" = true := by
  unfold isDocumentOperation at h
  split at h
  · rename_i top c word operation hs
    have hn := inCollections_of_segments (n := n) (by simp [hs])
    simp only [Bool.and_eq_true, beq_iff_eq] at h
    obtain ⟨⟨-, rfl⟩, -⟩ := h
    have hseg : splitRouteSegments n = [top, c] ++ lit "documents" :: [operation] := hn.2 ▸ hs
    exact ⟨hn.1, contains_iff.mpr ((infix_of_segments hseg (by simp)).2 (by simp))⟩
  · cases h

theorem has_documents_of_document (h : isDocument n = true) :
    inCollections n = true ∧ has n "/documents/" = true := by
  unfold isDocument at h
  rw [Bool.and_eq_true] at h
  obtain ⟨hn, top, c, word, item, hs, hword⟩ := isCollectionChild_segments h.1
  obtain rfl := List.mem_singleton.mp hword
  have hseg : splitRouteSegments n = [top, c] ++ lit "documents" :: [item] := hs
  exact ⟨hn, contains_iff.mpr ((infix_of_segments hseg (by simp)).2 (by simp))⟩

theorem has_context (h : isDocumentContext n = true) :
    inCollections n = true ∧ has n "/documents/" = true ∧ has n "/context" = true := by
  unfold isDocumentContext at h
  split at h
  · rename_i top c word item last hs
    have hn := inCollections_of_segments (n := n) (by simp [hs])
    simp only [Bool.and_eq_true, beq_iff_eq] at h
    obtain ⟨⟨-, rfl⟩, rfl⟩ := h
    have hdocs : splitRouteSegments n = [top, c] ++ lit "documents" :: [item, lit "context"] :=
      hn.2 ▸ hs
    have hctx : splitRouteSegments n = [top, c, lit "documents", item] ++ lit "context" :: [] :=
      hn.2 ▸ hs
    exact ⟨hn.1, contains_iff.mpr ((infix_of_segments hdocs (by simp)).2 (by simp)),
      contains_iff.mpr (infix_of_segments hctx (by simp)).1⟩
  · cases h

/-- A path with one word behind the collection holds it, and ends in no other. -/
theorem has_word (other : Bytes) {word : Bytes} (h : isCollectionWord [word] n = true)
    (hne : other ≠ word) (hnil : other ≠ []) (hslash : chr '/' ∉ other) :
    inCollections n = true ∧ contains n (chr '/' :: word) = true ∧
      endsWith n (chr '/' :: other) = false := by
  obtain ⟨hn, top, c, word', hs, hword⟩ := isCollectionWord_segments h
  obtain rfl := List.mem_singleton.mp hword
  have hseg : splitRouteSegments n = [top, c] ++ word' :: [] := hs
  refine ⟨hn, contains_iff.mpr (infix_of_segments hseg (by simp)).1, ?_⟩
  by_contra hend
  have hlast := getLast_segments (by simpa using hend) hnil hslash
  rw [hs] at hlast
  exact hne (by simpa using hlast.symm)

/-! ## Agreement below `/collections/` -/

theorem endsLang_length (hn : inCollections n = true) :
    (decide ((lit "/collections/").length < n.length) && endsWith n (lit "/lang")) =
      endsWith n (lit "/lang") := by
  obtain ⟨t, rfl⟩ := startsWith_iff.mp hn
  cases t with
  | nil => decide
  | cons x t => simp

/-- The actions with a path below `/collections/`, for each method. -/
def collectionActions : Method → List RouteAction
  | .get =>
      [.vectorSearch, .listSynonyms, .getSynonym, .documentSearch, .getCollectionLanguage,
        .getCollection, .listDocuments, .getDocumentContext, .getDocument, .facetCounts,
        .exportDocuments, .maybeSuggest, .listStopwords, .listOverrides, .getOverride, .listAliases]
  | .post =>
      [.vectorSearch, .upsertSynonym, .documentSearch, .updateCollection, .bulkImportDocuments,
        .addDocument, .updateByQuery, .deleteByQuery, .facetCounts, .exportDocuments,
        .maybeSuggest, .createStopword, .upsertOverride]
  | .put => [.upsertSynonym, .updateDocument, .upsertOverride]
  | .delete =>
      [.deleteSynonym, .deleteCollection, .deleteDocument, .deleteDocumentsByFilter,
        .deleteStopword, .deleteOverride]
  | _ => []

/-- What is known of a path below `/collections/` and its normalized path. -/
structure CollectionPath (p n : Bytes) : Prop extends WordFacts p n where
  sent : inCollections p = true
  normalized : inCollections n = true
  lang : (decide ((lit "/collections/").length < n.length) && endsWith n (lit "/lang")) =
    endsWith n (lit "/lang")
  sql : (p == lit "/sql") = false
  aliases : (p == lit "/aliases") = false

theorem collectionPath (hn : inCollections (normalizePath p) = true) :
    CollectionPath p (normalizePath p) where
  toWordFacts := wordFacts p
  sent := startsWith_of_normalized hn
  normalized := hn
  lang := endsLang_length hn
  sql := beq_of_inCollections (startsWith_of_normalized hn) (by decide)
  aliases := beq_of_inCollections (startsWith_of_normalized hn) (by decide)

/-- **Below `/collections/` the chain ends in the handler of the action where they agree.** -/
theorem collectionChain_agrees (ha : action ∈ collectionActions method) (h : CollectionPath p n)
    (hfacts : PathFacts action n)
    (hd : method = .get → (p == lit "/collections/distributed") = false) :
    firstTrue (collectionChain method p n) = dispatchResolvedRoute action ↔
      agreement action method p n = true := by
  obtain ⟨⟨_, _, _, _, _, _, _, _, _, _, _, _, _, _, _, _, _, _, _⟩, hp, hn, hlang, hsql, haliases⟩ := h
  cases method <;> rw [collectionActions] at ha
  all_goals
    fin_cases ha <;> simp only [PathFacts] at hfacts <;>
      simp only [collectionChain, dispatchResolvedRoute, firstTrue_eq_some_iff, agreement, getChain,
        postChain, putChain, deleteChain, picks, reduceCtorEq, if_false, if_true, Bool.and_false,
        Bool.or_false, Bool.and_true, Bool.true_and, Bool.not_false, Bool.false_or, takenBySearch,
        vectorSearchAlias, plainDocument, overrideItem, collectionParts, documentParts,
        curationItems, passesSets, takenBySynonyms, takenByStopwords, lacks_cons, lacks_nil,
        List.any_cons, List.any_nil, passesOperations, documentOperations, passesVectorSearch,
        reachesOverrides, takenByDocuments, namesOverride, namesOverrides, contains_lit, hsql,
        haliases, hp, hn, hd, hlang]
  all_goals
    grind -ring -linarith -lia

example : firstTrue (deleteChain (lit "/collections/docs/documents/1")) = some .deleteDocument := by
  decide +kernel

end Hlquery.Http
