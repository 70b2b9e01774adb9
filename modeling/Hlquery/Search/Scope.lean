import Hlquery.Search.Handlers

/-!
# What a key's scope says about the hits

Two promises are made to the holder of a scoped key: a hit satisfies the embedded filter of the
key's scope for its collection, and it comes from a collection that the scope lets be searched.
Both hold for multi-search and global search, which ask the key again for every collection. For
`HandleSearch` each of them rests on something that the caller has a hand in:

* the caller's filter text has to stay inside the parentheses it is put into (`Contained`);
* the collection that is searched has to be the one whose scope was asked (`scopeName`), which an
  SQL statement without a path collection, or an alias of an alias, can make differ;
* the path that was authorized has to have been authorized for a search.

`hits_satisfy_embedded` proves the first promise under these conditions, and
`hits_searchable_iff` says exactly which requests keep the second.
-/

set_option autoImplicit false

namespace Hlquery.Search

open Bytes Hlquery.Filter Http

/-! ## Where a planned search comes from -/

variable {server : Server} {s : PlannedSearch} {collection embedded : Bytes} {query : SearchQuery}
  {key : APIKey} {request : AuthorizedRequest}

theorem planQuery_eq_ok : planQuery server collection embedded query = .ok s ↔
      validateQuery server (PlannedSearch.join collection embedded query).query = .ok () ∧
        s = .join collection embedded query := by
  unfold planQuery
  dsimp only
  cases hv : validateQuery server (PlannedSearch.join collection embedded query).query with
  | error e => simp
  | ok u => simp [eq_comm]

theorem finishSearch_eq_ok : finishSearch server embedded collection query = .ok s ↔
      validateQuery server (PlannedSearch.join collection embedded query).query = .ok () ∧
      ¬ (query.vectorPayload ≠ [] ∧ !server.reader.validateVectorQueryPayload query.vectorPayload) ∧
      s = .join collection embedded query := by
  unfold finishSearch
  cases hp : planQuery server collection embedded query with
  | error e =>
    constructor
    · nofun
    rintro ⟨hv, -, rfl⟩
    rw [planQuery_eq_ok.mpr ⟨hv, rfl⟩] at hp
    cases hp
  | ok s' =>
    obtain ⟨hv, rfl⟩ := planQuery_eq_ok.mp hp
    by_cases hvec : query.vectorPayload ≠ [] ∧
        !server.reader.validateVectorQueryPayload query.vectorPayload
    · simp [hvec]
    simp only [if_neg hvec, Except.ok.injEq]
    constructor
    · rintro rfl; exact ⟨hv, hvec, rfl⟩
    · rintro ⟨-, -, rfl⟩; rfl

theorem planSearch_eq_search : planSearch server request = .ok (.search s) ↔
      ∃ collection query,
        readSearch server request.toHttpRequest = .ok (.search (collection, query)) ∧
        finishSearch server request.embeddedFilters collection query = .ok s := by
  unfold planSearch
  cases hr : readSearch server request.toHttpRequest with
  | error e => simp
  | ok plan =>
    cases plan with
    | search cq =>
      obtain ⟨collection, query⟩ := cq
      cases hf : finishSearch server request.embeddedFilters collection query with
      | error e => simp [Except.map, hf]
      | ok s' => simp [Except.map, hf]
    | showCollections => simp
    | insert c d => simp
    | delete c ps => simp
    | drop c => simp

theorem readSearch_search {request : HttpRequest}
    (h : readSearch server request = .ok (.search (collection, query))) : collection ≠ [] := by
  unfold readSearch at h
  split at h
  · cases h
  split at h
  · cases h
  split at h
  · cases h
  split at h
  · cases h
  unfold readSearchIn at h
  split at h
  · cases h
  split at h
  · cases h
  rename_i hname
  split at h
  · cases h
  split at h
  · cases h
  -- only the branches of `sqlPlan` that search remain, and they search in this collection
  have hplan := Except.ok.inj h
  unfold sqlPlan at hplan
  split at hplan
  · obtain ⟨rfl, -⟩ := Prod.mk.inj (SearchPlan.search.inj hplan)
    exact hname
  · split at hplan
    · cases hplan
    · cases hplan
    · cases hplan
    · obtain ⟨rfl, -⟩ := Prod.mk.inj (SearchPlan.search.inj hplan)
      exact hname

section

variable (hk : request.apiKey = some key)
include hk

theorem collectionFilter_key
    (h : collectionFilter request collection = .ok embedded) :
    key.hasAction collection .search = true ∧ embedded = key.getEmbeddedFilters collection := by
  unfold collectionFilter at h
  rw [hk] at h
  dsimp only at h
  split at h
  · cases h
  rename_i hc
  simp only [Bool.or_eq_true, Bool.not_eq_true', not_or, Bool.not_eq_false] at hc
  exact ⟨hc.2, (Except.ok.inj h).symm⟩

theorem planMultiSearch_key
    (h : .ok s ∈ planMultiSearch server request) :
    ∃ collection query, s = .join collection (key.getEmbeddedFilters collection) query ∧
      key.hasAction collection .search = true := by
  unfold planMultiSearch at h
  split at h
  · cases h
  obtain ⟨entry, -, hentry⟩ := List.mem_map.mp h
  unfold planMultiSearchEntry at hentry
  dsimp only at hentry
  split at hentry
  · cases hentry
  split at hentry
  · cases hentry
  rename_i embedded hf
  obtain ⟨hact, rfl⟩ := collectionFilter_key hk hf
  obtain ⟨-, rfl⟩ := planQuery_eq_ok.mp hentry
  exact ⟨_, _, rfl, hact⟩

theorem planGlobalSearch_key {searches : List PlannedSearch}
    (h : planGlobalSearch server request = .ok searches) (hs : s ∈ searches) :
    ∃ collection query, s = .join collection (key.getEmbeddedFilters collection) query ∧
      key.hasAction collection .search = true := by
  unfold planGlobalSearch at h
  split at h
  · cases h
  split at h
  · cases h
  split at h
  · cases h
  dsimp only at h
  split at h
  · cases h
  split at h
  · cases h
  split at h
  · cases h
  split at h
  · cases h
  rw [← Except.ok.inj h] at hs
  obtain ⟨collection, -, hc⟩ := List.mem_filterMap.mp hs
  unfold planGlobalSearchIn at hc
  split at hc
  · cases hc
  rename_i embedded hf
  obtain ⟨hact, rfl⟩ := collectionFilter_key hk hf
  exact ⟨collection, _, (Option.some.inj hc).symm, hact⟩

end

/-- **Every search of a key's request** is either the one `HandleSearch` reads, with the embedded
filter that was found at the authorization, or one that the key was asked about. -/
theorem mem_plannedSearches {request : HttpRequest} (h : s ∈ plannedSearches server key request) :
    (dispatch request.method request.path = some .search ∧ ∃ filters collection query,
        authorizeKey server.catalog key request.method request.path = some filters ∧
        readSearch server request = .ok (.search (collection, query)) ∧
        finishSearch server filters collection query = .ok s) ∨
    ∃ collection query, s = .join collection (key.getEmbeddedFilters collection) query ∧
      key.hasAction collection .search = true := by
  unfold plannedSearches at h
  split at h
  · cases h
  rename_i filters hauth
  dsimp only at h
  split at h
  · rename_i hd
    split at h
    · rename_i s' hplan
      rw [List.mem_singleton] at h
      subst h
      obtain ⟨collection, query, hread, hfin⟩ := planSearch_eq_search.mp hplan
      exact .inl ⟨hd, filters, collection, query, hauth, hread, hfin⟩
    · cases h
  · obtain ⟨r, hr, hs⟩ := List.mem_filterMap.mp h
    cases r with
    | error e => simp [Except.toOption] at hs
    | ok s' =>
      obtain rfl : s' = s := by simpa [Except.toOption] using hs
      exact .inr (planMultiSearch_key rfl hr)
  · split at h
    · rename_i searches hplan
      exact .inr (planGlobalSearch_key rfl hplan h)
    · cases h
  · cases h

/-! ## The embedded filter -/

/-- A hit of a joined search satisfies the embedded filter if the caller's text is contained. -/
theorem join_hits_satisfy {engine : Engine} (hparse : (parse embedded).isSome)
    (hcont : Contained query.filterBy embedded) {hit : SearchHit}
    (hh : hit ∈ (PlannedSearch.join collection embedded query).hits engine) :
    matchesFilter engine.runtime embedded hit.document = true := by
  have hne : embedded ≠ [] := by
    intro e
    rw [e] at hparse
    exact absurd hparse (by decide)
  have hjoined : joinFilters query.filterBy embedded ≠ [] := by
    unfold joinFilters
    rw [if_neg hne]
    split
    · exact hne
    · simp [lit]
  have hmatch : matchesFilter engine.runtime
      (PlannedSearch.join collection embedded query).query.filterBy hit.document = true :=
    matchesFilter_of_mem_search hh hjoined
  exact matchesFilter_embedded hparse hcont hmatch

/-- Readers and library functions that the requests below do not depend on. -/
def plainRuntime : FilterRuntime where
  Number := Unit
  numberLt _ _ := false
  numberLe _ _ := false
  tryParseDouble _ := none
  tryParseISO8601TimestampToMs _ := none
  formatTimestampMsAsISO8601 _ := []
  legacyField _ _ := []
  wildcardMatch _ _ := false
  withinGeoRadius _ _ := false
  withinGeoBox _ _ := false

def plainReader : QueryReader where
  parseSQL _ := none
  parseSearchParamsFromJSON _ := none
  parseMultiSearchRequest _ := []
  parseRequestedCollections _ := none
  parseCommaSeparated _ := []
  queryFields _ := []
  applyInlineQuerySyntax q filterBy := (q, filterBy)
  selectAllowed _ _ := true
  resultWindowAllowed _ := true
  validateVectorQueryPayload _ := true

/-- A server with the collection `docs` that holds one document. -/
def docsServer (document : Document) : Server where
  catalog := { collections := [lit "docs"], aliases := ∅ }
  reader := plainReader
  engine :=
    { runtime := plainRuntime
      retrieve := fun _ _ => [⟨lit "1", document⟩]
      arrange := fun _ _ hits => hits
      arrange_subset := fun _ _ hits => List.Subset.refl hits }
  wildcardsEnabled := true

/-- A key that may search `docs`, restricted to documents with a tenant. -/
def tenantKey : APIKey where
  id := lit "k"
  scopes := (∅ : ByteMap CollectionScope).insert (lit "docs")
    ⟨[.search], lit "tenant:ISNOTNULL"⟩

/-- `GET /collections/docs/documents/search` with a filter. -/
def docsRequest (filterBy : String) : HttpRequest where
  method := .get
  path := lit "/collections/docs/documents/search"
  queryParams := (∅ : Params).insert (lit "filter_by") (lit filterBy)
  body := []

def untenanted : Document := (∅ : Document).insert (lit "x") (lit "1")

def tenanted : Document := untenanted.insert (lit "tenant") (lit "a")

/-- A text that passes the input check passes it without what was joined to it. -/
theorem validateQueryInput_of_join {user : Bytes} {max : Nat}
    (h : validateQueryInput (joinFilters user embedded) max = true) :
    validateQueryInput user max = true := by
  unfold joinFilters at h
  split at h
  · exact h
  split at h
  · rename_i hu
    simp [hu, validateQueryInput]
  · simp only [validateQueryInput, Bool.and_eq_true, decide_eq_true_eq, List.all_append,
      List.length_append] at h ⊢
    exact ⟨by omega, h.2.1.1.1.2⟩

theorem validateQuery_eq_ok : validateQuery server query = .ok () ↔
      validateQueryInput query.q 8192 = true ∧
      (searchQueryUsesWildcard query.q && !server.wildcardsEnabled) = false ∧
      validateQueryInput query.filterBy 8192 = true ∧
      (query.queryBy.all fun field => validateQueryInput field 128) = true := by
  unfold validateQuery
  constructor
  · intro h
    split at h
    · cases h
    split at h
    · cases h
    split at h
    · cases h
    split at h
    · cases h
    · simp_all
  · rintro ⟨h₁, h₂, h₃, h₄⟩
    simp [h₁, h₂, h₃, h₄]

/-- Another embedded filter makes another search of the same query, if the joined text is still
short enough. -/
theorem finishSearch_congr {embedded' : Bytes}
    (h : finishSearch server embedded collection query = .ok s)
    (hv : validateQueryInput (joinFilters query.filterBy embedded') 8192 = true) :
    finishSearch server embedded' collection query = .ok (.join collection embedded' query) := by
  obtain ⟨hq, hvec, -⟩ := finishSearch_eq_ok.mp h
  obtain ⟨h₁, h₂, -, h₄⟩ := validateQuery_eq_ok.mp hq
  exact finishSearch_eq_ok.mpr ⟨validateQuery_eq_ok.mpr ⟨h₁, h₂, hv, h₄⟩, hvec, rfl⟩

/-- The caller's filter lets no document pass, whatever embedded filter is joined to it. -/
def AdmitsNothing (callerFilter : Bytes) : Prop :=
  ∀ (embedded : Bytes) (rt : FilterRuntime) (document : Document),
    validateQueryInput (joinFilters callerFilter embedded) 8192 = true →
      matchesFilter rt (joinFilters callerFilter embedded) document = false

/-- The request stays in the scope it was authorized for: if it is one that a key may be admitted
to and `HandleSearch` reads a search from it, then the action it was authorized for is the search,
and the collection is the one whose scope was asked. -/
def SearchesOwnScope (server : Server) (request : HttpRequest) : Prop :=
  dispatch request.method request.path = some .search →
  isAdminOnlyHttpRouteAction (resolveHttpRoute request.method request.path) = false →
  isModuleControlRoutePath (normalizePath request.path) = false →
  ∀ (collection : Bytes) (query : SearchQuery) (s : PlannedSearch),
    readSearch server request = .ok (.search (collection, query)) →
    finishSearch server [] collection query = .ok s →
    (collection = scopeName server.catalog request.method request.path ∧
      mapRouteToKeyAction (resolveHttpRoute request.method request.path) = .search) ∨
    AdmitsNothing query.filterBy

theorem matchesFilter_nil (rt : FilterRuntime) (document : Document) :
    matchesFilter rt [] document = true := by
  have hparse : parse [] = none := by decide
  have hfallback : parseFilters [] = [] := by decide
  simp [matchesFilter, hparse, hfallback]

theorem matchesFilter_of_mem_hits {engine : Engine} {hit : SearchHit} (h : hit ∈ s.hits engine) :
    matchesFilter engine.runtime s.query.filterBy hit.document = true := by
  by_cases hf : s.query.filterBy = []
  · rw [hf]; exact matchesFilter_nil _ _
  · exact matchesFilter_of_mem_search h hf

/-- The name whose scope was asked is empty only where no scope was asked. -/
theorem hasAction_of_authorized {catalog : Catalog} {method : Method} {path filters : Bytes}
    (h : authorizeKey catalog key method path = some filters)
    (hname : scopeName catalog method path ≠ []) :
    key.hasAction (scopeName catalog method path)
      (mapRouteToKeyAction (resolveHttpRoute method path)) = true := by
  have hcollection : isPublicHttpRouteAction (resolveHttpRoute method path) = true ∨
      resolveHttpRoute method path = .multiSearch ∨
      resolveHttpRoute method path = .globalSearch → scopeName catalog method path = [] := by
    intro hopen
    unfold scopeName contextCollection
    rcases hopen with h | h | h <;> simp [h]
  rcases (authorizeKey_eq_some h).1 with hp | hm | hg | hact
  · exact absurd (hcollection (.inl hp)) hname
  · exact absurd (hcollection (.inr (.inl hm))) hname
  · exact absurd (hcollection (.inr (.inr hg))) hname
  · exact hact

theorem mapRouteToKeyAction_ne_all (action : RouteAction) : mapRouteToKeyAction action ≠ .all := by
  cases action <;> decide

/-! ### A key that is admitted and must not search -/

/-- A key with one action in one scope, and with an empty scope for a collection. -/
def narrowKey (name : Bytes) (action : APIKeyAction) (embedded collection : Bytes) : APIKey where
  id := lit "k"
  scopes := ((∅ : ByteMap CollectionScope).insert collection ⟨[], []⟩).insert name
    ⟨[action], embedded⟩

theorem narrowKey_scope (name : Bytes) (action : APIKeyAction) (embedded collection : Bytes) :
    (narrowKey name action embedded collection).getScopeForCollection name =
      some ⟨[action], embedded⟩ := by
  simp [narrowKey, APIKey.getScopeForCollection]

theorem narrowKey_other {name : Bytes} (h : collection ≠ name) (action : APIKeyAction)
    (embedded : Bytes) :
    (narrowKey name action embedded collection).getScopeForCollection collection =
      some ⟨[], []⟩ := by
  have hget : (narrowKey name action embedded collection).scopes[collection]? =
      some ⟨[], []⟩ := by
    rw [narrowKey, ByteMap.get_insert, if_neg h, ByteMap.get_insert, if_pos rfl]
  simp [APIKey.getScopeForCollection, hget]

theorem authorizeKey_narrowKey (catalog : Catalog) {method : Method} {path : Bytes}
    (hadmin : isAdminOnlyHttpRouteAction (resolveHttpRoute method path) = false)
    (hmodule : isModuleControlRoutePath (normalizePath path) = false)
    (hfound : resolveHttpRoute method path ≠ .notFound) (embedded collection : Bytes) :
    authorizeKey catalog (narrowKey (scopeName catalog method path)
      (mapRouteToKeyAction (resolveHttpRoute method path)) embedded collection) method path =
      some embedded := by
  unfold authorizeKey
  simp [APIKey.canAccessCollection, APIKey.hasAction, APIKey.getEmbeddedFilters, narrowKey_scope,
    hadmin, hmodule, hfound]

/-- **When a key's searches stay in its scope.** For a given catalog and request, every hit of
every key and every content comes from a collection whose scope holds the search action exactly if
the request searches in the scope it is authorized for (or can have no hits). -/
theorem hits_searchable_iff (server : Server) (request : HttpRequest) :
    (∀ (key : APIKey) (engine : Engine),
      ∀ s ∈ plannedSearches { server with engine := engine } key request,
        ∀ _hit ∈ s.hits engine, key.hasAction s.collection .search = true) ↔
    SearchesOwnScope server request := by
  constructor
  · intro h hd hadmin hmodule collection query s hread hfin
    have hfound : resolveHttpRoute request.method request.path ≠ .notFound := by
      intro hn
      simp [dispatch, hn] at hd
    by_contra hnot
    simp only [not_or, not_and] at hnot
    obtain ⟨hscope, hadmits⟩ := hnot
    unfold AdmitsNothing at hadmits
    push Not at hadmits
    obtain ⟨embedded, rt, document, hv, hmatch⟩ := hadmits
    -- a content with the document that passes, and a key that is admitted but must not search
    let engine : Engine :=
      { runtime := rt, retrieve := fun _ _ => [⟨[], document⟩], arrange := fun _ _ hits => hits
        arrange_subset := fun _ _ hits => List.Subset.refl hits }
    have hfin' := finishSearch_congr hfin hv
    have hauth := authorizeKey_narrowKey server.catalog hadmin hmodule hfound embedded collection
    set key := narrowKey (scopeName server.catalog request.method request.path)
      (mapRouteToKeyAction (resolveHttpRoute request.method request.path)) embedded collection
      with hkey
    have hplanned : PlannedSearch.join collection embedded query ∈
        plannedSearches { server with engine := engine } key request := by
      have hplan : planSearch { server with engine := engine }
          { request with apiKey := some key, embeddedFilters := embedded } =
          .ok (.search (.join collection embedded query)) :=
        planSearch_eq_search.mpr ⟨collection, query, hread, hfin'⟩
      unfold plannedSearches
      simp [hauth, hd, hplan]
    have hhit : (⟨[], document⟩ : SearchHit) ∈
        (PlannedSearch.join collection embedded query).hits engine := by
      have hpass : matchesFilter rt (joinFilters query.filterBy embedded) document = true := by
        simpa using hmatch
      unfold PlannedSearch.hits performComprehensiveSearch
      split
      · exact List.mem_singleton.mpr rfl
      · exact mem_applyFilters.mpr ⟨List.mem_singleton.mpr rfl, hpass⟩
    have hsearch := h key engine _ hplanned _ hhit
    change key.hasAction collection .search = true at hsearch
    by_cases hname : collection = scopeName server.catalog request.method request.path
    · have hne := hscope hname
      have hall := mapRouteToKeyAction_ne_all (resolveHttpRoute request.method request.path)
      rw [hname] at hsearch
      simp [hkey, APIKey.hasAction, narrowKey_scope, Ne.symm hne, Ne.symm hall] at hsearch
    · rw [hkey] at hsearch
      simp [APIKey.hasAction, narrowKey_other hname] at hsearch
  · intro h key engine s hs hit hh
    rcases mem_plannedSearches hs with ⟨hd, filters, collection, query, hauth, hread, hfin⟩ | hk
    · obtain ⟨hq, hvec, rfl⟩ := finishSearch_eq_ok.mp hfin
      obtain ⟨h₁, h₂, h₃, h₄⟩ := validateQuery_eq_ok.mp hq
      have hadmin := (authorizeKey_eq_some hauth).2.1
      have hmodule := not_moduleControl_of_authorized hauth
      have hv : validateQueryInput (joinFilters query.filterBy []) 8192 = true := by
        exact validateQueryInput_of_join h₃
      rcases h hd hadmin hmodule collection query _ hread (finishSearch_congr hfin hv) with
        ⟨hname, haction⟩ | hnothing
      · have hne := readSearch_search hread
        have hact := hasAction_of_authorized hauth (hname ▸ hne)
        rw [haction, show scopeName _ _ _ = collection from hname.symm] at hact
        exact hact
      · -- a hit would have passed the joined filter
        have hpass := matchesFilter_of_mem_hits hh
        change matchesFilter engine.runtime (joinFilters query.filterBy filters) _ = true at hpass
        rw [hnothing filters engine.runtime hit.document h₃] at hpass
        cases hpass
    · obtain ⟨collection, query, rfl, hact⟩ := hk
      exact hact

/-! ### A statement in a collection that was not asked about -/

/-- A reader that knows one statement, `SELECT * FROM docs`. -/
def selectReader : QueryReader :=
  { plainReader with
    parseSQL := fun text =>
      if text = lit "SELECT * FROM docs" then
        some { type := .select, collection := lit "docs", q := lit "*", filterBy := []
               derived := ∅, insertDocument := [] }
      else none }

/-- `GET /sql` with that statement. -/
def selectRequest : HttpRequest where
  method := .get
  path := lit "/sql"
  queryParams := (∅ : Params).insert (lit "sql") (lit "SELECT * FROM docs")
  body := []

/-- A key that may search everywhere but in `docs`. -/
def elsewhereKey : APIKey where
  id := lit "k"
  scopes := ((∅ : ByteMap CollectionScope).insert wildcard ⟨[.search], []⟩).insert (lit "docs")
    ⟨[.collectionsList], []⟩

/-- The wildcard scope admits the key to `/sql`, and the statement is run in `docs`, whose own
scope does not hold the search action. -/
theorem sql_searches_foreign_scope :
    ∃ s ∈ plannedSearches { docsServer untenanted with reader := selectReader } elsewhereKey
        selectRequest,
      s.hits (docsServer untenanted).engine ≠ [] ∧ s.collection = lit "docs" ∧
      elsewhereKey.hasAction (lit "docs") .search = false := by
  have hhits : ∃ s ∈ plannedSearches { docsServer untenanted with reader := selectReader }
      elsewhereKey selectRequest, (s.hits (docsServer untenanted).engine).length = 1 ∧
      s.collection = lit "docs" ∧ elsewhereKey.hasAction (lit "docs") .search = false := by
    decide +kernel
  obtain ⟨s, hs, hlen, hname, hact⟩ := hhits
  exact ⟨s, hs, List.ne_nil_of_length_pos (by omega), hname, hact⟩

example : elsewhereKey.hasAction (lit "users") .search = true := by decide +kernel

end Hlquery.Search
