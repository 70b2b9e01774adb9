import Hlquery.Filter.Evaluate
import Hlquery.Http.Authorize
import Hlquery.Http.Dispatch

/-!
# The search handlers

`HandleSearch`, `HandleMultiSearch` and `HandleGlobalSearch`, up to the point where the local
search runs. Each of them finds the collections it is about, checks the parameters, joins the
embedded filter of the key to the filter of the caller, and hands collection and query to
`PerformComprehensiveSearch`. The three are modelled as that plan: a `PlannedSearch` is one call
of `PerformComprehensiveSearch`, with the caller's filter text kept beside the query it went into.

Reading JSON and SQL is not modelled: `QueryReader` names the functions the handlers call. The
retrieval, ranking, grouping and pagination of hits are in `Engine`, of which only two things are
used: that hits are filtered as `ApplyFilters` says, and that what comes after the filter adds
none. Executions on other nodes and the response cache are left out; the handlers answer from
local data here.
-/

set_option autoImplicit false

namespace Hlquery.Search

open Bytes Hlquery.Filter Http

abbrev Params := ByteMap Bytes

/-- `HttpRequest`, as parsed. -/
structure HttpRequest where
  method : Method
  path : Bytes
  queryParams : Params
  body : Bytes

/-- A request as a handler sees it: with the key found for `APIKeyID`, if there is one, and with
`EmbeddedFilters`. -/
structure AuthorizedRequest extends HttpRequest where
  apiKey : Option APIKey
  embeddedFilters : Bytes

/-- The fields of `ComprehensiveSearchQuery` that the handlers read, and all parameters for those
that only the engine reads. -/
structure SearchQuery where
  q : Bytes
  filterBy : Bytes
  queryBy : List Bytes
  vectorPayload : Bytes
  params : Params

/-! ## SQL -/

/-- `SQLTranslationResult::StatementType`. -/
inductive StatementType where
  | unknown | select | insert | delete | update | drop | showCollections
  deriving DecidableEq, Repr

/-- `SQLTranslationResult`: what the handlers read of a valid translation. `derived` are the
parameters other than `q` and `filter_by` that the statement sets. -/
structure SQLTranslation where
  type : StatementType
  collection : Bytes
  q : Bytes
  filterBy : Bytes
  derived : Params
  insertDocument : Bytes

structure QueryReader where
  /-- `SQLService::Parse`; `none` is a translation that is not valid. -/
  parseSQL : Bytes → Option SQLTranslation
  /-- `ParseSearchParamsFromJSON`; `none` is the exception. -/
  parseSearchParamsFromJSON : Bytes → Option Params
  /-- `ParseMultiSearchRequest`. -/
  parseMultiSearchRequest : Bytes → List (Bytes × SearchQuery)
  /-- The collections that the body of a global search names, `none` for a malformed body. -/
  parseRequestedCollections : Bytes → Option (List Bytes)
  /-- `ParseCommaSeparated`. -/
  parseCommaSeparated : Bytes → List Bytes
  /-- The `query_by` fields. -/
  queryFields : Params → List Bytes
  /-- `ApplyInlineQuerySyntax`: the query text and the filter after ranges in the text have been
  moved to the filter. -/
  applyInlineQuerySyntax : Bytes → Bytes → Bytes × Bytes
  /-- The checks of `ValidateSQLExecutionPolicy` on the fields and aggregates of a select. -/
  selectAllowed : Bytes → SQLTranslation → Bool
  /-- The window of a global search is within its bounds. -/
  resultWindowAllowed : Params → Bool
  /-- `ValidateVectorQueryPayload`. -/
  validateVectorQueryPayload : Bytes → Bool

inductive SearchError where
  | methodNotAllowed | invalidJSON | invalidSQL | collectionMismatch | sqlPolicy
  | invalidCollectionName | collectionNotFound | collectionNotAllowed | invalidQuery
  | wildcardDisabled | invalidParameter | invalidVectorQuery
  deriving DecidableEq, Repr

/-! ## The engine -/

structure Engine where
  runtime : FilterRuntime
  /-- The raw hits of a collection: lexical, vector or hybrid retrieval. -/
  retrieve : Bytes → SearchQuery → List SearchHit
  /-- Weighting, sorting, grouping, pagination: a choice among the hits. -/
  arrange : Bytes → SearchQuery → List SearchHit → List SearchHit
  arrange_subset : ∀ collection query hits, arrange collection query hits ⊆ hits

/-- `PerformComprehensiveSearch`. -/
def performComprehensiveSearch (engine : Engine) (collection : Bytes) (query : SearchQuery) :
    List SearchHit :=
  let hits := engine.retrieve collection query
  let hits := if query.filterBy = [] then hits else applyFilters engine.runtime hits query.filterBy
  engine.arrange collection query hits

theorem matchesFilter_of_mem_search {engine : Engine} {collection : Bytes} {query : SearchQuery}
    {hit : SearchHit} (h : hit ∈ performComprehensiveSearch engine collection query)
    (hf : query.filterBy ≠ []) :
    matchesFilter engine.runtime query.filterBy hit.document = true := by
  have hmem := engine.arrange_subset _ _ _ h
  rw [if_neg hf] at hmem
  exact (mem_applyFilters.mp hmem).2

structure Server where
  catalog : Catalog
  reader : QueryReader
  engine : Engine
  /-- `indexing.enable_wildcards`. -/
  wildcardsEnabled : Bool

/-! ## Parameters -/

def param (params : Params) (name : String) : Bytes := (params[lit name]?).getD []

variable (reader : QueryReader)

/-- `ParseComprehensiveSearchQuery`, for the fields kept. -/
def parseComprehensiveSearchQuery (params : Params) : SearchQuery :=
  let geo (name : String) (filterBy : Bytes) : Bytes :=
    match params[lit name]? with
    | none => filterBy
    | some args => joinFilters filterBy (lit "_" ++ lit name ++ lit "(" ++ args ++ lit ")")
  let filterBy := geo "geo_box" (geo "geo_radius" (param params "filter_by"))
  let (q, filterBy) := reader.applyInlineQuerySyntax (param params "q") filterBy
  { q := q, filterBy := filterBy, queryBy := reader.queryFields params
    vectorPayload :=
      if param params "vector_query" ≠ [] then param params "vector_query"
      else param params "embedding"
    params := params }

/-- `ValidateQueryInput`: not too long, and no control characters. -/
def validateQueryInput (value : Bytes) (maxBytes : Nat) : Bool :=
  decide (value.length ≤ maxBytes) && value.all fun b => 32 ≤ b && b != 127

/-- `SearchQueryUsesWildcard`. -/
def searchQueryUsesWildcard (q : Bytes) : Bool := contains q (lit "*") || contains q (lit "?")

variable (server : Server)

def validateQuery (query : SearchQuery) : Except SearchError Unit :=
  if !validateQueryInput query.q 8192 then .error .invalidQuery
  else if searchQueryUsesWildcard query.q && !server.wildcardsEnabled then .error .wildcardDisabled
  else if !validateQueryInput query.filterBy 8192 then .error .invalidParameter
  else if !(query.queryBy.all fun field => validateQueryInput field 128) then
    .error .invalidParameter
  else .ok ()

/-- The parameters that a select or delete statement replaces. -/
def replacedParams : List Bytes :=
  [lit "q", lit "query_by", lit "filter_by", lit "sort_by", lit "include_fields", lit "limit",
    lit "offset", lit "page", lit "per_page", lit "group_by", lit "group_limit",
    lit "aggregations"]

/-- `ApplySQLSearchParams`: the statement in `sql` or `exec`, if there is one, and the parameters
with what it sets. -/
def applySQLSearchParams (params : Params) (pathCollection : Bytes) :
    Except SearchError (Option SQLTranslation × Params) :=
  let text := if param params "sql" ≠ [] then param params "sql" else param params "exec"
  if text = [] then .ok (none, params)
  else
    match reader.parseSQL text with
    | none => .error .invalidSQL
    | some sql =>
      if pathCollection ≠ [] ∧ sql.collection ≠ [] ∧ sql.collection ≠ pathCollection then
        .error .collectionMismatch
      else if sql.type = .insert ∨ sql.type = .update ∨ sql.type = .drop ∨
          sql.type = .showCollections then
        .ok (some sql, params)
      else
        let params := params.filter fun name _ => !replacedParams.contains name
        let params := params.insert (lit "q") (if sql.q = [] then lit "*" else sql.q)
        let params :=
          if sql.filterBy = [] then params else params.insert (lit "filter_by") sql.filterBy
        .ok (some sql, sql.derived.foldl (fun ps name value => ps.insert name value) params)

/-- The statement part of `ValidateSQLExecutionPolicy`: writes only on `/sql` itself. -/
def sqlTypeAllowed (path : Bytes) (type : StatementType) : Bool :=
  if path = lit "/sql" then type != .unknown else type == .select

/-! ## `HandleSearch` -/

/-- One call of `PerformComprehensiveSearch`. -/
structure PlannedSearch where
  collection : Bytes
  /-- The filter before the embedded one is joined. -/
  callerFilter : Bytes
  /-- The embedded filter that is joined. -/
  embedded : Bytes
  query : SearchQuery

def PlannedSearch.hits (engine : Engine) (s : PlannedSearch) : List SearchHit :=
  performComprehensiveSearch engine s.collection s.query

def PlannedSearch.join (collection embedded : Bytes) (query : SearchQuery) : PlannedSearch :=
  { collection := collection, callerFilter := query.filterBy, embedded := embedded
    query := { query with filterBy := joinFilters query.filterBy embedded } }

def planQuery (collection embedded : Bytes) (query : SearchQuery) :
    Except SearchError PlannedSearch :=
  let s := PlannedSearch.join collection embedded query
  match validateQuery server s.query with
  | .error e => .error e
  | .ok () => .ok s

/-- What `HandleSearch` goes on to do. The three writes are delegated to the handlers of the
document and collection routes. -/
inductive SearchPlan (σ : Type) where
  | search (s : σ)
  | showCollections
  | insert (collection document : Bytes)
  | delete (collection : Bytes) (params : Params)
  | drop (collection : Bytes)

def requestParams (request : HttpRequest) : Except SearchError Params :=
  if request.method = .get then .ok request.queryParams
  else
    match reader.parseSearchParamsFromJSON request.body with
    | none => .error .invalidJSON
    | some body => .ok (body.foldl (fun ps name value => ps.insert name value) request.queryParams)

/-- The collection `HandleSearch` works on: the path's, else the statement's, resolved. The
path's name has been resolved once already. -/
def searchCollection (catalog : Catalog) (path : Bytes) (sql : Option SQLTranslation) : Bytes :=
  let name := extractCollectionFromPath catalog path
  catalog.resolveCollectionName
    (if name = [] then (sql.map SQLTranslation.collection).getD [] else name)

/-- What a statement asks for in its collection; without a statement it is a search. -/
def sqlPlan (sql : Option SQLTranslation) (collection : Bytes) (params : Params)
    (query : SearchQuery) : SearchPlan (Bytes × SearchQuery) :=
  match sql with
  | none => .search (collection, query)
  | some t =>
    match t.type with
    | .insert => .insert collection t.insertDocument
    | .delete => .delete collection params
    | .drop => .drop collection
    | _ => .search (collection, query)

/-- `HandleSearch` once its collection is known, up to the embedded filter. -/
def readSearchIn (sql : Option SQLTranslation) (params : Params)
    (collection : Bytes) : Except SearchError (SearchPlan (Bytes × SearchQuery)) :=
  if (sql.map SQLTranslation.type) = some .showCollections then .ok .showCollections
  else if collection = [] then .error .invalidCollectionName
  else if !server.catalog.collectionExists collection then .error .collectionNotFound
  else if !(sql.all fun t => t.type != .select || server.reader.selectAllowed collection t) then
    .error .sqlPolicy
  else
    .ok (sqlPlan sql collection params (parseComprehensiveSearchQuery server.reader params))

/-- `HandleSearch` up to the embedded filter. -/
def readSearch (request : HttpRequest) :
    Except SearchError (SearchPlan (Bytes × SearchQuery)) :=
  if request.method ≠ .get ∧ request.method ≠ .post then .error .methodNotAllowed
  else
    match requestParams server.reader request with
    | .error e => .error e
    | .ok params =>
      match applySQLSearchParams server.reader params
          (extractCollectionFromPath server.catalog request.path) with
      | .error e => .error e
      | .ok (sql, params) =>
        if !(sql.all fun t => sqlTypeAllowed request.path t.type) then .error .sqlPolicy
        else readSearchIn server sql params (searchCollection server.catalog request.path sql)

def finishSearch (embedded collection : Bytes) (query : SearchQuery) :
    Except SearchError PlannedSearch :=
  match planQuery server collection embedded query with
  | .error e => .error e
  | .ok s =>
    if query.vectorPayload ≠ [] ∧
        !server.reader.validateVectorQueryPayload query.vectorPayload then
      .error .invalidVectorQuery
    else .ok s

variable (request : AuthorizedRequest)

/-- `HandleSearch`. -/
def planSearch :
    Except SearchError (SearchPlan PlannedSearch) :=
  match readSearch server request.toHttpRequest with
  | .error e => .error e
  | .ok (.search (collection, query)) =>
      (finishSearch server request.embeddedFilters collection query).map .search
  | .ok .showCollections => .ok .showCollections
  | .ok (.insert collection document) => .ok (.insert collection document)
  | .ok (.delete collection params) => .ok (.delete collection params)
  | .ok (.drop collection) => .ok (.drop collection)

/-! ## `HandleMultiSearch` and `HandleGlobalSearch` -/

/-- The embedded filter for one collection of a request, or the refusal of the key. A request
without a key has the filter it came with. -/
def collectionFilter (collection : Bytes) :
    Except SearchError Bytes :=
  match request.apiKey with
  | none => .ok request.embeddedFilters
  | some key =>
      if !key.canAccessCollection collection || !key.hasAction collection .search then
        .error .collectionNotAllowed
      else .ok (key.getEmbeddedFilters collection)

/-- One entry of `HandleMultiSearch`. -/
def planMultiSearchEntry
    (entry : Bytes × SearchQuery) : Except SearchError PlannedSearch :=
  let collection := server.catalog.resolveCollectionName entry.1
  if collection = [] ∨ !server.catalog.collectionExists collection then .error .collectionNotFound
  else
    match collectionFilter request collection with
    | .error e => .error e
    | .ok embedded => planQuery server collection embedded entry.2

/-- `HandleMultiSearch`: one result for each entry. -/
def planMultiSearch :
    List (Except SearchError PlannedSearch) :=
  if request.method ≠ .get ∧ request.method ≠ .post then []
  else
    (server.reader.parseMultiSearchRequest request.body).map (planMultiSearchEntry server request)

def globalParams (request : HttpRequest) :
    Except SearchError (Params × List Bytes) :=
  if request.method = .get then
    let listed := reader.parseCommaSeparated (param request.queryParams "collections")
    let single := param request.queryParams "collection"
    .ok (request.queryParams,
      if listed ≠ [] then listed else if single ≠ [] then [single] else [])
  else
    match reader.parseSearchParamsFromJSON request.body,
        reader.parseRequestedCollections request.body with
    | some params, some requested => .ok (params, requested)
    | _, _ => .error .invalidJSON

def selectsAll (name : Bytes) : Bool :=
  let selector := toLower (((name.dropWhile isSpace).reverse.dropWhile isSpace).reverse)
  selector == lit "*" || selector == lit "all"

def requestedCollections (params : Params) (requested : List Bytes)
    (sqlCollection : Bytes) : List Bytes :=
  let sqlNames := if sqlCollection = [] then [] else [sqlCollection]
  let listed := reader.parseCommaSeparated (param params "collections")
  let single := param params "collection"
  let requested :=
    if requested ≠ [] then requested
    else if listed ≠ [] then listed
    else if single ≠ [] then [single]
    else sqlNames
  if requested.any selectsAll then sqlNames else requested

/-- `TargetCollections`: each requested collection once, if there is one of that name. -/
def targetCollections (catalog : Catalog) (requested : List Bytes) : List Bytes :=
  if requested = [] then catalog.collections
  else (requested.filter fun name => name ≠ [] ∧ catalog.collectionExists name).eraseDups

/-- One collection of `HandleGlobalSearch`; a collection that the key does not allow is passed
over. -/
def planGlobalSearchIn (query : SearchQuery) (collection : Bytes) :
    Option PlannedSearch :=
  match collectionFilter request collection with
  | .error _ => none
  | .ok embedded => some (.join collection embedded query)

/-- `HandleGlobalSearch`. The caller's query is checked before the embedded filter is joined. -/
def planGlobalSearch :
    Except SearchError (List PlannedSearch) :=
  if request.method ≠ .get ∧ request.method ≠ .post then .error .methodNotAllowed
  else
    match globalParams server.reader request.toHttpRequest with
    | .error e => .error e
    | .ok (params, named) =>
      match applySQLSearchParams server.reader params [] with
      | .error e => .error e
      | .ok (sql, params) =>
        let requested := requestedCollections server.reader params named
          ((sql.map SQLTranslation.collection).getD [])
        let targets := targetCollections server.catalog requested
        if targets = [] then .error .collectionNotFound
        else
          let query := parseComprehensiveSearchQuery server.reader params
          if !server.reader.resultWindowAllowed params then .error .invalidParameter
          else
            match validateQuery server query with
            | .error e => .error e
            | .ok () =>
              match targets.filterMap (planGlobalSearchIn request query) with
              | [] => .error .collectionNotFound
              | searches => .ok searches

/-! ## The request of a key -/

def plannedSearches (key : APIKey) (request : HttpRequest) :
    List PlannedSearch :=
  match authorizeKey server.catalog key request.method request.path with
  | none => []
  | some filters =>
    let request := { request with apiKey := some key, embeddedFilters := filters }
    match dispatch request.method request.path with
    | some .search =>
      match planSearch server request with
      | .ok (.search s) => [s]
      | _ => []
    | some .multiSearch => (planMultiSearch server request).filterMap Except.toOption
    | some .globalSearch =>
      match planGlobalSearch server request with
      | .ok searches => searches
      | .error _ => []
    | _ => []

end Hlquery.Search
