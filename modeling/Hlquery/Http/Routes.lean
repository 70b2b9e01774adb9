import Hlquery.Lib.Scan

/-!
# The route table

`ResolveHttpRoute` maps the method and the path of a request to a `RouteAction`. The authorization
of a request is decided from that action (`MapRouteToKeyAction`, the public and the admin-only
actions), so the table is the first half of every access decision.

The resolver is a lookup in the catalog of exact paths followed by a sequence of tests, each of
which returns an action. The sequence is written here as a list of rules in the order of the
source; the first rule whose method and test fit decides. A test sees the normalized path: the
text before a `?`, without one trailing slash.
-/

set_option autoImplicit false

namespace Hlquery.Http

open Bytes

/-! ## Requests -/

/-- The request methods that the server compares with; any other text is `other`. -/
inductive Method where
  | get | post | put | delete | patch | options | other
  deriving DecidableEq, Repr

/-- `NormalizeRoutePath`, which is also `NormalizeRequestPath` and `NormalizePathForExtraction`:
the text before a `?`, without one trailing slash. -/
def normalizePath (path : Bytes) : Bytes :=
  let path := path.takeWhile (· != chr '?')
  if 1 < path.length ∧ path.getLast? = some (chr '/') then path.dropLast else path

/-- `SplitRouteSegments`: the non-empty parts between slashes. -/
def splitRouteSegments (path : Bytes) : List Bytes :=
  (path.splitOn (chr '/')).filter (· ≠ [])

/-! ## Actions -/

/-- `RouteAction`. -/
inductive RouteAction where
  | status | searchConfig | configFiles | health | ready | ping | stats | metrics
  | metricsHistory | cache | connections | rocksDB | docTotal | flush | updateCounters
  | debugCounters | repair | startup | integrity | selfCheck | storageStatus | storageDiagnostics
  | durabilityBarrier | etc | root | listCollections | listCollectionsDistributed
  | createCollection | getCollection | getCollectionLanguage | updateCollection
  | deleteCollection | documentSearch | vectorSearch | multiSearch | globalSearch | listDocuments
  | getDocument | getDocumentContext | addDocument | bulkImportDocuments | updateDocument
  | deleteDocument | deleteDocumentsByFilter | updateByQuery | deleteByQuery | facetCounts
  | exportDocuments | maybeSuggest | listSynonyms | listAllSynonyms | upsertSynonym | getSynonym
  | deleteSynonym | listGlobalSynonyms | upsertGlobalSynonym | getGlobalSynonym
  | deleteGlobalSynonym | listStopwords | listAllStopwords | createStopword | deleteStopword
  | listGlobalStopwords | createGlobalStopword | deleteGlobalStopword | listOverrides
  | upsertOverride | getOverride | deleteOverride | listAliases | upsertAlias | getAlias
  | deleteAlias | linksList | linksPing | linksConnect | linksDisconnect | listUsers | createUser
  | getUser | updateUser | deleteUser | listKeys | createKey | getKey | updateKey | deleteKey
  | listPresets | upsertPreset | getPreset | deletePreset | analyticsClick | listModules
  | getModuleSyntax | moduleLoad | moduleUnload | moduleAPI | notFound
  deriving DecidableEq, Repr

/-- The part of `HttpRouteDescription` that routing reads: paths without a placeholder. -/
structure ExactRoute where
  action : RouteAction
  methods : List Method
  paths : List Bytes

/-- The exact paths of `GetHttpRouteDescriptions`. -/
def exactRoutes : List ExactRoute :=
  [⟨.status, [.get], [lit "/", lit "/status", lit "/query"]⟩,
    ⟨.searchConfig, [.get], [lit "/search-config"]⟩,
    ⟨.configFiles, [.get], [lit "/config-files"]⟩,
    ⟨.health, [.get], [lit "/health"]⟩,
    ⟨.ready, [.get], [lit "/ready"]⟩,
    ⟨.ping, [.get], [lit "/ping"]⟩,
    ⟨.stats, [.get], [lit "/stats"]⟩,
    ⟨.metrics, [.get], [lit "/metrics", lit "/metrics.json"]⟩,
    ⟨.metricsHistory, [.get], [lit "/metrics-history", lit "/metrics/history"]⟩,
    ⟨.cache, [.get], [lit "/cache"]⟩,
    ⟨.connections, [.get], [lit "/connections"]⟩,
    ⟨.rocksDB, [.get], [lit "/rocksdb", lit "/_rocksdb"]⟩,
    ⟨.docTotal, [.get], [lit "/doctotal"]⟩,
    ⟨.flush, [.post], [lit "/flush"]⟩,
    ⟨.updateCounters, [.get, .post], [lit "/update-counters"]⟩,
    ⟨.debugCounters, [.get], [lit "/debug/counters"]⟩,
    ⟨.repair, [.get, .post], [lit "/repair"]⟩,
    ⟨.startup, [.get], [lit "/startup", lit "/boot-status"]⟩,
    ⟨.integrity, [.get], [lit "/integrity", lit "/consistency"]⟩,
    ⟨.selfCheck, [.get], [lit "/self-check"]⟩,
    ⟨.storageStatus, [.get], [lit "/admin/storage_status"]⟩,
    ⟨.storageDiagnostics, [.get], [lit "/_diagnostics/storage"]⟩,
    ⟨.durabilityBarrier, [.post], [lit "/_admin/storage/durability-barrier"]⟩,
    ⟨.etc, [.get], [lit "/etc"]⟩,
    ⟨.listCollections, [.get], [lit "/collections"]⟩,
    ⟨.listCollectionsDistributed, [.get], [lit "/collections/distributed"]⟩,
    ⟨.createCollection, [.post], [lit "/collections"]⟩,
    ⟨.documentSearch, [.get, .post], [lit "/sql"]⟩,
    ⟨.multiSearch, [.get, .post], [lit "/multi_search"]⟩,
    ⟨.globalSearch, [.get, .post], [lit "/search"]⟩,
    ⟨.listAllSynonyms, [.get], [lit "/synonyms", lit "/synonym_sets"]⟩,
    ⟨.listGlobalSynonyms, [.get], [lit "/synonyms/global", lit "/synonym_sets/global"]⟩,
    ⟨.listAllStopwords, [.get], [lit "/stopwords", lit "/stopword_sets"]⟩,
    ⟨.listGlobalStopwords, [.get], [lit "/stopwords/global", lit "/stopword_sets/global"]⟩,
    ⟨.createGlobalStopword, [.post], [lit "/stopwords/global", lit "/stopword_sets/global"]⟩,
    ⟨.listAliases, [.get], [lit "/aliases"]⟩,
    ⟨.linksList, [.get], [lit "/links"]⟩,
    ⟨.linksPing, [.get], [lit "/links/ping"]⟩,
    ⟨.linksConnect, [.post], [lit "/links/connect"]⟩,
    ⟨.linksDisconnect, [.post], [lit "/links/disconnect"]⟩,
    ⟨.listUsers, [.get], [lit "/users"]⟩,
    ⟨.createUser, [.post], [lit "/users"]⟩,
    ⟨.listKeys, [.get], [lit "/keys"]⟩,
    ⟨.createKey, [.post], [lit "/keys"]⟩,
    ⟨.listPresets, [.get], [lit "/presets"]⟩,
    ⟨.analyticsClick, [.post], [lit "/analytics/click"]⟩,
    ⟨.listModules, [.get], [lit "/modules"]⟩,
    ⟨.moduleLoad, [.post], [lit "/loadmodule", lit "/modules/load"]⟩,
    ⟨.moduleUnload, [.post], [lit "/unloadmodule", lit "/modules/unload"]⟩]

/-- `ResolveExactRoute`. A later description overwrites an earlier one in the source's map. -/
def resolveExactRoute (path : Bytes) (method : Method) : RouteAction :=
  match exactRoutes.reverse.find? fun r => r.methods.contains method && r.paths.contains path with
  | some r => r.action
  | none => .notFound

/-! ## The tests of the resolver -/

/-- `PrefixRoute` with a required suffix. -/
def prefixRoute (pre : Bytes) (path : Bytes) : Bool :=
  startsWith path pre && decide (pre.length < path.length)

/-- `SingleChildRoute`: one more segment behind the prefix. -/
def singleChildRoute (pre : Bytes) (path : Bytes) : Bool :=
  prefixRoute pre path && !(path.drop pre.length).contains (chr '/')

/-- `CollectionRouteInfo::Segments`: those of a path below `/collections/`, else none. -/
def collectionSegments (path : Bytes) : List Bytes :=
  if startsWith path (lit "/collections/") then splitRouteSegments path else []

/-- `IsCollectionRoot`. -/
def isCollectionRoot (path : Bytes) : Bool :=
  match collectionSegments path with
  | [top, _] => top == lit "collections"
  | _ => false

/-- A path `/collections/{collection}/{word}`: the `Is…Root` tests, `IsCollectionLang`,
`IsCollectionUpdate` and `IsVectorSearchAlias`. -/
def isCollectionWord (words : List Bytes) (path : Bytes) : Bool :=
  match collectionSegments path with
  | [top, _, word] => top == lit "collections" && words.contains word
  | _ => false

/-- A path `/collections/{collection}/{word}/{id}`: the `Is…Child` tests at four segments. -/
def isCollectionChild (words : List Bytes) (path : Bytes) : Bool :=
  match collectionSegments path with
  | [top, _, word, _] => top == lit "collections" && words.contains word
  | _ => false

/-- A path `/collections/{collection}/documents/{operation}`. -/
def isDocumentOperation (operations : List Bytes) (path : Bytes) : Bool :=
  match collectionSegments path with
  | [top, _, word, operation] =>
      top == lit "collections" && word == lit "documents" && operations.contains operation
  | _ => false

/-- `IsDocumentContext`. -/
def isDocumentContext (path : Bytes) : Bool :=
  match collectionSegments path with
  | [top, _, word, _, last] =>
      top == lit "collections" && word == lit "documents" && last == lit "context"
  | _ => false

/-- `IsReservedDocumentOperation`. -/
def reservedOperations : List Bytes :=
  [lit "search", lit "import", lit "facet_counts", lit "export", lit "maybe",
    lit "_update_by_query", lit "_delete_by_query"]

/-- A document: a child of `documents` that is no reserved operation. -/
def isDocument (path : Bytes) : Bool :=
  isCollectionChild [lit "documents"] path && !isDocumentOperation reservedOperations path

def synonymWords : List Bytes := [lit "synonyms", lit "synonym_sets"]

def stopwordWords : List Bytes := [lit "stopwords", lit "stopword_sets"]

def overrideWords : List Bytes := [lit "overrides", lit "curations", lit "curation_sets"]

/-- The items of a global set: `prefix` and four segments in all. -/
def isGlobalItem (pre : Bytes) (path : Bytes) : Bool :=
  prefixRoute pre path && decide ((splitRouteSegments path).length = 4)

def isModuleSyntax (path : Bytes) : Bool :=
  prefixRoute (lit "/modules/") path &&
    match splitRouteSegments path with
    | [_, _, word] => word == lit "syntax"
    | _ => false

/-! ## The resolver -/

/-- One `if` of the resolver. -/
structure RouteRule where
  methods : List Method
  test : Bytes → Bool
  action : RouteAction

/-- The `if`s of `ResolveHttpRoute`, in order. -/
def routeRules : List RouteRule :=
  [⟨[.post], singleChildRoute (lit "/loadmodule/"), .moduleLoad⟩,
    ⟨[.post], singleChildRoute (lit "/unloadmodule/"), .moduleUnload⟩,
    ⟨[.get], isModuleSyntax, .getModuleSyntax⟩,
    ⟨[.post], singleChildRoute (lit "/modules/load/"), .moduleLoad⟩,
    -- two segments behind `/modules/load/`, or none, are refused rather than passed to a module
    ⟨[.post], fun p => startsWith p (lit "/modules/load/"), .notFound⟩,
    ⟨[.post], singleChildRoute (lit "/modules/unload/"), .moduleUnload⟩,
    ⟨[.post], fun p => startsWith p (lit "/modules/unload/"), .notFound⟩,
    ⟨[.get, .post, .put, .delete, .patch], prefixRoute (lit "/modules/"), .moduleAPI⟩,
    ⟨[.post, .put], singleChildRoute (lit "/synonyms/global/"), .upsertGlobalSynonym⟩,
    ⟨[.post, .put], singleChildRoute (lit "/synonym_sets/global/"), .upsertGlobalSynonym⟩,
    ⟨[.post, .put], isGlobalItem (lit "/synonym_sets/global/items/"), .upsertGlobalSynonym⟩,
    ⟨[.get], singleChildRoute (lit "/synonyms/global/"), .getGlobalSynonym⟩,
    ⟨[.get], singleChildRoute (lit "/synonym_sets/global/"), .getGlobalSynonym⟩,
    ⟨[.get], isGlobalItem (lit "/synonym_sets/global/items/"), .getGlobalSynonym⟩,
    ⟨[.delete], singleChildRoute (lit "/synonyms/global/"), .deleteGlobalSynonym⟩,
    ⟨[.delete], singleChildRoute (lit "/synonym_sets/global/"), .deleteGlobalSynonym⟩,
    ⟨[.delete], isGlobalItem (lit "/synonym_sets/global/items/"), .deleteGlobalSynonym⟩,
    ⟨[.delete], singleChildRoute (lit "/stopwords/global/"), .deleteGlobalStopword⟩,
    ⟨[.delete], singleChildRoute (lit "/stopword_sets/global/"), .deleteGlobalStopword⟩,
    ⟨[.delete], isGlobalItem (lit "/stopword_sets/global/items/"), .deleteGlobalStopword⟩,
    ⟨[.get], isCollectionWord [lit "aliases"], .listAliases⟩,
    ⟨[.get, .post], isCollectionWord [lit "vector_search", lit "search"], .vectorSearch⟩,
    ⟨[.get], isCollectionWord synonymWords, .listSynonyms⟩,
    ⟨[.post, .put], isCollectionChild synonymWords, .upsertSynonym⟩,
    ⟨[.get], isCollectionChild synonymWords, .getSynonym⟩,
    ⟨[.delete], isCollectionChild synonymWords, .deleteSynonym⟩,
    ⟨[.get, .post], isDocumentOperation [lit "search"], .documentSearch⟩,
    ⟨[.get], isCollectionWord [lit "lang"], .getCollectionLanguage⟩,
    ⟨[.get], isCollectionRoot, .getCollection⟩,
    ⟨[.delete], isCollectionRoot, .deleteCollection⟩,
    ⟨[.post], isCollectionWord [lit "update"], .updateCollection⟩,
    ⟨[.get], isCollectionWord [lit "documents"], .listDocuments⟩,
    ⟨[.get], isDocumentContext, .getDocumentContext⟩,
    ⟨[.get], isDocument, .getDocument⟩,
    ⟨[.post], isDocumentOperation [lit "import"], .bulkImportDocuments⟩,
    ⟨[.post], isCollectionWord [lit "documents"], .addDocument⟩,
    ⟨[.put], isDocument, .updateDocument⟩,
    ⟨[.delete], isDocument, .deleteDocument⟩,
    ⟨[.delete], isCollectionWord [lit "documents"], .deleteDocumentsByFilter⟩,
    ⟨[.post], isDocumentOperation [lit "_update_by_query"], .updateByQuery⟩,
    ⟨[.post], isDocumentOperation [lit "_delete_by_query"], .deleteByQuery⟩,
    ⟨[.get, .post], isDocumentOperation [lit "facet_counts"], .facetCounts⟩,
    ⟨[.get, .post], isDocumentOperation [lit "export"], .exportDocuments⟩,
    ⟨[.get, .post], isDocumentOperation [lit "maybe"], .maybeSuggest⟩,
    ⟨[.get], isCollectionWord stopwordWords, .listStopwords⟩,
    ⟨[.post], isCollectionWord stopwordWords, .createStopword⟩,
    ⟨[.delete], isCollectionChild stopwordWords, .deleteStopword⟩,
    ⟨[.get], isCollectionWord overrideWords, .listOverrides⟩,
    ⟨[.post, .put], isCollectionChild overrideWords, .upsertOverride⟩,
    ⟨[.get], isCollectionChild overrideWords, .getOverride⟩,
    ⟨[.delete], isCollectionChild overrideWords, .deleteOverride⟩,
    ⟨[.post, .put], singleChildRoute (lit "/aliases/"), .upsertAlias⟩,
    ⟨[.get], singleChildRoute (lit "/aliases/"), .getAlias⟩,
    ⟨[.delete], singleChildRoute (lit "/aliases/"), .deleteAlias⟩,
    ⟨[.get], singleChildRoute (lit "/users/"), .getUser⟩,
    ⟨[.delete], singleChildRoute (lit "/users/"), .deleteUser⟩,
    ⟨[.put], singleChildRoute (lit "/users/"), .updateUser⟩,
    ⟨[.get], singleChildRoute (lit "/keys/"), .getKey⟩,
    ⟨[.delete], singleChildRoute (lit "/keys/"), .deleteKey⟩,
    ⟨[.put], singleChildRoute (lit "/keys/"), .updateKey⟩,
    ⟨[.post, .put], singleChildRoute (lit "/presets/"), .upsertPreset⟩,
    ⟨[.get], singleChildRoute (lit "/presets/"), .getPreset⟩,
    ⟨[.delete], singleChildRoute (lit "/presets/"), .deletePreset⟩]

/-- `ResolveHttpRoute`. -/
def resolveHttpRoute (method : Method) (path : Bytes) : RouteAction :=
  let path := normalizePath path
  match resolveExactRoute path method with
  | .notFound =>
    match routeRules.find? fun r => r.methods.contains method && r.test path with
    | some r => r.action
    | none => .notFound
  | action => action

/-! ## What an action allows -/

/-- `IsPublicHttpRouteAction`. -/
def isPublicHttpRouteAction : RouteAction → Bool
  | .health | .ready | .status | .searchConfig | .ping | .linksList | .linksPing | .etc => true
  | _ => false

/-- `IsAdminOnlyHttpRouteAction`. -/
def isAdminOnlyHttpRouteAction : RouteAction → Bool
  | .listKeys | .createKey | .getKey | .deleteKey | .updateKey | .configFiles | .listPresets
  | .upsertPreset | .getPreset | .deletePreset | .listUsers | .createUser | .getUser
  | .deleteUser | .updateUser | .linksConnect | .linksDisconnect | .flush | .repair | .cache
  | .moduleLoad | .moduleUnload | .storageStatus | .storageDiagnostics
  | .durabilityBarrier => true
  | _ => false

/-- `IsModuleControlRoutePath`. -/
def isModuleControlRoutePath (path : Bytes) : Bool :=
  [lit "/loadmodule", lit "/unloadmodule", lit "/modules/load", lit "/modules/unload"].any
    fun word => path == word || startsWith path (word ++ lit "/")

end Hlquery.Http
