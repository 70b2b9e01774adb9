import Hlquery.Http.Routes

/-!
# The two dispatchers

Once a request has an action, the server has to find the handler to run. `DispatchResolvedRoute`
is a plain map from actions to handlers. `ProcessSingleRequest` calls it for twelve actions only;
for all others it runs a chain of tests on the text of the path that predates the resolver. The
chain is two `if` chains in a row: the first (users, keys, presets) looks at the normalized path,
the second mostly at the path as it was sent. Both may assign the response, so the second wins.

The chain is written as a list of rules like the resolver's, with the sent path and the normalized
path as arguments of each test.
-/

set_option autoImplicit false

namespace Hlquery.Http

open Bytes

/-- The request handlers of `SearchAPI`, without their common `Handle`. -/
inductive Handler where
  | status | searchConfig | configFiles | linksList | linksPing | linksConnect | linksDisconnect
  | startup | integrity | selfCheck | listAllSynonyms | listGlobalSynonyms | health | ready
  | ping | stats | metrics | metricsHistory | cache | connections | rocksDB | docTotal
  | updateCounters | debugCounters | repair | storageStatus | storageDiagnostics
  | durabilityBarrier | listCollections | listCollectionsDistributed | createCollection
  | updateCollection | vectorSearch | search | getCollection | getCollectionLanguage
  | deleteCollection | flush | etc | listUsers | createUser | getUser | deleteUser | updateUser
  | listDocuments | getDocument | getDocumentContext | addDocument | bulkImportDocuments
  | updateDocument | deleteDocument | deleteDocumentsByFilter | updateByQuery | deleteByQuery
  | facetCounts | exportDocuments | maybe | listSynonyms | createOrUpdateSynonym | getSynonym
  | deleteSynonym | createOrUpdateGlobalSynonym | getGlobalSynonym | deleteGlobalSynonym
  | listAllStopwords | listGlobalStopwords | listStopwords | createStopword
  | createGlobalStopword | deleteStopword | deleteGlobalStopword | listOverrides
  | createOrUpdateOverride | getOverride | deleteOverride | listAliases | createOrUpdateAlias
  | getAlias | deleteAlias | multiSearch | globalSearch | listKeys | createKey | getKey
  | deleteKey | updateKey | listPresets | createOrUpdatePreset | getPreset | deletePreset
  | analyticsClick | listModules | moduleSyntax | moduleLoad | moduleUnload | moduleAPI
  deriving DecidableEq, Repr

/-- `DispatchResolvedRoute`; `none` is the not-found response. -/
def dispatchResolvedRoute : RouteAction → Option Handler
  | .status => some .status
  | .searchConfig => some .searchConfig
  | .configFiles => some .configFiles
  | .linksList => some .linksList
  | .linksPing => some .linksPing
  | .linksConnect => some .linksConnect
  | .linksDisconnect => some .linksDisconnect
  | .startup => some .startup
  | .integrity => some .integrity
  | .selfCheck => some .selfCheck
  | .listAllSynonyms => some .listAllSynonyms
  | .listGlobalSynonyms => some .listGlobalSynonyms
  | .health => some .health
  | .ready => some .ready
  | .ping => some .ping
  | .stats => some .stats
  | .metrics => some .metrics
  | .metricsHistory => some .metricsHistory
  | .cache => some .cache
  | .connections => some .connections
  | .rocksDB => some .rocksDB
  | .docTotal => some .docTotal
  | .updateCounters => some .updateCounters
  | .debugCounters => some .debugCounters
  | .repair => some .repair
  | .storageStatus => some .storageStatus
  | .storageDiagnostics => some .storageDiagnostics
  | .durabilityBarrier => some .durabilityBarrier
  | .listCollections => some .listCollections
  | .listCollectionsDistributed => some .listCollectionsDistributed
  | .createCollection => some .createCollection
  | .updateCollection => some .updateCollection
  | .vectorSearch => some .vectorSearch
  | .documentSearch => some .search
  | .getCollection => some .getCollection
  | .getCollectionLanguage => some .getCollectionLanguage
  | .deleteCollection => some .deleteCollection
  | .flush => some .flush
  | .etc => some .etc
  | .listUsers => some .listUsers
  | .createUser => some .createUser
  | .getUser => some .getUser
  | .deleteUser => some .deleteUser
  | .updateUser => some .updateUser
  | .listDocuments => some .listDocuments
  | .getDocument => some .getDocument
  | .getDocumentContext => some .getDocumentContext
  | .addDocument => some .addDocument
  | .bulkImportDocuments => some .bulkImportDocuments
  | .updateDocument => some .updateDocument
  | .deleteDocument => some .deleteDocument
  | .deleteDocumentsByFilter => some .deleteDocumentsByFilter
  | .updateByQuery => some .updateByQuery
  | .deleteByQuery => some .deleteByQuery
  | .facetCounts => some .facetCounts
  | .exportDocuments => some .exportDocuments
  | .maybeSuggest => some .maybe
  | .listSynonyms => some .listSynonyms
  | .upsertSynonym => some .createOrUpdateSynonym
  | .getSynonym => some .getSynonym
  | .deleteSynonym => some .deleteSynonym
  | .upsertGlobalSynonym => some .createOrUpdateGlobalSynonym
  | .getGlobalSynonym => some .getGlobalSynonym
  | .deleteGlobalSynonym => some .deleteGlobalSynonym
  | .listAllStopwords => some .listAllStopwords
  | .listGlobalStopwords => some .listGlobalStopwords
  | .listStopwords => some .listStopwords
  | .createStopword => some .createStopword
  | .createGlobalStopword => some .createGlobalStopword
  | .deleteStopword => some .deleteStopword
  | .deleteGlobalStopword => some .deleteGlobalStopword
  | .listOverrides => some .listOverrides
  | .upsertOverride => some .createOrUpdateOverride
  | .getOverride => some .getOverride
  | .deleteOverride => some .deleteOverride
  | .listAliases => some .listAliases
  | .upsertAlias => some .createOrUpdateAlias
  | .getAlias => some .getAlias
  | .deleteAlias => some .deleteAlias
  | .multiSearch => some .multiSearch
  | .globalSearch => some .globalSearch
  | .listKeys => some .listKeys
  | .createKey => some .createKey
  | .getKey => some .getKey
  | .deleteKey => some .deleteKey
  | .updateKey => some .updateKey
  | .listPresets => some .listPresets
  | .upsertPreset => some .createOrUpdatePreset
  | .getPreset => some .getPreset
  | .deletePreset => some .deletePreset
  | .analyticsClick => some .analyticsClick
  | .listModules => some .listModules
  | .getModuleSyntax => some .moduleSyntax
  | .moduleLoad => some .moduleLoad
  | .moduleUnload => some .moduleUnload
  | .moduleAPI => some .moduleAPI
  | .root => some .status
  | .notFound => none

/-- The actions for which `ProcessSingleRequest` calls `DispatchResolvedRoute`. -/
def isCentrallyDispatched : RouteAction → Bool
  | .ping | .connections | .rocksDB | .startup | .integrity | .selfCheck | .flush
  | .metricsHistory | .cache | .debugCounters | .etc | .analyticsClick => true
  | _ => false

/-! ## The path dispatcher -/

/-- One `if` of the path dispatcher, on the sent and on the normalized path. -/
structure PathRule where
  methods : List Method
  test : Bytes → Bytes → Bool
  handler : Handler

def PathRule.applies (rule : PathRule) (method : Method) (path : Bytes) : Bool :=
  rule.methods.contains method && rule.test path (normalizePath path)

def allMethods : List Method := [.get, .post, .put, .delete, .patch, .options, .other]

/-- `Request.Path.find("/collections/") == 0`. -/
def inCollections (p : Bytes) : Bool := startsWith p (lit "/collections/")

/-- `s.rfind(word) == s.size() - word.size()`. -/
def endsWith (s word : Bytes) : Bool := startsWith s.reverse word.reverse

def lacks (p : Bytes) (words : List Bytes) : Bool := words.all fun word => !contains p word

/-- `VectorSearchAlias`. -/
def vectorSearchAlias (n : Bytes) : Bool :=
  inCollections n && lacks n [lit "/documents"] && endsWith n (lit "/search")

def collectionParts : List Bytes :=
  [lit "/documents", lit "/synonyms", lit "/stopwords", lit "/overrides", lit "/curations",
    lit "/curation_sets", lit "/aliases"]

/-- The words that keep a path below `documents` from being taken for a document. -/
def documentParts : List Bytes :=
  [lit "/search", lit "/facet_counts", lit "/export", lit "/maybe"]

def synonymItem (p : Bytes) : Bool := inCollections p && contains p (lit "/synonyms/")

/-- A path that ends at the synonyms or stopwords word, or goes on without a slash. -/
def wordWithoutItem (word item : Bytes) (p : Bytes) : Bool :=
  inCollections p && contains p word && lacks p [item]

/-- A path below `documents` with none of the reserved words. -/
def plainDocument (p : Bytes) : Bool :=
  inCollections p && contains p (lit "/documents/") && lacks p documentParts

def globalItem (sets : List Bytes) (p : Bytes) : Bool := sets.any fun pre => startsWith p pre

def overrideItem (words : List Bytes) (p : Bytes) : Bool :=
  inCollections p && words.any fun word => contains p word

def accountRules : List PathRule :=
  [⟨[.get], fun _ n => n == lit "/users", .listUsers⟩,
    ⟨[.post], fun _ n => n == lit "/users", .createUser⟩,
    ⟨[.get], fun _ n => startsWith n (lit "/users/"), .getUser⟩,
    ⟨[.delete], fun _ n => startsWith n (lit "/users/"), .deleteUser⟩,
    ⟨[.put], fun _ n => startsWith n (lit "/users/"), .updateUser⟩,
    ⟨[.get], fun _ n => n == lit "/keys", .listKeys⟩,
    ⟨[.post], fun _ n => n == lit "/keys", .createKey⟩,
    ⟨[.get], fun _ n => startsWith n (lit "/keys/"), .getKey⟩,
    ⟨[.delete], fun _ n => startsWith n (lit "/keys/"), .deleteKey⟩,
    ⟨[.put], fun _ n => startsWith n (lit "/keys/"), .updateKey⟩,
    ⟨[.get], fun _ n => n == lit "/presets", .listPresets⟩,
    ⟨[.post, .put], fun _ n => startsWith n (lit "/presets/"), .createOrUpdatePreset⟩,
    ⟨[.get], fun _ n => startsWith n (lit "/presets/"), .getPreset⟩,
    ⟨[.delete], fun _ n => startsWith n (lit "/presets/"), .deletePreset⟩]

def synonymSets : List Bytes := [lit "/synonyms/global/", lit "/synonym_sets/global/"]

def stopwordSets : List Bytes := [lit "/stopwords/global/", lit "/stopword_sets/global/"]

def curationItems : List Bytes := [lit "/curations/", lit "/curation_sets/"]

def pathRules : List PathRule :=
  [⟨[.post, .put], fun p _ => synonymItem p && contains p (lit "/synonyms"),
      .createOrUpdateSynonym⟩,
    ⟨[.get], fun p _ => wordWithoutItem (lit "/synonyms") (lit "/synonyms/") p, .listSynonyms⟩,
    ⟨[.get], fun p _ => synonymItem p, .getSynonym⟩,
    ⟨[.delete], fun p _ => synonymItem p, .deleteSynonym⟩,
    ⟨[.get], fun p _ => wordWithoutItem (lit "/stopwords") (lit "/stopwords/") p, .listStopwords⟩,
    ⟨[.post], fun p _ => wordWithoutItem (lit "/stopwords") (lit "/stopwords/") p,
      .createStopword⟩,
    ⟨[.delete], fun p _ => inCollections p && contains p (lit "/stopwords/"), .deleteStopword⟩,
    ⟨[.get, .post], fun p _ => inCollections p && contains p (lit "/documents/search"), .search⟩,
    ⟨[.get, .post], fun p _ => p == lit "/sql", .search⟩,
    ⟨[.get, .post], fun p n => inCollections p && contains n (lit "/search") &&
      lacks n [lit "/documents", lit "/synonyms", lit "/stopwords"], .search⟩,
    ⟨[.get, .post], fun p _ => inCollections p && contains p (lit "/documents/facet_counts"),
      .facetCounts⟩,
    ⟨[.get, .post], fun p _ => inCollections p && contains p (lit "/documents/maybe"), .maybe⟩,
    ⟨[.get], fun p _ => inCollections p && contains p (lit "/documents/") &&
      contains p (lit "/context"), .getDocumentContext⟩,
    ⟨[.get, .post], fun p _ => inCollections p && contains p (lit "/documents/export"),
      .exportDocuments⟩,
    -- a POST below `documents` adds a document unless it is an import
    ⟨[.post], fun p _ => inCollections p && contains p (lit "/documents") &&
      contains p (lit "/documents/import"), .bulkImportDocuments⟩,
    ⟨[.post], fun p _ => inCollections p && contains p (lit "/documents"), .addDocument⟩,
    ⟨[.get], fun p _ => p == lit "/status" || p == lit "/query", .status⟩,
    ⟨[.get], fun p _ => p == lit "/search-config", .searchConfig⟩,
    ⟨[.get], fun p _ => p == lit "/config-files", .configFiles⟩,
    ⟨[.get], fun p _ => p == lit "/synonyms", .listAllSynonyms⟩,
    ⟨[.get], fun p _ => p == lit "/synonym_sets", .listAllSynonyms⟩,
    ⟨[.get], fun p _ => p == lit "/synonyms/global" || p == lit "/synonym_sets/global",
      .listGlobalSynonyms⟩,
    ⟨[.post, .put], fun p _ => globalItem synonymSets p, .createOrUpdateGlobalSynonym⟩,
    ⟨[.get], fun p _ => globalItem synonymSets p, .getGlobalSynonym⟩,
    ⟨[.delete], fun p _ => globalItem synonymSets p, .deleteGlobalSynonym⟩,
    ⟨[.get], fun p _ => p == lit "/stopwords", .listAllStopwords⟩,
    ⟨[.get], fun p _ => p == lit "/stopword_sets", .listAllStopwords⟩,
    ⟨[.get], fun p _ => p == lit "/stopwords/global" || p == lit "/stopword_sets/global",
      .listGlobalStopwords⟩,
    ⟨[.post], fun p _ => p == lit "/stopwords/global" || p == lit "/stopword_sets/global",
      .createGlobalStopword⟩,
    ⟨[.delete], fun p _ => globalItem stopwordSets p, .deleteGlobalStopword⟩,
    ⟨[.get], fun p _ => p == lit "/links", .linksList⟩,
    ⟨[.get], fun p _ => p == lit "/links/ping", .linksPing⟩,
    ⟨[.post], fun p _ => p == lit "/links/connect", .linksConnect⟩,
    ⟨[.post], fun p _ => p == lit "/links/disconnect", .linksDisconnect⟩,
    ⟨[.get], fun p _ => p == lit "/collections/distributed", .listCollectionsDistributed⟩,
    ⟨[.get], fun p _ => p == lit "/collections", .listCollections⟩,
    ⟨[.post], fun p _ => p == lit "/collections", .createCollection⟩,
    ⟨[.get], fun p _ => p == lit "/admin/storage_status", .storageStatus⟩,
    ⟨[.get], fun p _ => p == lit "/_diagnostics/storage", .storageDiagnostics⟩,
    ⟨[.post], fun p _ => p == lit "/_admin/storage/durability-barrier", .durabilityBarrier⟩,
    ⟨[.get, .post], fun p n => inCollections p &&
      (contains p (lit "/vector_search") || vectorSearchAlias n), .vectorSearch⟩,
    ⟨[.get], fun p n => inCollections p && decide ((lit "/collections/").length < n.length) &&
      endsWith n (lit "/lang"), .getCollectionLanguage⟩,
    ⟨[.get], fun p n => inCollections p && lacks n [lit "/search"] && lacks p collectionParts,
      .getCollection⟩,
    ⟨[.delete], fun p _ => inCollections p && lacks p collectionParts, .deleteCollection⟩,
    ⟨[.post], fun p _ => inCollections p && contains p (lit "/update"), .updateCollection⟩,
    ⟨[.get], fun p _ => inCollections p && contains p (lit "/documents") &&
      lacks p [lit "/documents/", lit "/search", lit "/facet_counts", lit "/export",
        lit "/import"], .listDocuments⟩,
    ⟨[.get], fun p _ => plainDocument p, .getDocument⟩,
    ⟨[.put], fun p _ => plainDocument p, .updateDocument⟩,
    ⟨[.delete], fun p _ => plainDocument p, .deleteDocument⟩,
    ⟨[.delete], fun p _ => wordWithoutItem (lit "/documents") (lit "/documents/") p,
      .deleteDocumentsByFilter⟩,
    ⟨[.get, .post], fun p _ => p == lit "/multi_search", .multiSearch⟩,
    ⟨[.get, .post], fun p _ => p == lit "/search", .globalSearch⟩,
    ⟨[.get], fun p _ => wordWithoutItem (lit "/overrides") (lit "/overrides/") p, .listOverrides⟩,
    ⟨[.get], fun p _ => overrideItem [lit "/curations", lit "/curation_sets"] p &&
      lacks p curationItems, .listOverrides⟩,
    ⟨[.post, .put], fun p _ => overrideItem [lit "/overrides/"] p, .createOrUpdateOverride⟩,
    ⟨[.post, .put], fun p _ => overrideItem curationItems p, .createOrUpdateOverride⟩,
    ⟨[.get], fun p _ => overrideItem [lit "/overrides/"] p, .getOverride⟩,
    ⟨[.get], fun p _ => overrideItem curationItems p, .getOverride⟩,
    ⟨[.delete], fun p _ => overrideItem [lit "/overrides/"] p, .deleteOverride⟩,
    ⟨[.delete], fun p _ => overrideItem curationItems p, .deleteOverride⟩,
    ⟨[.get], fun p n => inCollections p && endsWith n (lit "/aliases"), .listAliases⟩,
    ⟨[.get], fun p _ => p == lit "/aliases", .listAliases⟩,
    ⟨[.get], fun p _ => p == lit "/modules", .listModules⟩,
    ⟨[.get], fun p n => startsWith p (lit "/modules/") && endsWith n (lit "/syntax"),
      .moduleSyntax⟩,
    ⟨allMethods, fun p _ => startsWith p (lit "/modules/"), .moduleAPI⟩,
    ⟨[.post, .put], fun p _ => startsWith p (lit "/aliases/"), .createOrUpdateAlias⟩,
    ⟨[.get], fun p _ => startsWith p (lit "/aliases/"), .getAlias⟩,
    ⟨[.delete], fun p _ => startsWith p (lit "/aliases/"), .deleteAlias⟩,
    ⟨[.get], fun p _ => p == lit "/health", .health⟩,
    ⟨[.get], fun p _ => p == lit "/ready", .ready⟩,
    ⟨[.get], fun p _ => p == lit "/metrics" || p == lit "/metrics.json", .metrics⟩,
    ⟨[.get], fun p _ => p == lit "/stats", .stats⟩,
    ⟨[.get], fun p _ => p == lit "/doctotal", .docTotal⟩,
    ⟨[.get, .post], fun p _ => p == lit "/update-counters", .updateCounters⟩,
    ⟨[.get, .post], fun p _ => p == lit "/repair", .repair⟩,
    ⟨[.get], fun p _ => p == lit "/admin/storage_status", .storageStatus⟩,
    ⟨[.get], fun p _ => p == lit "/", .status⟩]

def firstHandler (rules : List PathRule) (method : Method) (path : Bytes) : Option Handler :=
  (rules.find? fun rule => rule.applies method path).map PathRule.handler

/-- The path dispatcher; `none` is the not-found response prepared before the chains. -/
def dispatchPath (method : Method) (path : Bytes) : Option Handler :=
  (firstHandler pathRules method path).or (firstHandler accountRules method path)

/-- The handler that `ProcessSingleRequest` runs for a request with an action. -/
def dispatch (method : Method) (path : Bytes) : Option Handler :=
  let action := resolveHttpRoute method path
  if action = .notFound then none
  else if isCentrallyDispatched action then dispatchResolvedRoute action
  else dispatchPath method path

end Hlquery.Http
