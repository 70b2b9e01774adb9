import Hlquery.Cache.Responses
import Hlquery.Search.Handlers

/-!
# Searches with a response cache

`HandleSearch` resolves the name in the path to a collection, reads the generation of the collection,
looks the request up in the cache, and otherwise searches and stores what it found. Every function
that changes documents or a collection ends with an invalidation of that collection. A search without
a statement is what is modelled: a `SELECT` is never looked up, and no other statement gets that far.

What a search reads of a collection, its documents, its configuration and its index, is one value of
an arbitrary type, and the search itself is a function of the request, the collection and a number
that stands for whatever else decides about an answer, such as the time it took.
-/

set_option autoImplicit false

namespace Hlquery.Cache

open Bytes Http

/-! ## Requests -/

structure SearchRequest where
  method : Bytes
  path : Bytes
  queryParams : ByteMap Bytes
  body : Bytes
  embeddedFilters : Bytes
  apiKeyId : Bytes
  /-- The header `X-HLQ-Distributed-Hop`. -/
  distributedHop : Bytes
  deriving DecidableEq

def SearchRequest.cached (request : SearchRequest) : CachedRequest where
  cacheNamespace := lit "search"
  method := request.method
  path := request.path
  queryParams := request.queryParams
  body := request.body
  embeddedFilters := request.embeddedFilters
  apiKeyId := request.apiKeyId

/-- Two requests ask for the same: their bodies may be written differently. -/
structure SameSearch (platform : Platform) (r r' : SearchRequest) : Prop where
  rest : { r with body := r'.body } = r'
  body : canonicalBody platform r.body = canonicalBody platform r'.body

structure SearchEngine (C : Type) where
  platform : Platform
  /-- The answer to a request that cannot be read. -/
  unreadable : SearchRequest → Option HttpResponse
  /-- The answer to a request that names no collection, or none that there is. -/
  noCollection : Bytes → HttpResponse
  /-- The answer to a request that the checks of its fields refuse. -/
  refused : SearchRequest → Option HttpResponse
  /-- `RequestCacheEnabled`. -/
  requestCacheEnabled : SearchRequest → Bool
  /-- The answer of a search in a collection. -/
  answer : SearchRequest → Bytes → C → Nat → HttpResponse
  /-- Bodies are read as JSON. -/
  answer_same : ∀ {r r' : SearchRequest}, SameSearch platform r r' → answer r = answer r'
  /-- `MarkCached`, which changes the execution trace in a body. -/
  markCached : Bytes → Bytes

def SearchEngine.withoutCache {C : Type} (engine : SearchEngine C) : SearchEngine C :=
  { engine with requestCacheEnabled := fun _ => false }

/-! ## The node -/

/-- A node: what its searches read, the aliases, the cache with its history, and for each key the
request whose answer was last stored under it. -/
structure Node (C : Type) where
  collections : ByteMap C
  aliases : ByteMap Bytes
  history : History
  requests : ByteMap SearchRequest

structure Reply where
  response : HttpResponse
  fromCache : Bool

/-- What a search takes from its surroundings: the time, the settings of the cache, what else decides
about the answer, and whether the execution is traced. -/
structure Circumstances where
  now : Nat
  ttlMS : Nat
  maxSizeBytes : Nat
  chance : Nat
  tracing : Bool

namespace Node

variable {C : Type}

variable (node : Node C)

def catalog : Catalog := ⟨node.collections.keys, node.aliases⟩

def searchedCollection (request : SearchRequest) : Bytes :=
  Search.searchCollection node.catalog request.path none

def start (collections : ByteMap C) (aliases : ByteMap Bytes) : Node C :=
  ⟨collections, aliases, .start, ∅⟩

variable (engine : SearchEngine C)

/-- `HandleSearch` from the lookup on, in a collection that there is. -/
def lookUpOrSearch (circumstances : Circumstances) (request : SearchRequest)
    (collection : Bytes) (content : C) : Node C × Reply :=
  let number := node.history.reads.length
  let history := node.history.step engine.platform (.getGeneration collection)
  let response := engine.answer request collection content circumstances.chance
  if engine.requestCacheEnabled request then
    let key := buildKey engine.platform request.cached
    let looked := history.step engine.platform (.get circumstances.now request.cached collection)
    match (history.cache.get circumstances.now key collection).2 with
    | some cached =>
        let body := if circumstances.tracing then engine.markCached cached.body else cached.body
        ({ node with history := looked }, ⟨{ cached with body }, true⟩)
    | none =>
        let put : Operation := .put circumstances.now request.cached collection response number
        ({ node with
            history := looked.step engine.platform put
            requests := node.requests.insert key request }, ⟨response, false⟩)
  else ({ node with history }, ⟨response, false⟩)

/-- `HandleSearch`. -/
def handleSearch (circumstances : Circumstances) (request : SearchRequest) :
    Node C × Reply :=
  match engine.unreadable request with
  | some error => (node, ⟨error, false⟩)
  | none =>
    let collection := node.searchedCollection request
    match node.collections[collection]? with
    | none => (node, ⟨engine.noCollection collection, false⟩)
    | some content =>
      if collection = [] then (node, ⟨engine.noCollection collection, false⟩)
      else
        let configured := { node with
          history := node.history.step engine.platform
            (.configure circumstances.ttlMS circumstances.maxSizeBytes) }
        match engine.refused request with
        | some error => (configured, ⟨error, false⟩)
        | none => configured.lookUpOrSearch engine circumstances request collection content

/-- The same search could answer with this body if it did not use the cache. -/
def CouldReturn (request : SearchRequest) (body : Bytes) : Prop :=
  ∃ circumstances,
    (node.handleSearch engine.withoutCache circumstances request).2.response.body = body

end Node

/-! ## Runs -/

/-- What happens to a node, each time as a whole. -/
inductive Event (C : Type) where
  /-- A document is written, replaced or deleted, or a collection is created, configured or dropped:
  what there is of it afterwards. The functions of the store end with `InvalidateCollection`. -/
  | change (name : Bytes) (content : Option C)
  /-- `HandleCreateOrUpdateAlias`. -/
  | upsertAlias (name target : Bytes)
  /-- Documents are added to the index of a collection that is being built, or the index has become
  complete. -/
  | indexProgress (name : Bytes) (content : C)
  /-- `FlushAll`. -/
  | flushAll
  /-- The hooks of the modules and of synonyms and stopwords. -/
  | invalidateCollection (name : Bytes)
  | invalidateAll
  | flushExpired (now maxAgeMS : Nat)
  | search (circumstances : Circumstances) (request : SearchRequest)

def Event.invalidates {C : Type} : Event C → Bool
  | .change _ _ | .flushAll | .invalidateCollection _ | .invalidateAll => true
  | _ => false

namespace Node

variable {C : Type} (engine : SearchEngine C)

variable (node : Node C)

def onCache (operation : Operation) : Node C :=
  { node with history := node.history.step engine.platform operation }

/-- The content of a collection afterwards; `none` is a collection that has been dropped. -/
def setContent (name : Bytes) : Option C → Node C
  | none => { node with collections := node.collections.erase name }
  | some content => { node with collections := node.collections.insert name content }

def step : Event C → Node C
  | .change name content =>
      (node.setContent name content).onCache engine (.invalidateCollection name)
  | .upsertAlias name target =>
      -- the collection has to be there, and nothing is invalidated
      if node.collections.contains target then
        { node with aliases := node.aliases.insert name target }
      else node
  | .indexProgress name content =>
      if node.collections.contains name then node.setContent name (some content) else node
  | .flushAll => { node with collections := ∅, aliases := ∅ }.onCache engine .invalidateAll
  | .invalidateCollection name => node.onCache engine (.invalidateCollection name)
  | .invalidateAll => node.onCache engine .invalidateAll
  | .flushExpired now maxAgeMS => node.onCache engine (.flushExpired now maxAgeMS)
  | .search circumstances request => (node.handleSearch engine circumstances request).1

def run (events : List (Event C)) : Node C := events.foldl (step engine) node

/-- The name of a collection or of an alias in a path, if it is a possible one. -/
def namedCollection (path : Bytes) : Option Bytes :=
  (pathCollection (normalizePath path)).filter fun name =>
    !(contains name (lit "..") || contains name (lit "\\")) && validateCollectionNameValue name

/-- The condition on an event. An alias keeps the target it has, or no answer in the cache was stored
for another name than that of its collection; an index moves on while no answer from the collection
is in the cache; and a search finds no answer to another search under its key. -/
def Admits : Event C → Prop
  | .upsertAlias name target =>
      node.aliases[name]? = none ∨ node.aliases[name]? = some target ∨
        ∀ (key : Bytes) (entry : CacheEntry) (request : SearchRequest),
          node.history.cache.entries[key]? = some entry → node.requests[key]? = some request →
            namedCollection request.path = some entry.collection
  | .indexProgress name _ =>
      ∀ (key : Bytes) (entry : CacheEntry),
        node.history.cache.entries[key]? = some entry → entry.collection ≠ name
  | .search _ request =>
      ∀ (entry : CacheEntry) (earlier : SearchRequest),
        node.history.cache.entries[buildKey engine.platform request.cached]? = some entry →
        node.requests[buildKey engine.platform request.cached]? = some earlier →
          SameSearch engine.platform earlier request
  | _ => True

def AllAdmitted : Node C → List (Event C) → Prop
  | _, [] => True
  | node, event :: events => node.Admits engine event ∧ AllAdmitted (node.step engine event) events

end Node

end Hlquery.Cache
