import Hlquery.Lib.ByteMap

/-!
# The cache of search responses

A search that has been answered is kept under a key made of its request, and a later search with the
same key is answered from the cache as long as the entry is young and nothing has been changed since.
Whether something has been changed is told by generations: a clock counts the invalidations, an
invalidation of a collection writes the new reading of the clock down for that collection and for
`*`, an invalidation of everything writes it down as the epoch, and the generation of a collection is
the larger of the two. An entry keeps the generation that its collection had when it was stored.

Every function of the source takes the lock first, so that an operation here is one atomic step; what
it reads before the lock, the time and the request, is an argument. All counters are `uint64_t` and
wrap around.
-/

set_option autoImplicit false

namespace Hlquery.Cache

open Bytes

abbrev KeySet := Std.ExtTreeSet Bytes compare

/-- What the cache is compiled with: `parse(Body).dump()`, which may throw, and
`sizeof(CacheEntry)`. -/
structure Platform where
  parseDump : Bytes → Option Bytes
  sizeofEntry : Nat

/-! ## Requests and responses -/

/-- The fields of a request that its key is made of, with the namespace it is cached in. -/
structure CachedRequest where
  cacheNamespace : Bytes
  method : Bytes
  path : Bytes
  queryParams : ByteMap Bytes
  body : Bytes
  embeddedFilters : Bytes
  apiKeyId : Bytes

structure HttpResponse where
  statusCode : Int
  statusText : Bytes
  headers : ByteMap Bytes
  body : Bytes
  deriving DecidableEq

def canonicalParams (params : ByteMap Bytes) : Bytes :=
  params.toList.foldl (fun result entry =>
    (if result = [] then result else result ++ lit "&") ++ entry.1 ++ lit "=" ++ entry.2) []

def canonicalBody (platform : Platform) (body : Bytes) : Bytes :=
  if body = [] then body else (platform.parseDump body).getD body

def buildKey (platform : Platform) (request : CachedRequest) : Bytes :=
  request.cacheNamespace ++ lit "\n" ++
    request.method ++ lit "\n" ++
    request.path ++ lit "\n" ++
    canonicalParams request.queryParams ++ lit "\n" ++
    canonicalBody platform request.body ++ lit "\n" ++
    request.embeddedFilters ++ lit "\n" ++
    request.apiKeyId

def estimateEntrySize (platform : Platform) (key : Bytes) (response : HttpResponse) : Nat :=
  let size := key.length + response.body.length + response.statusText.length
  response.headers.toList.foldl (fun size header => size + (header.1.length + header.2.length)) size +
    platform.sizeofEntry

/-- `Response.Headers["X-HLQ-Cache"] = mark`. -/
def HttpResponse.marked (response : HttpResponse) (mark : Bytes) : HttpResponse :=
  { response with headers := response.headers.insert (lit "X-HLQ-Cache") mark }

/-! ## The state -/

structure CacheEntry where
  response : HttpResponse
  collection : Bytes
  createdMS : Nat
  globalEpoch : Nat
  collectionGeneration : Nat
  orderSequence : Nat
  sizeBytes : Nat

structure ResponseCache where
  entries : ByteMap CacheEntry
  entryOrder : List (Bytes × Nat)
  keysByCollection : ByteMap KeySet
  globalEpoch : Nat
  mutationClock : Nat
  orderClock : Nat
  collectionGenerations : ByteMap Nat
  ttlMS : Nat
  maxSizeBytes : Nat
  sizeBytes : Nat
  cacheHits : Nat
  cacheMisses : Nat
  cacheExpired : Nat
  cacheEvictions : Nat

/-- `++Counter` of a `uint64_t`. -/
def next (counter : Nat) : Nat := (counter + 1) % 2 ^ 64

namespace ResponseCache

def initial : ResponseCache where
  entries := ∅
  entryOrder := []
  keysByCollection := ∅
  globalEpoch := 1
  mutationClock := 1
  orderClock := 1
  collectionGenerations := ∅
  ttlMS := 3600 * 1000
  maxSizeBytes := 512 * 1024 * 1024
  sizeBytes := 0
  cacheHits := 0
  cacheMisses := 0
  cacheExpired := 0
  cacheEvictions := 0

/-! ## The helpers that run under the lock -/

/-- A key leaves its group, and an empty group goes. -/
def leaveGroup (groups : ByteMap KeySet) (collection key : Bytes) : ByteMap KeySet :=
  match groups[collection]? with
  | none => groups
  | some keys =>
      if (keys.erase key).isEmpty then groups.erase collection
      else groups.insert collection (keys.erase key)

variable (c : ResponseCache)

def removeKeyLocked (key : Bytes) : ResponseCache :=
  match c.entries[key]? with
  | none => c
  | some entry =>
      { c with
        keysByCollection := leaveGroup c.keysByCollection entry.collection key
        sizeBytes := if c.sizeBytes < entry.sizeBytes then 0 else c.sizeBytes - entry.sizeBytes
        entries := c.entries.erase key }

def isCurrent (candidate : Bytes × Nat) : Bool :=
  c.entries[candidate.1]?.any fun entry => entry.orderSequence == candidate.2

/-- The loop of `TrimLocked` over the candidates, from the oldest. -/
def trimLoop : List (Bytes × Nat) → ResponseCache → ResponseCache
  | [], c => { c with entryOrder := [] }
  | candidate :: order, c =>
      if c.maxSizeBytes < c.sizeBytes then
        if c.isCurrent candidate then
          trimLoop order
            ({ c with cacheEvictions := next c.cacheEvictions }.removeKeyLocked candidate.1)
        else trimLoop order c
      else { c with entryOrder := candidate :: order }

def trimLocked : ResponseCache := trimLoop c.entryOrder c

def compactOrderLocked : ResponseCache :=
  if c.entryOrder.length ≤ c.entries.size * 2 + 1024 then c
  else { c with entryOrder := c.entryOrder.filter c.isCurrent }

def currentGenerationLocked (collection : Bytes) : Nat :=
  max c.globalEpoch (c.collectionGenerations[collection]?.getD 0)

/-! ## The operations -/

def configure (ttlMS maxSizeBytes : Nat) : ResponseCache :=
  trimLocked { c with ttlMS := max 1 ttlMS, maxSizeBytes := max 1 maxSizeBytes }

def getGeneration (collection : Bytes) : Nat :=
  c.currentGenerationLocked collection

/-- An entry has reached an age, or comes from the future. -/
def CacheEntry.isExpired (entry : CacheEntry) (now maxAgeMS : Nat) : Bool :=
  now < entry.createdMS || maxAgeMS ≤ now - entry.createdMS

/-- `Get` under a key. -/
def get (now : Nat) (key collection : Bytes) :
    ResponseCache × Option HttpResponse :=
  match c.entries[key]? with
  | none => ({ c with cacheMisses := next c.cacheMisses }, none)
  | some entry =>
      let expired := CacheEntry.isExpired entry now c.ttlMS
      let globalStale := entry.globalEpoch ≠ c.globalEpoch
      let collectionStale := entry.collectionGeneration ≠ c.currentGenerationLocked collection
      if expired ∨ globalStale ∨ collectionStale then
        let counted := { c with
          cacheMisses := next c.cacheMisses
          cacheExpired := if expired then next c.cacheExpired else c.cacheExpired }
        (counted.removeKeyLocked key, none)
      else
        let sequence := next c.orderClock
        let used := { c with
          entries := c.entries.insert key { entry with orderSequence := sequence }
          orderClock := sequence
          entryOrder := c.entryOrder ++ [(key, sequence)] }
        ({ used.compactOrderLocked with cacheHits := next c.cacheHits },
          some (entry.response.marked (lit "hit")))

/-- `Put` is let through: the answer is good and its generation is still the current one. -/
def accepts (collection : Bytes) (response : HttpResponse)
    (expectedGeneration : Nat) : Bool :=
  response.statusCode == 200 &&
    (expectedGeneration == 0 || expectedGeneration == c.currentGenerationLocked collection)

/-- `Put` under a key. -/
def put (platform : Platform) (c : ResponseCache) (now : Nat) (key collection : Bytes)
    (response : HttpResponse) (expectedGeneration : Nat) : ResponseCache :=
  if c.accepts collection response expectedGeneration then
    let stored := response.marked (lit "stored")
    let sequence := next c.orderClock
    let entry : CacheEntry := {
      response := stored
      collection
      createdMS := now
      globalEpoch := c.globalEpoch
      collectionGeneration := c.currentGenerationLocked collection
      orderSequence := sequence
      sizeBytes := estimateEntrySize platform key stored }
    let removed := { c with orderClock := sequence }.removeKeyLocked key
    let group := (removed.keysByCollection[collection]?.getD ∅).insert key
    let added := { removed with
      entries := removed.entries.insert key entry
      sizeBytes := (removed.sizeBytes + entry.sizeBytes) % 2 ^ 64
      keysByCollection := removed.keysByCollection.insert collection group
      entryOrder := removed.entryOrder ++ [(key, sequence)] }
    added.trimLocked.compactOrderLocked
  else c

/-- `InvalidateAll`. -/
def invalidateAll : ResponseCache :=
  { c with
    globalEpoch := next c.mutationClock
    mutationClock := next c.mutationClock
    entries := ∅
    entryOrder := []
    keysByCollection := ∅
    sizeBytes := 0 }

def eraseGroup (group : Bytes) : ResponseCache :=
  (c.keysByCollection[group]?.getD ∅).toList.foldl removeKeyLocked c

/-- `InvalidateCollection`. -/
def invalidateCollection (collection : Bytes) : ResponseCache :=
  if collection = [] then c.invalidateAll
  else
    let generation := next c.mutationClock
    let advanced := { c with
      mutationClock := generation
      collectionGenerations :=
        (c.collectionGenerations.insert collection generation).insert (lit "*") generation }
    (advanced.eraseGroup collection).eraseGroup (lit "*")

/-- `FlushExpired`; the number of entries that it returns is not used. -/
def flushExpired (now maxAgeMS : Nat) : ResponseCache :=
  let expired := c.entries.toList.filter fun entry => CacheEntry.isExpired entry.2 now maxAgeMS
  let flushed := (expired.map Prod.fst).foldl removeKeyLocked c
  if flushed.entries.isEmpty then { flushed with entryOrder := [] } else flushed

end ResponseCache

/-! ## Interleavings -/

/-- An operation of some thread. The generation that a `Put` brings is the one that an earlier
`GetGeneration` has returned, given by its number. -/
inductive Operation where
  | getGeneration (collection : Bytes)
  | get (now : Nat) (request : CachedRequest) (collection : Bytes)
  | put (now : Nat) (request : CachedRequest) (collection : Bytes) (response : HttpResponse)
      (read : Nat)
  | invalidateCollection (collection : Bytes)
  | invalidateAll
  | configure (ttlMS maxSizeBytes : Nat)
  | flushExpired (now maxAgeMS : Nat)

structure Read where
  moment : Nat
  generation : Nat

inductive Scope where
  | everything
  | collection (name : Bytes)
  deriving DecidableEq

structure Invalidation where
  moment : Nat
  scope : Scope

/-- An invalidation is about a collection: of everything, or of the collection, and of any one where
the collection is the wildcard. -/
def Invalidation.reaches (invalidation : Invalidation) (collection : Bytes) : Prop :=
  match invalidation.scope with
  | .everything => True
  | .collection name => collection = name ∨ collection = lit "*"

/-- The `Put` that has stored the response of a key. -/
structure Stored where
  collection : Bytes
  response : HttpResponse
  read : Read

/-- The cache, with a history: how many operations there have been, what has been read and
invalidated, and which `Put` was the last to store under each key. -/
structure History where
  cache : ResponseCache
  moment : Nat
  reads : List Read
  invalidations : List Invalidation
  stored : ByteMap Stored

namespace History

def start : History := ⟨.initial, 0, [], [], ∅⟩

/-- The scope of an `InvalidateCollection`: without a name it is an `InvalidateAll`. -/
def scopeOf (collection : Bytes) : Scope :=
  if collection = [] then .everything else .collection collection

variable (platform : Platform)

/-- A `Put` with a generation that has been read. -/
def putRead (h : History) (now : Nat) (key collection : Bytes) (response : HttpResponse)
    (read : Read) : History :=
  { h with
    cache := h.cache.put platform now key collection response read.generation
    stored := if h.cache.accepts collection response read.generation then
      h.stored.insert key ⟨collection, response, read⟩ else h.stored }

def perform (h : History) : Operation → History
  | .getGeneration collection =>
      { h with reads := h.reads ++ [⟨h.moment, h.cache.getGeneration collection⟩] }
  | .get now request collection =>
      { h with cache := (h.cache.get now (buildKey platform request) collection).1 }
  | .put now request collection response read =>
      h.reads[read]?.elim h (h.putRead platform now (buildKey platform request) collection response)
  | .invalidateCollection collection =>
      { h with
        cache := h.cache.invalidateCollection collection
        invalidations := h.invalidations ++ [⟨h.moment, scopeOf collection⟩] }
  | .invalidateAll =>
      { h with
        cache := h.cache.invalidateAll
        invalidations := h.invalidations ++ [⟨h.moment, .everything⟩] }
  | .configure ttlMS maxSizeBytes => { h with cache := h.cache.configure ttlMS maxSizeBytes }
  | .flushExpired now maxAgeMS => { h with cache := h.cache.flushExpired now maxAgeMS }

def step (h : History) (operation : Operation) : History :=
  { h.perform platform operation with moment := h.moment + 1 }

def run (operations : List Operation) : History := operations.foldl (step platform) start

end History

def Operation.invalidates : Operation → Bool
  | .invalidateCollection _ | .invalidateAll => true
  | _ => false

end Hlquery.Cache
