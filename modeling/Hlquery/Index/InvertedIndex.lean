import Hlquery.Index.MappedFormat
import Hlquery.Index.Terms

/-!
# The in-memory index

`InvertedIndex` keeps a dozen maps whose outer key is the name of a collection: the postings of each
term, the terms of each document, the lengths of the documents, the total length, the number of
documents, the mapped snapshot, and marks and times for flushing and eviction. A `CollectionIndex`
holds the entries of all these maps under one name, each of which may be missing, and the index is a
map from names to them; a name that is not there has no entry anywhere. Every operation but
eviction and `Clear` touches the entries of one collection.

`AddDocument` and `UpdateDocument` hold the same code twice, to extract the terms of a document and
to enter them; it is `enterDocument` here. `AddDocument` checks two limits first, and evicts only
now and then.

Scores are `double`s that are multiplied by configured boosts. `Ranking` has the boosts and the two
operations; nothing here depends on what they are.
-/

set_option autoImplicit false

namespace Hlquery.Index

open Bytes

/-! ## Documents -/

structure Document where
  id : Bytes
  title : Bytes
  content : Bytes
  fields : List (Bytes × Bytes)
  distinct : (fields.map Prod.fst).Nodup

structure Ranking (S : Type) where
  one : S
  two : S
  urlTokenBoost : S
  urlTldWeight : S
  titleLikeBoost : S
  tagLikeBoost : S
  max : S → S → S
  mul : S → S → S

def titleWords : List Bytes := [lit "title", lit "name", lit "subject", lit "headline"]

def tagWords : List Bytes :=
  [lit "tag", lit "tags", lit "keyword", lit "keywords", lit "category", lit "topic"]

def urlWords : List Bytes :=
  [lit "url", lit "uri", lit "link", lit "website", lit "site", lit "source"]

namespace Document

def allTermsList (doc : Document) : List Bytes :=
  extractTerms doc.title ++ extractTerms doc.content ++ extractTerms doc.id ++
    doc.fields.flatMap fun field => extractTerms field.2

/-- The terms of each field. A custom field takes the place of a built-in one of its name. -/
def fieldTermsByName (doc : Document) : ByteMap (List Bytes) :=
  doc.fields.foldl (fun byName field => byName.insert field.1 (extractTerms field.2))
    ((((∅ : ByteMap (List Bytes)).insert (lit "title") (extractTerms doc.title)).insert
      (lit "content") (extractTerms doc.content)).insert (lit "id") (extractTerms doc.id))

def termsOfFields (doc : Document) (words : List Bytes) : ByteSet :=
  .ofList ((doc.fields.filter fun field => fieldNameHasToken field.1 words).flatMap fun field =>
    extractTerms field.2) _

def urlTerms (doc : Document) : UrlTerms :=
  (doc.title :: doc.content :: doc.fields.map Prod.snd).foldl extractUrlTerms ⟨∅, ∅⟩

section Postings

variable {S : Type} (ranking : Ranking S)

/-- The score of `BuildPostingForTerm`. -/
def termScore (doc : Document) (term : Bytes) (inTitle : Bool) : S :=
  let score := ranking.one
  let score := if inTitle then ranking.max score ranking.two else score
  let score := if doc.termsOfFields titleWords |>.contains term then
    ranking.max score ranking.titleLikeBoost else score
  let score := if doc.termsOfFields tagWords |>.contains term then
    ranking.mul score ranking.tagLikeBoost else score
  if doc.urlTerms.tlds.contains term then ranking.mul score ranking.urlTldWeight
  else if doc.urlTerms.terms.contains term || (doc.termsOfFields urlWords).contains term then
    ranking.mul score ranking.urlTokenBoost
  else score

def positionsIn (terms : List Bytes) (term : Bytes) : List Nat :=
  (terms.zipIdx.filter fun entry => entry.1 = term).map Prod.snd

def buildPostingForTerm (collection : Bytes) (doc : Document) (term : Bytes)
    (positions : List Nat) (inTitle : Bool) : Posting S :=
  { documentId := doc.id, collection, score := doc.termScore ranking term inTitle, positions }

def plainPostings (collection : Bytes) (doc : Document) : List (Bytes × Posting S) :=
  (Std.ExtTreeSet.ofList doc.allTermsList compare).toList.map fun term =>
    (term, buildPostingForTerm ranking collection doc term (positionsIn doc.allTermsList term)
      ((extractTerms doc.title).elem term))

/-- One posting for each field and term of it, under the synthetic term. -/
def scopedPostings (collection : Bytes) (doc : Document) : List (Bytes × Posting S) :=
  doc.fieldTermsByName.toList.flatMap fun field =>
    (Std.ExtTreeSet.ofList field.2 compare).toList.map fun term =>
      (buildFieldScopedTerm field.1 term, buildPostingForTerm ranking collection doc term
        (positionsIn field.2 term) (field.1 = lit "title"))

def postings (collection : Bytes) (doc : Document) : List (Bytes × Posting S) :=
  doc.plainPostings ranking collection ++ doc.scopedPostings ranking collection

end Postings

end Document

/-! ## One collection -/

/-- The entries of all maps under the name of one collection. -/
structure CollectionIndex (S : Type) where
  index : Option (ByteMap (List (Posting S)))
  documentTerms : Option (ByteMap ByteSet)
  documentLengths : Option (ByteMap Nat)
  totalLength : Option Nat
  docCount : Option Nat
  /-- The two operands of the division. -/
  avgDocLength : Option (Nat × Nat)
  mmapIndex : Option MMapIndex
  dirty : Bool
  lastMutation : Option Nat
  lastFlush : Option Nat
  lastAccess : Option Nat

namespace CollectionIndex

variable {S : Type}

def empty : CollectionIndex S :=
  ⟨none, none, none, none, none, none, none, false, none, none, none⟩

def sumLengths (lengths : ByteMap Nat) : Nat := (lengths.toList.map Prod.snd).sum

variable (c : CollectionIndex S)

/-- `EnsureCollectionTotalLengthLocked`: the total, which is stored if it was missing. -/
def ensureTotalLength : Nat × CollectionIndex S :=
  match c.totalLength with
  | some total => (total, c)
  | none =>
      let total := sumLengths (c.documentLengths.getD ∅)
      (total, { c with totalLength := some total })

/-- `RefreshCollectionStatsFromTotalLocked`. -/
def refreshStats : CollectionIndex S :=
  let docCount := (c.documentLengths.getD ∅).size
  if docCount = 0 then
    { c with docCount := some docCount, totalLength := some 0, avgDocLength := some (1, 1) }
  else
    let (total, c) := ({ c with docCount := some docCount } : CollectionIndex S).ensureTotalLength
    { c with avgDocLength := some (total, docCount) }

/-- The postings of a document leave the list of a term, and an empty list the map. -/
def removePostings (docId : Bytes) (index : ByteMap (List (Posting S))) (term : Bytes) :
    ByteMap (List (Posting S)) :=
  match index[term]? with
  | none => index
  | some postings =>
      let kept := postings.filter fun post => post.documentId ≠ docId
      if kept.isEmpty then index.erase term else index.insert term kept

def unlessEmpty {V : Type} (m : ByteMap V) : Option (ByteMap V) := if m.isEmpty then none else some m

def removeLength (docId : Bytes) (c : CollectionIndex S) : CollectionIndex S :=
  match c.documentLengths with
  | none => c
  | some lengths =>
      let c := match lengths[docId]? with
        | none => c
        | some removed =>
            let (total, c) := c.ensureTotalLength
            { c with totalLength := some (if removed < total then total - removed else 0) }
      { c with documentLengths := unlessEmpty (lengths.erase docId) }

def removeDocumentFromIndex (docId : Bytes) (c : CollectionIndex S) : CollectionIndex S :=
  match c.index, c.documentTerms with
  | some index, some documentTerms =>
      match documentTerms[docId]? with
      | none => c
      | some terms =>
          (removeLength docId
            { c with
              index := some (terms.toList.foldl (removePostings docId) index)
              documentTerms := unlessEmpty (documentTerms.erase docId) }).refreshStats
  | _, _ => c

def pushPosting (index : ByteMap (List (Posting S))) (entry : Bytes × Posting S) :
    ByteMap (List (Posting S)) :=
  index.insert entry.1 (index[entry.1]?.getD [] ++ [entry.2])

/-- The common part of `AddDocument` and `UpdateDocument`, once the old postings are gone. -/
def enterDocument (ranking : Ranking S) (collection : Bytes) (doc : Document)
    (c : CollectionIndex S) : CollectionIndex S :=
  let postings := doc.postings ranking collection
  let docLength := doc.allTermsList.length
  let c : CollectionIndex S :=
    { c with
      index := some (postings.foldl pushPosting (c.index.getD ∅))
      documentTerms := some ((c.documentTerms.getD ∅).insert doc.id
        (.ofList (postings.map Prod.fst) _)) }
  let (total, c) := c.ensureTotalLength
  ({ c with
     documentLengths := some ((c.documentLengths.getD ∅).insert doc.id docLength)
     totalLength := some (total + docLength) } : CollectionIndex S).refreshStats

def markDirty (now : Nat) (c : CollectionIndex S) : CollectionIndex S :=
  { c with dirty := true, lastMutation := some now }

def touch (collection : Bytes) (now : Nat) (c : CollectionIndex S) : CollectionIndex S :=
  if collection = [] then c else { c with lastAccess := some now }

def unload : CollectionIndex S := { empty with dirty := c.dirty }

def isLoaded : Bool :=
  c.index.isSome || c.mmapIndex.isSome || c.documentTerms.isSome || c.documentLengths.isSome

end CollectionIndex

/-! ## The index -/

/-- The index: the collections that have an entry in some map. -/
abbrev InvertedIndex (S : Type) := ByteMap (CollectionIndex S)

/-- What an operation asks of its surroundings: the clock at its two readings, and the memory that a
collection takes, which depends on the allocator. -/
structure Surroundings (S : Type) where
  accessTime : Nat
  mutationTime : Nat
  estimateMemory : Bytes → CollectionIndex S → Nat

def maxDocumentsPerCollection : Nat := 5000000
def maxTermsPerCollection : Nat := 10000000
def memoryCheckInterval : Nat := 1000
def maxMemoryBytes : Nat := 2 * 1024 * 1024 * 1024

namespace InvertedIndex

variable {S : Type}

def collection (ix : InvertedIndex S) (name : Bytes) : CollectionIndex S :=
  ix[name]?.getD .empty

def modify (ix : InvertedIndex S) (name : Bytes) (f : CollectionIndex S → CollectionIndex S) :
    InvertedIndex S :=
  ix.insert name (f (ix.collection name))

structure EvictionCandidate where
  collection : Bytes
  lastAccess : Nat
  bytes : Nat

def evictedBefore (a b : EvictionCandidate) : Bool :=
  if a.lastAccess = b.lastAccess then compare a.collection b.collection != .gt
  else a.lastAccess < b.lastAccess

def evictLoop (targetBytes : Nat) :
    Nat → List EvictionCandidate → InvertedIndex S → InvertedIndex S
  | _, [], ix => ix
  | loadedBytes, candidate :: candidates, ix =>
      if loadedBytes ≤ targetBytes then ix
      else evictLoop targetBytes (loadedBytes - candidate.bytes) candidates
        (ix.modify candidate.collection .unload)

/-- `EvictLoadedCollectionsLocked`. -/
def evictLoadedCollections (estimateMemory : Bytes → CollectionIndex S → Nat) (targetBytes : Nat)
    (ix : InvertedIndex S) : InvertedIndex S :=
  if targetBytes = 0 then ix
  else
    let loaded := ix.toList.filter fun entry => entry.2.isLoaded
    let loadedBytes := (loaded.map fun entry => estimateMemory entry.1 entry.2).sum
    if loadedBytes ≤ targetBytes then ix
    else
      let candidates := (loaded.filter fun entry =>
          !entry.2.dirty && estimateMemory entry.1 entry.2 != 0).map fun entry =>
        ({ collection := entry.1, lastAccess := entry.2.lastAccess.getD 0
           bytes := estimateMemory entry.1 entry.2 } : EvictionCandidate)
      evictLoop targetBytes loadedBytes (candidates.insertionSort fun a b => evictedBefore a b) ix

/-- `AddDocument`: the index afterwards, and whether the document was taken. -/
def addDocument (ranking : Ranking S) (env : Surroundings S) (name : Bytes) (doc : Document)
    (ix : InvertedIndex S) : InvertedIndex S × Bool :=
  let ix := ix.modify name (.touch name env.accessTime)
  let documentTerms := (ix.collection name).documentTerms.getD ∅
  if documentTerms.contains doc.id = false ∧ maxDocumentsPerCollection ≤ documentTerms.size then
    (ix, false)
  else if maxTermsPerCollection ≤ ((ix.collection name).index.getD ∅).size then (ix, false)
  else
    let ix := ix.modify name fun c =>
      ((c.removeDocumentFromIndex doc.id).enterDocument ranking name doc).markDirty
        env.mutationTime
    if (ix.collection name).docCount.getD 0 % memoryCheckInterval = 0 then
      (ix.evictLoadedCollections env.estimateMemory maxMemoryBytes, true)
    else (ix, true)

def deleteDocument (env : Surroundings S) (name docId : Bytes) (ix : InvertedIndex S) :
    InvertedIndex S :=
  let ix := ix.modify name (.touch name env.accessTime)
  let ix := ix.modify name fun c => (c.removeDocumentFromIndex docId).markDirty env.mutationTime
  ix.evictLoadedCollections env.estimateMemory maxMemoryBytes

def updateDocument (ranking : Ranking S) (env : Surroundings S) (name : Bytes)
    (oldDoc newDoc : Document) (ix : InvertedIndex S) : InvertedIndex S :=
  let ix := ix.modify name (.touch name env.accessTime)
  let ix := ix.modify name fun c =>
    ((c.removeDocumentFromIndex oldDoc.id).enterDocument ranking name newDoc).markDirty
      env.mutationTime
  ix.evictLoadedCollections env.estimateMemory maxMemoryBytes

def deleteCollection (name : Bytes) (ix : InvertedIndex S) : InvertedIndex S := ix.erase name

/-- `Clear`. -/
def clear (_ : InvertedIndex S) : InvertedIndex S := ∅

/-- The end of a flush of one collection, under the lock: the new snapshot is installed if it could
be opened, and the collection is clean unless it has changed since its postings were copied. -/
def finishFlush (name : Bytes) (opened : Option MMapIndex) (copiedAt now : Nat)
    (ix : InvertedIndex S) : InvertedIndex S :=
  ix.modify name fun c =>
    { c with
      mmapIndex := opened.or c.mmapIndex
      dirty := c.dirty && c.lastMutation.any fun mutation => copiedAt < mutation
      lastFlush := some now }

/-- The end of `LoadFromDisk`: the snapshots that could be opened are installed. -/
def installLoaded (env : Surroundings S) (opened : List (Bytes × MMapIndex))
    (ix : InvertedIndex S) : InvertedIndex S :=
  (opened.foldl (fun ix entry =>
    ix.modify entry.1 fun c => { c with mmapIndex := some entry.2 }) ix).evictLoadedCollections
      env.estimateMemory maxMemoryBytes

end InvertedIndex

/-! ## Runs -/

/-- A call on the index. An update is of one document, so both versions have its id. -/
inductive Operation (S : Type) where
  | addDocument (env : Surroundings S) (name : Bytes) (doc : Document)
  | updateDocument (env : Surroundings S) (name : Bytes) (oldDoc newDoc : Document)
      (sameId : oldDoc.id = newDoc.id)
  | deleteDocument (env : Surroundings S) (name docId : Bytes)
  | deleteCollection (name : Bytes)
  | clear
  | evict (estimateMemory : Bytes → CollectionIndex S → Nat) (maxBytes : Nat)
  | finishFlush (name : Bytes) (opened : Option MMapIndex) (copiedAt now : Nat)
  | installLoaded (env : Surroundings S) (opened : List (Bytes × MMapIndex))

namespace InvertedIndex

variable {S : Type} (ranking : Ranking S)

def step (ix : InvertedIndex S) : Operation S → InvertedIndex S
  | .addDocument env name doc => (ix.addDocument ranking env name doc).1
  | .updateDocument env name oldDoc newDoc _ => ix.updateDocument ranking env name oldDoc newDoc
  | .deleteDocument env name docId => ix.deleteDocument env name docId
  | .deleteCollection name => ix.deleteCollection name
  | .clear => ix.clear
  | .evict estimateMemory maxBytes => ix.evictLoadedCollections estimateMemory maxBytes
  | .finishFlush name opened copiedAt now => ix.finishFlush name opened copiedAt now
  | .installLoaded env opened => ix.installLoaded env opened

def run (operations : List (Operation S)) : InvertedIndex S := operations.foldl (step ranking) ∅

end InvertedIndex

end Hlquery.Index
