import Hlquery.Lib.Paging
import Hlquery.Filter.Evaluate
import Hlquery.Index.Query

/-!
# Lexical retrieval, ranking and pages

`ProcessLexicalSearch` gathers the hits of a query: the listing of the collection for `*`, a scan
for a query that only negates, the index for everything else, and a scan where the index has
nothing. `PerformComprehensiveSearch` filters, weighs, sorts and cuts the page. Every stage of the
retrieval has a limit, most of them computed from the page that is asked for, and all of them come
before the filter and the sort. `Limits` collects them, so that the same retrieval can be read with
and without them.

How a query text is read, how a document is compared with it and how a hit is weighed are
parameters; the control flow around them is the source's.
-/

set_option autoImplicit false

namespace Hlquery.Search

open Bytes Filter Index Paging

/-! ## Documents, queries, hits -/

/-- A stored document with the texts of its score and its timestamp. -/
structure StoredDocument where
  id : Bytes
  title : Bytes
  content : Bytes
  score : Bytes
  timestamp : Bytes
  fields : List (Bytes × Bytes)

/-- What a hit shows of a document. The fields come last and replace what stands there. -/
def StoredDocument.texts (doc : StoredDocument) : Filter.Document :=
  let named := ((((∅ : Filter.Document).insert (lit "id") doc.id).insert (lit "title")
    doc.title).insert (lit "content") doc.content).insert (lit "score") doc.score
  doc.fields.foldl (fun texts field => texts.insert field.1 field.2)
    (named.insert (lit "timestamp") doc.timestamp)

/-- A `SearchHit` of a lexical search, where the vector and hybrid scores are zero. -/
structure RankedHit (S : Type) extends SearchHit where
  textMatch : S
  weight : S

/-- What a `ComprehensiveSearchQuery` says besides the page. -/
structure QueryText where
  q : Bytes
  queryBy : List Bytes := []
  filterBy : Bytes := []
  sortBy : List Bytes := []
  facetBy : List Bytes := []
  groupBy : List Bytes := []
  aggregations : Bytes := []
  numTypos : Int := 2
  numTyposExplicit : Bool := false
  typoTokensThreshold : Int := 2
  prefixSearch : Bool := false
  inlineFuzzy : Bool := false
  exhaustiveSearch : Bool := false
  allowScanFallback : Bool := true
  enableStopwords : Bool := true

structure PageRequest where
  page : Int := 1
  perPage : Int := 10
  offset : Int := 0

/-- A query text as it is read for a collection, and how a document is compared with it. -/
structure Reading (S : Type) where
  usesStructuredSemantics : Bool
  /-- `BuildCandidateQueriesFromParsedExpression`. -/
  candidateQueries : List Bytes
  /-- `ExtractQuotedPhrases`. -/
  quotedPhrases : List Bytes
  /-- `QueriesOnlyKeywordFields`, of the collection's configuration. -/
  keywordFieldsOnly : Bool
  /-- The relaxed variants of the query with their synonyms. -/
  relaxedVariants : List Bytes
  /-- `BuildIndexQueryForSearch`. -/
  indexQuery : Bytes → Bool → Bytes
  /-- `ExtractTermsSimple`. -/
  terms : Bytes → List Bytes
  identifierLike : Bytes → Bool
  requireExactIdentifierTokens : Bool
  /-- `EvaluateParsedQueryExpression`, with prefixes allowed or not and a number of typos. -/
  evaluate : Bool → Int → StoredDocument → Bool
  /-- `KeywordFieldMatchesExact`. -/
  keywordMatches : StoredDocument → Bool
  /-- `MatchesAnyQueryVariant`: the number of terms that match. -/
  matchesAnyVariant : List (List Bytes) → Bool → Int → StoredDocument → Option Nat
  /-- `AllQuotedPhrasesMatchRequestedFields`. -/
  phrasesMatch : StoredDocument → Bool
  /-- The score of a listed document. -/
  listed : S
  /-- The score of a posting with its boosts. -/
  boosted : S → StoredDocument → S
  /-- The score of a document found by a scan, with its boosts. -/
  scanned : Nat → StoredDocument → S
  /-- The score of a document found by the last scan. -/
  fallback : Nat → S

/-- A collection as the search finds it. `stored` is in the order of `ListDocuments`. -/
structure SearchedCollection (S : Type) where
  name : Bytes
  stored : List StoredDocument
  distinct : (stored.map StoredDocument.id).Nodup
  index : CollectionIndex S
  documentCount : Nat

/-- What a request meets: the time, the state of the indexing after it has waited, and the number of
batches that a scan gets through before its deadline. -/
structure Moment where
  clock : Nat
  indexing : Bool := false
  indexComplete : Bool := true
  batches : Nat

/-! ## The order of the hits -/

/-- The arithmetic and the readings of the sort. `numberNe` and `scoreNe` are `!=`. -/
structure SortRuntime (S : Type) where
  Number : Type
  numberLt : Number → Number → Bool
  numberNe : Number → Number → Bool
  numberLt_asymm : ∀ x y, numberLt x y = true → numberLt y x = false
  numberNe_comm : ∀ x y, numberNe x y = numberNe y x
  scoreLt : S → S → Bool
  scoreNe : S → S → Bool
  scoreLt_asymm : ∀ x y, scoreLt x y = true → scoreLt y x = false
  scoreNe_comm : ∀ x y, scoreNe x y = scoreNe y x
  /-- `GetEffectiveScore`, of the text match and the weight. -/
  effectiveScore : S → S → S
  /-- `TryParseDoubleValue`. -/
  tryParseDoubleValue : Bytes → Option Number
  /-- `TryParseGeoDistanceSort`: the distance of a document that has a point, and whether the
  farthest comes first. -/
  tryParseGeoDistanceSort : Bytes → Option ((Filter.Document → Option Number) × Bool)
  /-- The text of a distance. -/
  formatDistance : Number → Bytes

namespace SortRuntime

variable {S : Type} (rt : SortRuntime S)

def directed (differ less greater descending : Bool) : Option Bool :=
  if differ then some (if descending then greater else less) else none

def byNumber (descending : Bool) (x y : rt.Number) : Option Bool :=
  directed (rt.numberNe x y) (rt.numberLt x y) (rt.numberLt y x) descending

def byScore (descending : Bool) (a b : RankedHit S) : Option Bool :=
  let x := rt.effectiveScore a.textMatch a.weight
  let y := rt.effectiveScore b.textMatch b.weight
  directed (rt.scoreNe x y) (rt.scoreLt x y) (rt.scoreLt y x) descending

def byText (descending : Bool) (x y : Bytes) : Option Bool :=
  directed (x ≠ y) (stringLt x y) (stringLt y x) descending

def byRank (field : Bytes) (descending : Bool) (a b : RankedHit S) : Option Bool :=
  match (a.document[field]?).bind rt.tryParseDoubleValue,
    (b.document[field]?).bind rt.tryParseDoubleValue with
  | some x, some y => rt.byNumber descending x y
  | _, _ => none

/-- `CompareRankTieBreak`. -/
def compareRankTieBreak (a b : RankedHit S) : Bool :=
  (rt.byRank (lit "rank_signal") true a b).getD
    ((rt.byRank (lit "rank") false a b).getD
      (stringLt ((a.document[lit "id"]?).getD []) ((b.document[lit "id"]?).getD [])))

def readRule (rule : Bytes) : Bytes × Bool :=
  match rule.dropWhile (· ≠ chr ':') with
  | [] => (rule, false)
  | _ :: direction =>
      (rule.takeWhile (· ≠ chr ':'),
        toLower direction = lit "desc" || toLower direction = lit "descending")

/-- One rule of the comparison of `ApplySorting`; `none` leaves it to the next. -/
def sortRule (rule : Bytes) (a b : RankedHit S) : Option Bool :=
  match rt.tryParseGeoDistanceSort rule with
  | some (distance, descending) =>
      match distance a.document, distance b.document with
      | some x, some y => rt.byNumber descending x y
      | some _, none => some true
      | none, some _ => some false
      | none, none => none
  | none =>
      let (field, descending) := readRule rule
      if field = lit "_text_match" ∨ field = lit "_score" ∨ field = lit "score" then
        rt.byScore descending a b
      else
        let x := (a.document[field]?).getD []
        let y := (b.document[field]?).getD []
        if x = y then none
        else
          match rt.tryParseDoubleValue x, rt.tryParseDoubleValue y with
          | some u, some v => (rt.byNumber descending u v).or (byText descending x y)
          | _, _ => byText descending x y

/-- The comparison of `ApplySorting`. -/
def compareBy : List Bytes → RankedHit S → RankedHit S → Bool
  | [], a, b => rt.compareRankTieBreak a b
  | rule :: rules, a, b => (rt.sortRule rule a b).getD (compareBy rules a b)

/-- The comparison where no rule is given, neither by the query nor by the collection. -/
def compareByScore (a b : RankedHit S) : Bool :=
  (rt.byScore true a b).getD (rt.compareRankTieBreak a b)

/-- `ApplySorting` shows the distance of the first geo rule in the documents it has sorted. -/
def addGeoDistance (rules : List Bytes) (hit : RankedHit S) : RankedHit S :=
  match rules.findSome? rt.tryParseGeoDistanceSort with
  | none => hit
  | some (distance, _) =>
      match distance hit.document with
      | none => hit
      | some x =>
          { hit with document := hit.document.insert (lit "_geo_distance_km") (rt.formatDistance x) }

end SortRuntime

/-! ## Retrieval -/

structure LexicalEngine (S : Type) where
  single : SinglePrecision S
  scoring : Scoring S
  settings : QuerySettings
  filters : FilterRuntime
  order : SortRuntime S
  reading : Bytes → QueryText → Reading S
  /-- The order in which an `unordered_map` hands out its postings. -/
  mapOrder : List (Posting S) → List (Posting S)
  mapOrder_perm : ∀ postings, (mapOrder postings).Perm postings
  /-- The sort of the scanned hits by falling text match. -/
  byTextMatch : List (RankedHit S) → List (RankedHit S)
  byTextMatch_perm : ∀ hits, (byTextMatch hits).Perm hits
  /-- `CalculateWeight`: a decay with the age of the document. -/
  calculateWeight : Nat → Filter.Document → S
  /-- `ApplyCollectionRankWeights` and `ApplyModuleWeights`: new weights, and a rank signal in the
  documents, both from all hits together. -/
  weigh : Bytes → QueryText → List (RankedHit S) → List (RankedHit S)
  weigh_ids : ∀ collection query hits,
    (weigh collection query hits).map (·.documentId) = hits.map (·.documentId)
  /-- `ResolveDefaultCollectionSortBy`. -/
  defaultSortBy : Bytes → List Bytes
  sort : SortFunction (RankedHit S)
  stableSort : SortFunction (RankedHit S)
  applyGrouping : QueryText → List (RankedHit S) → List (RankedHit S)

/-- The limits of a retrieval; `none`, and zero for the index, is no limit. -/
structure Limits where
  /-- Documents listed for `*`. -/
  listed : Option Nat
  /-- Hits of a query that only negates. -/
  negated : Option Nat
  /-- Postings of each variant of the query. -/
  searched : Int
  /-- Hits of a scan. -/
  found : Option Nat
  /-- Documents that a scan looks at, for a number of documents and for a complete scan or not. -/
  reach : Nat → Bool → Option Nat
  /-- Documents that the last scan looks at. -/
  lastReach : Nat → Option Nat

def Limits.unlimited : Limits where
  listed := none
  negated := none
  searched := 0
  found := none
  reach := fun _ _ => none
  lastReach := fun _ => none

def upTo {α : Type} (limit : Option Nat) (l : List α) : List α :=
  match limit with
  | none => l
  | some k => l.take k

section Limits

variable (query : QueryText) (request : PageRequest) (moment : Moment)

/-- The rows that the listing for `*` is asked for. -/
def requestedLimit : Int :=
  let most : Int := 2 ^ 31 - 1
  if 0 < request.perPage then
    if 0 < request.offset then min most (request.offset + request.perPage)
    else if 1 < request.page then min most (request.page * request.perPage)
    else request.perPage
  else most

/-- A `*` query that filters or sorts lists as many documents as the post-processing takes. -/
def listingLimit (documentCount : Nat) : Int :=
  if query.sortBy ≠ [] ∨ query.filterBy ≠ [] ∨ query.facetBy ≠ [] ∨ query.groupBy ≠ [] ∨
      query.aggregations ≠ [] then
    max (requestedLimit request) (min documentCount 10000 : Nat)
  else requestedLimit request

def safePerPage : Int :=
  if 0 < request.perPage ∧ request.perPage ≤ 1000 then request.perPage else 100

/-- `SearchLimit`: the rows up to the page that is asked for and at least ten pages, and never more
than ten thousand. Neither the filter nor the sort plays a part. -/
def searchLimit : Int :=
  let rows :=
    if 0 < request.offset then request.offset + safePerPage request
    else if 1 < request.page then request.page * safePerPage request
    else safePerPage request
  let rows := max rows (safePerPage request * 10)
  if query.exhaustiveSearch then 10000 else min 10000 rows

/-- The limit of a query that only negates, which does not look at the page. -/
def negatedLimit : Int := if 0 < request.perPage then min request.perPage 1000 else 100

def scanBatch : Nat := 200

/-- `max_scan_docs`, as far as the iterations and the deadline allow. -/
def scanReach (docs : Nat) (completeScan : Bool) : Nat :=
  let most :=
    if 0 < docs then min docs (if completeScan then docs else 10000)
    else if query.exhaustiveSearch || completeScan then 50000 else 10000
  min most (scanBatch * min moment.batches (max 5 (most / scanBatch + 4)))

def limitsOf (documentCount : Nat) : Limits where
  listed := some (listingLimit query request documentCount).toNat
  negated := some (negatedLimit request).toNat
  searched := searchLimit query request
  found := some (searchLimit query request).toNat
  reach := fun docs completeScan => some (scanReach query moment docs completeScan)
  lastReach := fun docs => some (min docs (scanBatch * moment.batches))

end Limits

namespace LexicalEngine

variable {S : Type} (engine : LexicalEngine S) (coll : SearchedCollection S) (query : QueryText)

def readingOf : Reading S := engine.reading coll.name query

def exactKeywordQuery : Bool :=
  let reading := engine.readingOf coll query
  !reading.usesStructuredSemantics && !query.inlineFuzzy && reading.keywordFieldsOnly

/-- `QueryVariants`, sorted and without repetitions. -/
def queryVariants : List Bytes :=
  let reading := engine.readingOf coll query
  let variants :=
    if engine.exactKeywordQuery coll query then [query.q]
    else if reading.usesStructuredSemantics then reading.candidateQueries
    else reading.relaxedVariants
  (variants.insertionSort fun s t => !stringLt t s).eraseDups

/-- `query_variant_terms_list`. -/
def variantTerms : List (List Bytes) :=
  let reading := engine.readingOf coll query
  let variants := engine.queryVariants coll query
  let terms := (variants.map reading.terms).filter (· ≠ [])
  let base := reading.terms query.q
  if terms = [] ∧ base ≠ [] ∧ ¬ (query.enableStopwords = true ∧ variants = []) then [base] else terms

def effectiveMaxTypos : Int :=
  let reading := engine.readingOf coll query
  let base := reading.terms query.q
  if engine.exactKeywordQuery coll query = false ∧ 0 < query.numTypos ∧ base ≠ [] ∧
      (reading.requireExactIdentifierTokens = false ∨ query.numTyposExplicit = true ∨
        base.any reading.identifierLike = false) ∧
      (base.length : Int) ≤ query.typoTokensThreshold then query.numTypos else 0

def hitOf (clock : Nat) (doc : StoredDocument) (score : S) : RankedHit S where
  documentId := doc.id
  document := doc.texts
  textMatch := score
  weight := engine.calculateWeight clock doc.texts

/-- A posting replaces one of the same document with a lower score. -/
def keepBest (docs : ByteMap (Posting S)) (post : Posting S) : ByteMap (Posting S) :=
  match docs[post.documentId]? with
  | none => docs.insert post.documentId post
  | some kept =>
      if engine.order.scoreLt kept.score post.score then docs.insert post.documentId post else docs

def postings (limit : Int) : List (Posting S) :=
  let reading := engine.readingOf coll query
  let allowPrefix := query.prefixSearch && !engine.exactKeywordQuery coll query
  let found := (engine.queryVariants coll query).flatMap fun variant =>
    coll.index.search engine.single engine.scoring engine.settings coll.name
      (reading.indexQuery variant allowPrefix) limit query.queryBy
  engine.mapOrder ((found.foldl engine.keepBest ∅).toList.map Prod.snd)

def phrasesHold (doc : StoredDocument) : Bool :=
  let reading := engine.readingOf coll query
  reading.usesStructuredSemantics || reading.quotedPhrases.isEmpty || reading.phrasesMatch doc

def postingMatches (doc : StoredDocument) : Bool :=
  let reading := engine.readingOf coll query
  let typos := engine.effectiveMaxTypos coll query
  (if reading.usesStructuredSemantics then reading.evaluate query.prefixSearch typos doc
   else if engine.exactKeywordQuery coll query then reading.keywordMatches doc
   else (engine.variantTerms coll query).isEmpty ||
     (reading.matchesAnyVariant (engine.variantTerms coll query) query.prefixSearch typos
       doc).isSome) &&
  engine.phrasesHold coll query doc

def scanMatches (doc : StoredDocument) : Option Nat :=
  let reading := engine.readingOf coll query
  let typos := engine.effectiveMaxTypos coll query
  let exact := engine.exactKeywordQuery coll query
  let allowPrefix := query.prefixSearch && !exact
  let matched :=
    if reading.usesStructuredSemantics then
      if reading.evaluate allowPrefix typos doc then some 0 else none
    else if exact then if reading.keywordMatches doc then some 0 else none
    else reading.matchesAnyVariant (engine.variantTerms coll query) allowPrefix typos doc
  if engine.phrasesHold coll query doc then matched else none

def postingHit (clock : Nat) (post : Posting S) : Option (RankedHit S) :=
  match coll.stored.find? fun doc => doc.id = post.documentId ∧ doc.id ≠ [] with
  | none => none
  | some doc =>
      if engine.postingMatches coll query doc then
        some (engine.hitOf clock doc ((engine.readingOf coll query).boosted post.score doc))
      else none

/-- A scan: the documents it reaches, in the order of the listing, until it has enough hits. -/
def scan (clock : Nat) (score : Nat → StoredDocument → S) (reach found : Option Nat) :
    List (RankedHit S) :=
  upTo found ((upTo reach coll.stored).filterMap fun doc =>
    (engine.scanMatches coll query doc).map fun terms => engine.hitOf clock doc (score terms doc))

/-- `HasInMemoryIndex`. -/
def hasInMemoryIndex (index : CollectionIndex S) : Bool := !(index.documentTerms.getD ∅).isEmpty

def collectionDocs (moment : Moment) : Nat :=
  if coll.documentCount = 0 ∨ moment.indexing = true then
    max coll.documentCount coll.stored.length
  else coll.documentCount

/-- The search in the index, with the scans that stand in for it. -/
def searchIndexed (limits : Limits) (moment : Moment) : List (RankedHit S) :=
  let reading := engine.readingOf coll query
  let docs := collectionDocs coll moment
  let postings := engine.postings coll query limits.searched
  let noTerms := engine.variantTerms coll query = []
  let typoScan := query.numTyposExplicit = true ∧ 0 < engine.effectiveMaxTypos coll query ∧
    (postings = [] ∨ query.inlineFuzzy = true) ∧ ¬ noTerms
  let preferScan := (moment.indexing = true ∨ moment.indexComplete = false) ∧ 0 < docs
  let zeroHits := query.allowScanFallback = true ∧ postings = [] ∧ 0 < docs ∧ ¬ noTerms
  let forceScan := reading.usesStructuredSemantics = true ∧ engine.queryVariants coll query = []
  if (query.allowScanFallback = true ∨ preferScan ∨ forceScan ∨ typoScan ∨ zeroHits) ∧
      (postings = [] ∨ preferScan ∨ forceScan ∨ typoScan) ∧
      (hasInMemoryIndex coll.index = false ∨ zeroHits ∨ preferScan ∨ forceScan ∨ typoScan) then
    if noTerms then []
    else
      let completeScan := decide preferScan || query.exhaustiveSearch || decide zeroHits
      engine.byTextMatch (engine.scan coll query moment.clock reading.scanned
        (limits.reach docs completeScan) limits.found)
  else
    let hits := postings.filterMap (engine.postingHit coll query moment.clock)
    if hits = [] ∧ query.allowScanFallback = true ∧ 0 < docs ∧ ¬ noTerms then
      engine.byTextMatch (engine.scan coll query moment.clock (fun terms _ => reading.fallback terms)
        (limits.lastReach docs) limits.found)
    else hits

/-- A query without a candidate for the index, which only negates, scans the collection. -/
def scanNegated (limit : Option Nat) (clock : Nat) : List (RankedHit S) :=
  let reading := engine.readingOf coll query
  let allowPrefix := query.prefixSearch && !engine.exactKeywordQuery coll query
  upTo limit ((coll.stored.filter (reading.evaluate allowPrefix 0)).map fun doc =>
    engine.hitOf clock doc reading.listed)

/-- `ProcessLexicalSearch` with its limits given. -/
def retrieve (limits : Limits) (moment : Moment) : List (RankedHit S) :=
  let reading := engine.readingOf coll query
  if query.q = [] then []
  else if query.q = lit "*" then
    (upTo limits.listed coll.stored).map fun doc => engine.hitOf moment.clock doc reading.listed
  else if reading.usesStructuredSemantics = true ∧ reading.candidateQueries = [] then
    engine.scanNegated coll query limits.negated moment.clock
  else engine.searchIndexed coll query limits moment

/-- `ProcessLexicalSearch`. -/
def processLexicalSearch (request : PageRequest) (moment : Moment) : List (RankedHit S) :=
  engine.retrieve coll query (limitsOf query request moment coll.documentCount) moment

/-! ## Filter, order, page -/

def postProcess (hits : List (RankedHit S)) : List (RankedHit S) :=
  engine.weigh coll.name query <|
    if query.filterBy = [] then hits
    else hits.filter fun hit => matchesFilter engine.filters query.filterBy hit.document

/-- The comparison of two hits: by the rules of the query, by those of the collection, by score. -/
def before : RankedHit S → RankedHit S → Bool :=
  if query.sortBy ≠ [] then engine.order.compareBy query.sortBy
  else if engine.defaultSortBy coll.name ≠ [] then
    engine.order.compareBy (engine.defaultSortBy coll.name)
  else engine.order.compareByScore

def arrange (hits : List (RankedHit S)) : List (RankedHit S) :=
  if query.sortBy ≠ [] then
    (engine.sort.run (engine.before coll query) hits).map (engine.order.addGeoDistance query.sortBy)
  else if engine.defaultSortBy coll.name ≠ [] then
    (engine.sort.run (engine.before coll query) hits).map
      (engine.order.addGeoDistance (engine.defaultSortBy coll.name))
  else engine.stableSort.run (engine.before coll query) hits

/-- `ApplyPagination`. -/
def applyPagination (request : PageRequest) (hits : List (RankedHit S)) : List (RankedHit S) :=
  if request.page ≤ 0 ∨ request.perPage ≤ 0 then []
  else page request.perPage.toNat request.page.toNat hits

/-- `ApplyPaginationForSQL`. -/
def applyPaginationForSQL (request : PageRequest) (hits : List (RankedHit S)) :
    List (RankedHit S) :=
  if request.perPage ≤ 0 ∨ request.offset < 0 then []
  else (hits.drop request.offset.toNat).take request.perPage.toNat

/-- The hits that `PerformComprehensiveSearch` returns for a lexical query. -/
def searchPage (request : PageRequest) (moment : Moment) : List (RankedHit S) :=
  let hits := engine.postProcess coll query (engine.processLexicalSearch coll query request moment)
  let hits := engine.arrange coll query hits
  let hits := if query.groupBy = [] then hits else engine.applyGrouping query hits
  if 0 < request.offset then applyPaginationForSQL request hits else applyPagination request hits

end LexicalEngine

end Hlquery.Search
