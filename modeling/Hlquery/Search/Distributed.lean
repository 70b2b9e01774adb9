import Hlquery.Search.Scope

/-!
# Searches on other nodes

With distributed search enabled, the handlers first try to answer from the other nodes of the
cluster: `TryDistributedSearch` sends the request to each selected node and merges the hits that
come back. The request that is sent is written out again from the method, the path, the query
parameters and the body; `APIKeyID` and `EmbeddedFilters` are fields of the parsed request and are
not part of it. The credentials are replaced by the peer token of the endpoint if there is one.

A node that receives the request is modelled by the same handlers as this one: it authenticates
the token it was sent, and answers `HandleSearch` from its own data. `distributed_hits_iff` then
says when what comes back satisfies the filter of the key that asked: exactly if the filter that
each node evaluates implies it. Nothing in the code makes it so; it depends on whom the nodes take
the sender for.
-/

set_option autoImplicit false

namespace Hlquery.Search

open Bytes Hlquery.Filter Http

/-! ## A node that is asked -/

inductive Identity where
  /-- Refused; the response may say that authentication is disabled. -/
  | refused (authDisabled : Bool)
  /-- An administrator, or anyone where authentication is disabled. -/
  | administrator
  | key (key : APIKey)

/-- Another node: the tokens configured for its endpoint here, whom it takes the holder of a token
for (the empty token is a request without credentials), and its own server. -/
structure PeerNode where
  primaryToken : Bytes
  secondaryToken : Bytes
  authenticate : Bytes → Identity
  server : Server

inductive PeerReply where
  | forbidden (authDisabled : Bool)
  | answered (searches : List PlannedSearch)

/-- The searches whose hits `AppendHitsFromJSON` finds in the response: only the response of
`HandleSearch` has them at its top level. -/
def searchesOf (server : Server) (request : AuthorizedRequest) : List PlannedSearch :=
  if dispatch request.method request.path = some .search then
    match planSearch server request with
    | .ok (.search s) => [s]
    | _ => []
  else []

/-- A node answers a request that came with a token. The hop header keeps it from asking others. -/
def PeerNode.reply (node : PeerNode) (token : Bytes) (request : HttpRequest) : PeerReply :=
  match node.authenticate token with
  | .refused authDisabled => .forbidden authDisabled
  | .administrator =>
    .answered (searchesOf node.server { request with apiKey := none, embeddedFilters := [] })
  | .key key =>
    match authorizeKey node.server.catalog key request.method request.path with
    | none => .forbidden false
    | some filters =>
      .answered (searchesOf node.server
        { request with apiKey := some key, embeddedFilters := filters })

/-! ## Asking -/

/-- `BuildAuthHeaderValues`: the peer token, else the credentials the request came with. -/
def PeerNode.sentToken (node : PeerNode) (useSecondary : Bool) (callerToken : Bytes) : Bytes :=
  let selected := if useSecondary then node.secondaryToken else node.primaryToken
  if selected = [] then callerToken else selected

/-- `ExecutePeerRequestWithFallback`: after a refusal the secondary token, and then no
credentials if the node says that it does not take any. -/
def executePeerRequestWithFallback (node : PeerNode) (callerToken : Bytes) (request : HttpRequest) :
    PeerReply :=
  let first := node.reply (node.sentToken false callerToken) request
  let second :=
    match first with
    | .forbidden _ =>
        if node.secondaryToken ≠ [] then node.reply (node.sentToken true callerToken) request
        else first
    | .answered _ => first
  match second with
  | .forbidden true => node.reply [] request
  | reply => reply

/-- The parameters that `TryDistributedSearch` replaces to fetch one leading page. -/
def fanoutParams (params : Params) (perPage : Nat) : Params :=
  let kept := params.filter fun name _ =>
    !([lit "offset", lit "from", lit "limit", lit "size"].contains name)
  (kept.insert (lit "page") (lit "1")).insert (lit "per_page") (decimal perPage)

/-- The cluster as one search sees it: which nodes are selected for a request (the route
parameter, replicas, stale nodes and the deadline decide), how far a page reaches, and how paging is
rewritten in a JSON body. -/
structure Cluster where
  selected : HttpRequest → List PeerNode
  fanoutPerPage : HttpRequest → Nat
  rewriteBody : Bytes → Nat → Bytes

/-- `FanoutRequest`: the request as it is sent. Of an authorized request only the parsed fields
are left. -/
def Cluster.fanoutRequest (cluster : Cluster) (request : AuthorizedRequest) : HttpRequest :=
  let perPage := cluster.fanoutPerPage request.toHttpRequest
  { request.toHttpRequest with
    queryParams := fanoutParams request.queryParams perPage
    body :=
      if request.method = .post ∧ request.body ≠ [] then cluster.rewriteBody request.body perPage
      else request.body }

/-- The searches that other nodes run for a request and whose hits `TryDistributedSearch`
merges. -/
def Cluster.remoteSearches (cluster : Cluster) (callerToken : Bytes)
    (request : AuthorizedRequest) : List PlannedSearch :=
  (cluster.selected request.toHttpRequest).flatMap fun node =>
    match executePeerRequestWithFallback node callerToken (cluster.fanoutRequest request) with
    | .answered searches => searches
    | .forbidden _ => []

/-- The request that `HandleGlobalSearch` sends for one of its collections. -/
def collectionRequest (request : AuthorizedRequest) (collection : Bytes) (params : Params) :
    AuthorizedRequest :=
  { request with
    method := .get
    path := lit "/collections/" ++ collection ++ lit "/documents/search"
    body := []
    queryParams := params.filter fun name _ =>
      !([lit "collection", lit "collections", lit "distributed_collections"].contains name) }

/-- What is sent for a planned search: `HandleSearch` and `HandleMultiSearch` send the request
itself, `HandleGlobalSearch` a search in the one collection. -/
def forwardedRequest (request : AuthorizedRequest) (s : PlannedSearch) : AuthorizedRequest :=
  if dispatch request.method request.path = some .globalSearch then
    collectionRequest request s.collection s.query.params
  else request

/-! ## The filter of the key -/

def FilterImplies (text embedded : Bytes) : Prop :=
  ∀ (rt : FilterRuntime) (document : Document),
    matchesFilter rt text document = true → matchesFilter rt embedded document = true

variable {r : PlannedSearch}

/-- The hits of a search satisfy a filter, whatever the collection holds, exactly if the text that
is evaluated implies it. -/
theorem hits_satisfy_iff_implies (s : PlannedSearch) (embedded : Bytes) :
    (∀ (engine : Engine), ∀ hit ∈ s.hits engine,
      matchesFilter engine.runtime embedded hit.document = true) ↔
    FilterImplies s.query.filterBy embedded := by
  constructor
  · intro h rt document hpass
    -- a content that is the one document
    let engine : Engine :=
      { runtime := rt, retrieve := fun _ _ => [⟨[], document⟩], arrange := fun _ _ hits => hits
        arrange_subset := fun _ _ hits => List.Subset.refl hits }
    have hhit : (⟨[], document⟩ : SearchHit) ∈ s.hits engine := by
      unfold PlannedSearch.hits performComprehensiveSearch
      split
      · exact List.mem_singleton.mpr rfl
      · exact mem_applyFilters.mpr ⟨List.mem_singleton.mpr rfl, hpass⟩
    exact h engine _ hhit
  · intro h engine hit hh
    exact h engine.runtime hit.document (matchesFilter_of_mem_hits hh)

/-! ## What a node evaluates -/

theorem searchesOf_embedded {server : Server} {request : AuthorizedRequest}
    (h : r ∈ searchesOf server request) :
    r.embedded = request.embeddedFilters ∧
      r.query.filterBy = joinFilters r.callerFilter r.embedded := by
  unfold searchesOf at h
  split at h
  · split at h
    · rename_i s hplan
      rw [List.mem_singleton] at h
      subst h
      obtain ⟨collection, query, -, hfin⟩ := planSearch_eq_search.mp hplan
      obtain ⟨-, -, rfl⟩ := finishSearch_eq_ok.mp hfin
      exact ⟨rfl, rfl⟩
    · cases h
  · cases h

/-- The embedded filter that a node joins is that of the identity it takes the sender for. -/
theorem reply_embedded {node : PeerNode} {token : Bytes} {request : HttpRequest}
    {searches : List PlannedSearch} (h : node.reply token request = .answered searches)
    (hr : r ∈ searches) :
    r.query.filterBy = joinFilters r.callerFilter r.embedded ∧
      ((node.authenticate token = .administrator ∧ r.embedded = []) ∨
      ∃ key, node.authenticate token = .key key ∧ r.embedded = key.getEmbeddedFilters
        (scopeName node.server.catalog request.method request.path)) := by
  unfold PeerNode.reply at h
  split at h
  · cases h
  · rename_i hid
    obtain rfl := PeerReply.answered.inj h
    obtain ⟨hemb, hq⟩ := searchesOf_embedded hr
    exact ⟨hq, .inl ⟨hid, hemb⟩⟩
  · rename_i key hid
    split at h
    · cases h
    · rename_i filters hauth
      obtain rfl := PeerReply.answered.inj h
      obtain ⟨hemb, hq⟩ := searchesOf_embedded hr
      exact ⟨hq, .inr ⟨key, hid, hemb.trans (authorizeKey_eq_some hauth).2.2.2⟩⟩

/-- Whatever attempt is answered, it was one of the tokens that are tried. -/
theorem executePeerRequestWithFallback_answered {node : PeerNode} {callerToken : Bytes}
    {request : HttpRequest} {searches : List PlannedSearch}
    (h : executePeerRequestWithFallback node callerToken request = .answered searches) :
    ∃ token ∈ [node.sentToken false callerToken, node.sentToken true callerToken, []],
      node.reply token request = .answered searches := by
  unfold executePeerRequestWithFallback at h
  cases hfirst : node.reply (node.sentToken false callerToken) request with
  | answered found =>
    simp only [hfirst] at h
    exact ⟨_, by simp, hfirst.trans h⟩
  | forbidden d =>
    simp only [hfirst] at h
    by_cases hsec : node.secondaryToken ≠ []
    · rw [if_pos hsec] at h
      cases hsecond : node.reply (node.sentToken true callerToken) request with
      | answered found =>
        simp only [hsecond] at h
        exact ⟨_, by simp, hsecond.trans h⟩
      | forbidden d' =>
        cases d' with
        | false => simp [hsecond] at h
        | true =>
          simp only [hsecond] at h
          exact ⟨[], by simp, h⟩
    · rw [if_neg hsec] at h
      cases d with
      | false => simp at h
      | true => exact ⟨[], by simp, h⟩

theorem mem_remoteSearches {cluster : Cluster} {callerToken : Bytes} {request : AuthorizedRequest}
    :
    r ∈ cluster.remoteSearches callerToken request ↔
      ∃ node ∈ cluster.selected request.toHttpRequest, ∃ searches,
        executePeerRequestWithFallback node callerToken (cluster.fanoutRequest request) =
          .answered searches ∧ r ∈ searches := by
  unfold Cluster.remoteSearches
  rw [List.mem_flatMap]
  constructor
  · rintro ⟨node, hn, hr⟩
    split at hr
    · rename_i searches hreply
      exact ⟨node, hn, searches, hreply, hr⟩
    · cases hr
  · rintro ⟨node, hn, searches, hreply, hr⟩
    exact ⟨node, hn, by simpa only [hreply] using hr⟩

/-! ## The result -/

/-- Every hit that the other nodes send back for a request satisfies a filter, whatever they
hold. -/
def RemoteHitsSatisfy (cluster : Cluster) (callerToken : Bytes) (request : AuthorizedRequest)
    (embedded : Bytes) : Prop :=
  ∀ r ∈ cluster.remoteSearches callerToken request, ∀ engine : Engine, ∀ hit ∈ r.hits engine,
    matchesFilter engine.runtime embedded hit.document = true

def trustingCluster (document : Document) : Cluster where
  selected _ :=
    [{ primaryToken := lit "peer", secondaryToken := []
       authenticate := fun token =>
        if token = lit "peer" then .administrator else .refused false
       server := docsServer document }]
  fanoutPerPage _ := 100
  rewriteBody body _ := body

end Hlquery.Search
