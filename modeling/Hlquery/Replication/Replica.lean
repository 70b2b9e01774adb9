import Hlquery.Http.Routes
import Hlquery.Replication.Transport

/-!
# The replica

What a node does with a request that may come from its primary. Before a write reaches its handler
it passes two checks, and after a successful handler two records are brought up to date:

* `CheckReplicationOperationDedup` answers a write whose operation id was applied already with the
  response that was stored, and `FinalizeReplicationOperation` stores the response;
* `CheckReplicationResyncFence`, called by `CheckReadOnlyMode`, opens a fence when a resync session
  starts and refuses the writes of others while it stands; `FinalizeReplicationResyncRequest` takes
  it down when the session completes.

Both work on headers of the request. The handlers and the authorization of requests are parameters
of the node.
-/

set_option autoImplicit false

namespace Hlquery.Replication

open Bytes Http

/-! ## Requests as the replica reads them -/

def isHexDigit (b : UInt8) : Bool :=
  isDigit b || (65 ≤ b && b ≤ 70) || (97 ≤ b && b ≤ 102)

def hexDigitValue (b : UInt8) : UInt8 := if isDigit b then b - 48 else toLowerByte b - 87

/-- `UrlDecode` with `DecodePlusAsSpace` off. A null byte is not decoded, but its digits are gone.
The bound on the result is above what a head can hold. -/
def urlDecode : Bytes → Bytes
  | b :: x :: y :: rest =>
      if b == chr '%' && isHexDigit x && isHexDigit y then
        let value := hexDigitValue x * 16 + hexDigitValue y
        (if value = 0 then b else value) :: urlDecode rest
      else b :: urlDecode (x :: y :: rest)
  | b :: rest => b :: urlDecode rest
  | [] => []

def methodOf (word : Bytes) : Method :=
  if word = lit "GET" then .get
  else if word = lit "POST" then .post
  else if word = lit "PUT" then .put
  else if word = lit "DELETE" then .delete
  else if word = lit "PATCH" then .patch
  else if word = lit "OPTIONS" then .options
  else .other

variable (q : ReceivedRequest)

def requestMethod : Method := methodOf ((requestLine q.head).headD [])

/-- `Request.Path`: the second word without its query string, decoded. -/
def requestPath : Bytes :=
  urlDecode (((requestLine q.head).tail.headD []).takeWhile (· != chr '?'))

/-- `GetHeaderValueInsensitive` in headers that were parsed; the parser keeps names in lower case. -/
def receivedHeader (name : Bytes) : Bytes :=
  ((requestHeaders q.head)[name]?).getD []

/-- `GetReplicationOperationHeader`. -/
def replicationOperationHeader : Bytes :=
  trimBlanks (receivedHeader q (lit "x-hlq-replication-op"))

/-- `GetReplicationResyncSessionHeader`. -/
def replicationResyncSessionHeader : Bytes :=
  trimBlanks (receivedHeader q (lit "x-hlq-resync-session"))

/-- `GetReplicationResyncStageHeader`. -/
def replicationResyncStageHeader : Bytes :=
  toLower (trimBlanks (receivedHeader q (lit "x-hlq-resync-stage")))

/-- The searches that `IsMutatingRequestMethod` lets pass although they are posted. -/
def isPostedQuery : RouteAction → Bool
  | .documentSearch | .vectorSearch | .multiSearch | .globalSearch | .facetCounts
  | .exportDocuments | .maybeSuggest => true
  | _ => false

def isMutatingRequestMethod (method : Method) (path : Bytes) : Bool :=
  match method with
  | .post => !isPostedQuery (resolveHttpRoute .post path)
  | .put | .delete | .patch => true
  | _ => false

def isMutating : Bool :=
  isMutatingRequestMethod (requestMethod q) (requestPath q)

/-! ## The node -/

structure ReplicaConfig where
  replicaModeEnabled : Bool
  replicaAllowWrites : Bool
  /-- The tokens, first and second, of the configured slave and cluster nodes. -/
  peerTokens : List Bytes

def ReplicaConfig.readOnly (config : ReplicaConfig) : Bool :=
  config.replicaModeEnabled && !config.replicaAllowWrites

structure Response where
  status : Nat
  body : Bytes
deriving DecidableEq, Repr

def Response.isSuccess (r : Response) : Bool := 200 ≤ r.status && r.status < 300

/-- A node with the state `σ` of its storage. -/
structure Node (σ : Type) where
  config : ReplicaConfig
  /-- `AuthorizeHttpRequest`. -/
  authorizes : ReceivedRequest → Bool
  /-- `ProcessRequestWithAPI`. -/
  handle : σ → ReceivedRequest → σ × Response

/-- What the node keeps in its database beside the documents: the responses under
`replication_applied:` and the session of the fence. -/
structure ReplicaState (σ : Type) where
  applied : ByteMap Response
  resyncSession : Option Bytes
  store : σ

inductive Refusal where
  | unauthorized
  | missingResyncSession
  | resyncInProgress (activeSession : Bytes)
  | readOnlyReplica
deriving DecidableEq, Repr

def Refusal.status : Refusal → Nat
  | .unauthorized => 401
  | .missingResyncSession => 400
  | .resyncInProgress _ => 409
  | .readOnlyReplica => 403

/-- The text under `error`. -/
def Refusal.error : Refusal → Bytes
  | .unauthorized => lit "Unauthorized"
  | .missingResyncSession => lit "Invalid replication resync session"
  | .resyncInProgress _ => lit "Replica resync in progress"
  | .readOnlyReplica => lit "Read-only replica"

inductive Answer where
  | refused (why : Refusal)
  | replayed (stored : Response)
  | performed (response : Response)
deriving DecidableEq, Repr

def Answer.accepted : Answer → Bool
  | .refused _ => false
  | .replayed response | .performed response => response.isSuccess

def Answer.executed : Answer → Bool
  | .performed response => response.isSuccess
  | _ => false

/-! ## Who sends -/

def extractPeerAuthToken : Bytes :=
  let auth := trimBlanks (receivedHeader q (lit "authorization"))
  let apiKey := trimBlanks (receivedHeader q (lit "x-api-key"))
  let auth := if auth = [] ∧ apiKey ≠ [] then lit "Bearer " ++ apiKey else auth
  trimBlanks ((stripPrefix (lit "Bearer ") auth).getD auth)

def isAuthorizedReplicationHop (config : ReplicaConfig) (q : ReceivedRequest) : Bool :=
  let hop := toLower (receivedHeader q (lit "x-hlq-replication-hop"))
  let token := extractPeerAuthToken q
  (hop == lit "1" || hop == lit "true") && token ≠ [] && config.peerTokens.contains token

/-! ## The checks and the records -/

section Processing

variable {σ : Type} (node : Node σ)

variable (s : ReplicaState σ)

variable (q : ReceivedRequest)

/-- The response that is stored for the operation of the request, if there is one. -/
def checkReplicationOperationDedup : Option Response :=
  if isAuthorizedReplicationHop node.config q ∧ replicationOperationHeader q ≠ [] then
    s.applied[replicationOperationHeader q]?
  else none

def finalizeReplicationOperation
    (response : Response) : ReplicaState σ :=
  if isAuthorizedReplicationHop node.config q ∧ response.isSuccess ∧
      replicationOperationHeader q ≠ [] then
    { s with applied := s.applied.insert (replicationOperationHeader q) response }
  else s

/-- The fence, for a request of an authorized peer: a start puts it up for its own session. -/
def checkReplicationResyncFence :
    ReplicaState σ × Option Refusal :=
  let session := replicationResyncSessionHeader q
  if replicationResyncStageHeader q = lit "start" ∧ session = [] then
    (s, some .missingResyncSession)
  else
    let s := if replicationResyncStageHeader q = lit "start" then
      { s with resyncSession := some session } else s
    match s.resyncSession with
    | none => (s, none)
    | some active =>
        if active = [] ∨ active = session then (s, none)
        else (s, some (.resyncInProgress active))

def checkReadOnlyMode :
    ReplicaState σ × Option Refusal :=
  if !node.config.readOnly then (s, none)
  else if isAuthorizedReplicationHop node.config q then checkReplicationResyncFence s q
  else (s, some .readOnlyReplica)

def finalizeReplicationResyncRequest
    (response : Response) : ReplicaState σ :=
  if isAuthorizedReplicationHop node.config q ∧ response.isSuccess ∧
      replicationResyncStageHeader q = lit "complete" ∧ replicationResyncSessionHeader q ≠ [] ∧
      s.resyncSession = some (replicationResyncSessionHeader q) then
    { s with resyncSession := none }
  else s

def perform : ReplicaState σ × Answer :=
  let result := node.handle s.store q
  let s := finalizeReplicationOperation node { s with store := result.1 } q result.2
  (finalizeReplicationResyncRequest node s q result.2, .performed result.2)

def processNew : ReplicaState σ × Answer :=
  if isMutating q then
    match checkReadOnlyMode node s q with
    | (s, some why) => (s, .refused why)
    | (s, none) => perform node s q
  else perform node s q

/-- `ProcessRequest`. -/
def processRequest : ReplicaState σ × Answer :=
  if !node.authorizes q then (s, .refused .unauthorized)
  else
    match if isMutating q then checkReplicationOperationDedup node s q else none with
    | some stored => (s, .replayed stored)
    | none => processNew node s q

/-- A request of a peer, from the bytes on; one that cannot be parsed is answered with 400. -/
def receive (peer : Peer) (attempt : Attempt) (r : HttpRequest) :
    ReplicaState σ × Option Answer :=
  match parseHttpRequest (sendHttpRequest peer attempt r) with
  | none => (s, none)
  | some q => ((processRequest node s q).1, some (processRequest node s q).2)

end Processing

/-! ## What a replica reads in a request of a peer -/

def FromPeer (q : ReceivedRequest) : Prop :=
  ∃ peer attempt r, parseHttpRequest (sendHttpRequest peer attempt r) = some q

variable {q : ReceivedRequest}

theorem receive_of_parse {σ : Type} {node : Node σ} {s : ReplicaState σ} {peer : Peer}
    {attempt : Attempt} {r : HttpRequest}
    (h : parseHttpRequest (sendHttpRequest peer attempt r) = some q) :
    receive node s peer attempt r
      = ((processRequest node s q).1, some (processRequest node s q).2) := by
  unfold receive
  rw [h]

theorem FromPeer.receivedHeader_eq_nil (h : FromPeer q) {name : Bytes}
    (hname : name ∉ writtenNames) : receivedHeader q name = [] := by
  obtain ⟨peer, attempt, r, hparse⟩ := h
  unfold receivedHeader
  cases hget : (requestHeaders q.head)[name]? with
  | none => rfl
  | some value => exact absurd (arriving_header hparse hget) hname

theorem FromPeer.operation (h : FromPeer q) : replicationOperationHeader q = [] := by
  unfold replicationOperationHeader
  rw [h.receivedHeader_eq_nil (by decide)]
  rfl

theorem FromPeer.session (h : FromPeer q) : replicationResyncSessionHeader q = [] := by
  unfold replicationResyncSessionHeader
  rw [h.receivedHeader_eq_nil (by decide)]
  rfl

theorem FromPeer.stage (h : FromPeer q) : replicationResyncStageHeader q = [] := by
  unfold replicationResyncStageHeader
  rw [h.receivedHeader_eq_nil (by decide)]
  rfl

section FromPeer

variable {σ : Type} {node : Node σ} {s : ReplicaState σ} {q : ReceivedRequest}

section

variable (h : FromPeer q)
include h

/-- **The duplicate check finds nothing in a request of a peer**, whatever was applied before. -/
theorem FromPeer.dedup : checkReplicationOperationDedup node s q = none := by
  unfold checkReplicationOperationDedup
  rw [if_neg]
  intro hop
  exact hop.2 h.operation

theorem FromPeer.processRequest_eq : processRequest node s q
      = if node.authorizes q then processNew node s q else (s, .refused .unauthorized) := by
  have hnone : (if isMutating q then checkReplicationOperationDedup node s q else none) = none := by
    split
    · exact h.dedup
    · rfl
  unfold processRequest
  rw [hnone]
  cases node.authorizes q <;> rfl

theorem FromPeer.finalizeOperation (response : Response) :
    finalizeReplicationOperation node s q response = s := by
  unfold finalizeReplicationOperation
  rw [if_neg]
  intro hop
  exact hop.2.2 h.operation

theorem FromPeer.finalizeResync (response : Response) :
    finalizeReplicationResyncRequest node s q response = s := by
  unfold finalizeReplicationResyncRequest
  rw [if_neg]
  intro hop
  exact hop.2.2.2.1 h.session

/-- The fence for a request of a peer: it is never put up, and one that stands refuses. -/
theorem FromPeer.fence : checkReplicationResyncFence s q
      = match s.resyncSession with
        | none => (s, none)
        | some active => (s, if active = [] then none else some (.resyncInProgress active)) := by
  have hstart : replicationResyncStageHeader q ≠ lit "start" := by
    rw [h.stage]
    decide
  unfold checkReplicationResyncFence
  rw [if_neg (fun hs => hstart hs.1), if_neg hstart, h.session]
  simp only [or_self]
  cases s.resyncSession with
  | none => rfl
  | some active =>
    simp only
    split <;> rfl

/-- What the handler leaves is all that changes. -/
theorem FromPeer.perform_eq : perform node s q
      = ({ s with store := (node.handle s.store q).1 }, .performed (node.handle s.store q).2) := by
  unfold perform
  simp only
  rw [h.finalizeOperation, h.finalizeResync]

theorem FromPeer.checkReadOnlyMode_fst : (checkReadOnlyMode node s q).1 = s := by
  unfold checkReadOnlyMode
  split
  · rfl
  split
  · rw [h.fence]
    cases s.resyncSession <;> rfl
  · rfl

/-- **A request of a peer is refused as a write, or its handler runs and leaves the storage; nothing
else changes.** -/
theorem FromPeer.processNew_eq : processNew node s q
      = match if isMutating q then (checkReadOnlyMode node s q).2 else none with
        | some why => (s, .refused why)
        | none => ({ s with store := (node.handle s.store q).1 },
            .performed (node.handle s.store q).2) := by
  unfold processNew
  rw [← h.perform_eq]
  cases isMutating q with
  | false => rfl
  | true =>
    cases hc : checkReadOnlyMode node s q with
    | mk s' why =>
      have hfst : (checkReadOnlyMode node s q).1 = s := h.checkReadOnlyMode_fst
      rw [hc] at hfst
      obtain rfl : s' = s := hfst
      cases why <;> rfl

end

end FromPeer

end Hlquery.Replication
