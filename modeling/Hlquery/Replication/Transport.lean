import Hlquery.Http.Pipeline

/-!
# The request that a replica receives

A node talks to its peers through one function, `SendHttpRequest`, which writes an `HttpRequest` to
a socket. On the other side `ParseHttpRequest` (`Http.Connection`) takes it apart again. The writer
does not copy the headers of the request: it writes a fixed set of them, some only when there is a
value, and leaves out the rest.

`arriving_header` says which headers can be found in what the replica parses. The headers that carry
the operation id of a replicated write and the session and stage of a full resync are not among
them.

The values of headers were parsed from header lines and have no line end. For an `HttpRequest` the
same is assumed of the method and the path: a path with a line end would not arrive as the request
that was sent.
-/

set_option autoImplicit false

namespace Hlquery.Replication

open Bytes Http

/-! ## Texts without a line end -/

def OneLine (s : Bytes) : Prop := ∀ b ∈ s, isLineEnd b = false

instance (s : Bytes) : Decidable (OneLine s) := List.decidableBAll _ s

theorem oneLine_nil : OneLine [] := by decide

theorem oneLine_empty : ∀ name value : Bytes, (∅ : ByteMap Bytes)[name]? = some value →
    OneLine value := by
  intro name value h
  cases h

theorem OneLine.append {s t : Bytes} (hs : OneLine s) (ht : OneLine t) : OneLine (s ++ t) := by
  intro b hb
  cases List.mem_append.mp hb with
  | inl h => exact hs b h
  | inr h => exact ht b h

theorem OneLine.newline_not_mem {s : Bytes} (hs : OneLine s) : chr '\n' ∉ s := by
  intro h
  exact absurd (hs _ h) (by decide)

theorem oneLine_decimal (n : Nat) : OneLine (decimal n) := by
  intro b hb
  have hd : isDigit b = true := isDigit_of_mem_decimal hb
  have hr : b ≠ chr '\r' := by intro e; rw [e] at hd; exact absurd hd (by decide)
  have hn : b ≠ chr '\n' := by intro e; rw [e] at hd; exact absurd hd (by decide)
  simp [isLineEnd, hr, hn]

def NoSpace (s : Bytes) : Prop := ∀ b ∈ s, isSpace b = false

instance (s : Bytes) : Decidable (NoSpace s) := List.decidableBAll _ s

theorem NoSpace.oneLine {s : Bytes} (h : NoSpace s) : OneLine s := by
  intro b hb
  have hspace := h b hb
  have hr : b ≠ chr '\r' := by intro e; rw [e] at hspace; exact absurd hspace (by decide)
  have hn : b ≠ chr '\n' := by intro e; rw [e] at hspace; exact absurd hspace (by decide)
  simp [isLineEnd, hr, hn]

/-! ## Requests to a peer -/

structure Outgoing where
  method : Bytes
  path : Bytes
  queryParams : ByteMap Bytes
  headers : ByteMap Bytes
  body : Bytes
  headers_oneLine : ∀ name value : Bytes, headers[name]? = some value → OneLine value

/-- `HttpRequest`, as a handler of the primary holds it. -/
structure HttpRequest extends Outgoing where
  method_oneLine : OneLine method
  path_oneLine : OneLine path

/-- `GetHeaderValueInsensitive`: the name as it is written first, then in any case. -/
def headerValue (headers : ByteMap Bytes) (name : Bytes) : Bytes :=
  match headers[name]? with
  | some value => value
  | none =>
      match headers.toList.find? fun pair => toLower pair.1 = toLower name with
      | some pair => pair.2
      | none => []

/-- `Request.Headers[name] = value`. -/
def HttpRequest.setHeader (r : HttpRequest) (name value : Bytes) (h : OneLine value) :
    HttpRequest :=
  { r with
    headers := r.headers.insert name value
    headers_oneLine := ByteMap.forall_insert r.headers_oneLine h }

/-- `Request.Headers.erase(name)`. -/
def HttpRequest.eraseHeader (r : HttpRequest) (name : Bytes) : HttpRequest :=
  { r with
    headers := r.headers.erase name
    headers_oneLine := ByteMap.forall_erase r.headers_oneLine name }

theorem Outgoing.headerValue_oneLine (r : Outgoing) (name : Bytes) :
    OneLine (headerValue r.headers name) := by
  unfold headerValue
  cases hget : r.headers[name]? with
  | some value => exact r.headers_oneLine name value hget
  | none =>
    cases hfind : r.headers.toList.find? fun pair => toLower pair.1 = toLower name with
    | some pair =>
      have hmem := List.mem_of_find?_eq_some hfind
      exact r.headers_oneLine pair.1 pair.2 (Std.ExtTreeMap.mem_toList_iff_getElem?_eq_some.mp hmem)
    | none => decide

structure Peer where
  host : Bytes
  port : Nat
  primaryToken : Bytes
  secondaryToken : Bytes
  persistentTransport : Bool
  host_oneLine : OneLine host
  primaryToken_oneLine : OneLine primaryToken
  secondaryToken_oneLine : OneLine secondaryToken

/-- The attempts of `ExecutePeerRequestWithFallback`: with the first token, with the second one, and
without any. -/
inductive Attempt where
  | primary
  | secondary
  | withoutAuth
deriving DecidableEq, Repr

def Attempt.request (attempt : Attempt) (r : HttpRequest) : HttpRequest :=
  match attempt with
  | .withoutAuth =>
      (((r.eraseHeader (lit "Authorization")).eraseHeader (lit "authorization")).eraseHeader
        (lit "X-API-Key")).eraseHeader (lit "x-api-key")
  | _ => r

def Attempt.token (attempt : Attempt) (peer : Peer) : Bytes :=
  match attempt with
  | .primary => peer.primaryToken
  | .secondary => peer.secondaryToken
  | .withoutAuth => []

theorem Attempt.token_oneLine (attempt : Attempt) (peer : Peer) : OneLine (attempt.token peer) := by
  cases attempt with
  | primary => exact peer.primaryToken_oneLine
  | secondary => exact peer.secondaryToken_oneLine
  | withoutAuth => exact fun _ h => absurd h List.not_mem_nil

/-! ## The writer -/

def isUnreserved (b : UInt8) : Bool :=
  isAlnum b || b == chr '-' || b == chr '_' || b == chr '.' || b == chr '~'

def hexDigit (n : Nat) : UInt8 := (if n < 10 then n + 48 else n + 55).toUInt8

def urlEncode (s : Bytes) : Bytes :=
  s.flatMap fun b =>
    if isUnreserved b then [b]
    else [chr '%', hexDigit (b.toNat / 16), hexDigit (b.toNat % 16)]

def queryString (params : ByteMap Bytes) : Bytes :=
  [chr '&'].intercalate (params.toList.map fun p => urlEncode p.1 ++ lit "=" ++ urlEncode p.2)

/-- The path as it is written: what was decoded when the request was read is not encoded again. -/
def writtenPath (r : Outgoing) : Bytes :=
  let path := if r.path = [] then lit "/" else r.path
  let query := queryString r.queryParams
  if query = [] then path else path ++ lit "?" ++ query

variable (peer : Peer)

/-- `BuildAuthHeaderValues`: the API key and the authorization. -/
def authHeaderValues (attempt : Attempt) (r : Outgoing) : Bytes × Bytes :=
  let token := attempt.token peer
  if token = [] then
    (headerValue r.headers (lit "X-API-Key"), headerValue r.headers (lit "Authorization"))
  else (token, lit "Bearer " ++ token)

def headerLine (name value : Bytes) : Bytes := name ++ lit ": " ++ value

def headerLineIfPresent (name value : Bytes) : List Bytes :=
  if value = [] then [] else [headerLine name value]

/-- The lines behind the request line, in the order of `SendHttpRequest`. -/
def writtenHeaders (attempt : Attempt) (r : Outgoing) : List Bytes :=
  let auth := authHeaderValues peer attempt r
  let contentType := headerValue r.headers (lit "Content-Type")
  [headerLine (lit "Host") (peer.host ++ lit ":" ++ decimal peer.port),
    headerLine (lit "Connection")
      (if peer.persistentTransport then lit "keep-alive" else lit "close"),
    headerLine (lit "Accept") (lit "application/json"),
    headerLine (lit "X-HLQ-Distributed-Hop") (lit "1")] ++
  headerLineIfPresent (lit "X-HLQ-Replication-Hop")
    (headerValue r.headers (lit "X-HLQ-Replication-Hop")) ++
  headerLineIfPresent (lit "X-HLQ-Link-Ping") (headerValue r.headers (lit "X-HLQ-Link-Ping")) ++
  headerLineIfPresent (lit "X-API-Key") auth.1 ++
  headerLineIfPresent (lit "Authorization") auth.2 ++
  (if r.body = [] then [headerLine (lit "Content-Length") (lit "0")]
   else
     [headerLine (lit "Content-Type")
        (if contentType = [] then lit "application/json" else contentType),
      headerLine (lit "Content-Length") (decimal r.body.length)])

def lineBreak : Bytes := lit "\r\n"

def joinLines (lines : List Bytes) : Bytes := lines.flatMap (· ++ lineBreak)

def requestLineText (r : Outgoing) : Bytes :=
  r.method ++ lit " " ++ writtenPath r ++ lit " HTTP/1.1"

/-- `SendHttpRequest`, as far as it writes. -/
def writeRequest (attempt : Attempt) (r : Outgoing) : Bytes :=
  joinLines (requestLineText r :: writtenHeaders peer attempt r) ++ lineBreak ++ r.body

/-- `SendHttpRequest` in an attempt of `ExecutePeerRequestWithFallback`. -/
def sendHttpRequest (attempt : Attempt) (r : HttpRequest) : Bytes :=
  writeRequest peer attempt (attempt.request r).toOutgoing

/-! ## Every line is one line -/

theorem mem_urlEncode {b : UInt8} {s : Bytes} (hb : b ∈ urlEncode s) :
    isUnreserved b = true ∨ b = chr '%' := by
  have hhex : ∀ n < 16, isUnreserved (hexDigit n) = true := by decide
  obtain ⟨c, -, hc⟩ := List.mem_flatMap.mp hb
  split at hc
  · rename_i hu
    exact .inl (List.mem_singleton.mp hc ▸ hu)
  · have hlt := c.toNat_lt
    simp only [List.mem_cons, List.not_mem_nil, or_false] at hc
    rcases hc with rfl | rfl | rfl
    · exact .inr rfl
    · exact .inl (hhex _ (by omega))
    · exact .inl (hhex _ (by omega))

theorem noSpace_urlEncode (s : Bytes) : NoSpace (urlEncode s) := by
  have hun : ∀ c : UInt8, isUnreserved c = true ∨ c = chr '%' → isSpace c = false := by
    decide +kernel
  exact fun b hb => hun b (mem_urlEncode hb)

theorem NoSpace.append {s t : Bytes} (hs : NoSpace s) (ht : NoSpace t) : NoSpace (s ++ t) := by
  intro b hb
  rcases List.mem_append.mp hb with hb | hb
  · exact hs b hb
  · exact ht b hb

theorem noSpace_intercalate {sep : Bytes} (hsep : NoSpace sep) :
    ∀ {parts : List Bytes}, (∀ p ∈ parts, NoSpace p) → NoSpace (sep.intercalate parts)
  | [], _ => fun _ h => nomatch h
  | [p], h => by simpa using h p
  | p :: q :: parts, h => by
    rw [intercalate_cons_cons]
    refine ((h p (by simp)).append hsep).append (noSpace_intercalate hsep ?_)
    intro p' hp'
    exact h p' (List.mem_cons_of_mem _ hp')

theorem noSpace_queryString (params : ByteMap Bytes) : NoSpace (queryString params) := by
  refine noSpace_intercalate (by decide) ?_
  intro p hp
  obtain ⟨pair, -, rfl⟩ := List.mem_map.mp hp
  exact ((noSpace_urlEncode _).append (by decide)).append (noSpace_urlEncode _)

theorem oneLine_queryString (params : ByteMap Bytes) : OneLine (queryString params) :=
  (noSpace_queryString params).oneLine

variable {r : Outgoing}

theorem oneLine_writtenPath (h : OneLine r.path) : OneLine (writtenPath r) := by
  have hpath : OneLine (if r.path = [] then lit "/" else r.path) := by
    split
    · decide
    · exact h
  unfold writtenPath
  simp only
  split
  · exact hpath
  · exact (hpath.append (by decide)).append (oneLine_queryString _)

theorem oneLine_requestLineText (hmethod : OneLine r.method)
    (hpath : OneLine r.path) : OneLine (requestLineText r) :=
  ((hmethod.append (by decide)).append (oneLine_writtenPath hpath)).append (by decide)

/-! ## The headers that are written -/

def writtenNames : List Bytes :=
  [lit "host", lit "connection", lit "accept", lit "x-hlq-distributed-hop",
    lit "x-hlq-replication-hop", lit "x-hlq-link-ping", lit "x-api-key", lit "authorization",
    lit "content-type", lit "content-length"]

def IsWritten (line : Bytes) : Prop :=
  ∃ name value, line = headerLine name value ∧ OneLine value ∧ OneLine name ∧
    chr ':' ∉ name ∧ toLower (trimBlanks name) ∈ writtenNames

theorem isWritten_headerLine {name value : Bytes} (hv : OneLine value) (hn : OneLine name)
    (hc : chr ':' ∉ name) (hw : toLower (trimBlanks name) ∈ writtenNames) :
    IsWritten (headerLine name value) :=
  ⟨name, value, rfl, hv, hn, hc, hw⟩

theorem isWritten_headerLineIfPresent {name value line : Bytes} (hv : OneLine value)
    (hn : OneLine name) (hc : chr ':' ∉ name) (hw : toLower (trimBlanks name) ∈ writtenNames)
    (h : line ∈ headerLineIfPresent name value) : IsWritten line := by
  unfold headerLineIfPresent at h
  split at h
  · exact absurd h List.not_mem_nil
  · rw [List.mem_singleton.mp h]
    exact isWritten_headerLine hv hn hc hw

theorem oneLine_authHeaderValues (attempt : Attempt) (r : Outgoing) :
    OneLine (authHeaderValues peer attempt r).1 ∧ OneLine (authHeaderValues peer attempt r).2 := by
  unfold authHeaderValues
  simp only
  split
  · exact ⟨r.headerValue_oneLine _, r.headerValue_oneLine _⟩
  · have htoken := attempt.token_oneLine peer
    exact ⟨htoken, OneLine.append (by decide) htoken⟩

variable {attempt : Attempt}

theorem isWritten_of_mem {peer : Peer} {line : Bytes}
    (h : line ∈ writtenHeaders peer attempt r) : IsWritten line := by
  have hauth := oneLine_authHeaderValues peer attempt r
  have htype : OneLine (if headerValue r.headers (lit "Content-Type") = [] then
      lit "application/json" else headerValue r.headers (lit "Content-Type")) := by
    split
    · decide
    · exact r.headerValue_oneLine _
  have hconn : OneLine (if peer.persistentTransport then lit "keep-alive" else lit "close") := by
    split <;> decide
  have hhost : OneLine (peer.host ++ lit ":" ++ decimal peer.port) :=
    (peer.host_oneLine.append (by decide)).append (oneLine_decimal _)
  unfold writtenHeaders at h
  simp only [List.mem_append, List.mem_cons, List.not_mem_nil, or_false] at h
  rcases h with ((((h | h) | h) | h) | h) | h
  · rcases h with rfl | rfl | rfl | rfl
    · exact isWritten_headerLine hhost (by decide) (by decide) (by decide)
    · exact isWritten_headerLine hconn (by decide) (by decide) (by decide)
    · exact isWritten_headerLine (by decide) (by decide) (by decide) (by decide)
    · exact isWritten_headerLine (by decide) (by decide) (by decide) (by decide)
  · exact isWritten_headerLineIfPresent (r.headerValue_oneLine _) (by decide) (by decide)
      (by decide) h
  · exact isWritten_headerLineIfPresent (r.headerValue_oneLine _) (by decide) (by decide)
      (by decide) h
  · exact isWritten_headerLineIfPresent hauth.1 (by decide) (by decide) (by decide) h
  · exact isWritten_headerLineIfPresent hauth.2 (by decide) (by decide) (by decide) h
  split at h
  · rw [List.mem_singleton.mp h]
    exact isWritten_headerLine (by decide) (by decide) (by decide) (by decide)
  · simp only [List.mem_cons, List.not_mem_nil, or_false] at h
    rcases h with rfl | rfl
    · exact isWritten_headerLine htype (by decide) (by decide) (by decide)
    · exact isWritten_headerLine (oneLine_decimal _) (by decide) (by decide) (by decide)

/-! ## The lines that are parsed -/

theorem getlines_concat (a : Bytes) :
    getlines (chr '\n') (a ++ [chr '\n']) = a.splitOn (chr '\n') := by
  unfold getlines
  rw [List.splitOn_append_cons_self]
  simp

theorem getlines_append (a b : Bytes) : getlines (chr '\n') (a ++ chr '\n' :: b)
      = getlines (chr '\n') (a ++ [chr '\n']) ++ getlines (chr '\n') b := by
  have hne : b.splitOn (chr '\n') ≠ [] := List.splitOn_ne_nil _ _
  rw [getlines_concat]
  unfold getlines
  simp only
  rw [List.splitOn_append_cons_self, List.getLast?_append_of_ne_nil _ hne]
  split
  · rw [List.dropLast_append_of_ne_nil hne]
  · rfl

theorem getlines_line {line : Bytes} (h : chr '\n' ∉ line) (rest : Bytes) :
    getlines (chr '\n') (line ++ chr '\n' :: rest) = line :: getlines (chr '\n') rest := by
  rw [getlines_append, getlines_concat, List.splitOn_eq_singleton h]
  rfl

/-- The lines that were written come back, each with the carriage return of its line break. -/
theorem getlines_joinLines (rest : Bytes) : ∀ {lines : List Bytes}, (∀ l ∈ lines, OneLine l) →
    getlines (chr '\n') (joinLines lines ++ rest)
      = lines.map (· ++ [chr '\r']) ++ getlines (chr '\n') rest
  | [], _ => rfl
  | line :: lines, h => by
    have hline : chr '\n' ∉ line ++ [chr '\r'] := by
      intro hm
      rcases List.mem_append.mp hm with hm | hm
      · exact (h line List.mem_cons_self).newline_not_mem hm
      · exact absurd (List.mem_singleton.mp hm) (by decide)
    have hsplit : joinLines (line :: lines) ++ rest
        = (line ++ [chr '\r']) ++ chr '\n' :: (joinLines lines ++ rest) := by
      simp [joinLines, show lineBreak = [chr '\r', chr '\n'] from rfl]
    rw [hsplit, getlines_line hline,
      getlines_joinLines rest fun l hl => h l (List.mem_cons_of_mem _ hl)]
    rfl

theorem chopReturn_line (line : Bytes) : chopReturn (line ++ [chr '\r']) = line := by
  simp [chopReturn]

theorem mem_of_mem_takeWhile {α : Type} {p : α → Bool} {a y : α} {rest : List α}
    (hy : p y = false) : ∀ {xs g : List α}, g <+: xs ++ y :: rest → a ∈ g.takeWhile p → a ∈ xs
  | _, [], _, ha => absurd ha List.not_mem_nil
  | [], b :: g, hg, ha => by
    obtain ⟨rfl, -⟩ := List.cons_prefix_cons.mp hg
    rw [List.takeWhile_cons_of_neg (by simp [hy])] at ha
    exact absurd ha List.not_mem_nil
  | x :: xs, b :: g, hg, ha => by
    obtain ⟨rfl, hrest⟩ := List.cons_prefix_cons.mp hg
    rw [List.takeWhile_cons] at ha
    split at ha
    · rcases List.mem_cons.mp ha with rfl | ha
      · exact List.mem_cons_self
      · exact List.mem_cons_of_mem _ (mem_of_mem_takeWhile hy hrest ha)
    · exact absurd ha List.not_mem_nil

variable {lines : List Bytes}

/-- A head ends with a line feed, so its lines are the first lines of the whole text. -/
theorem getlines_head {first : Bytes} {body head rest : Bytes}
    (hlines : ∀ l ∈ first :: lines, OneLine l)
    (hhead : findHead (joinLines (first :: lines) ++ lineBreak ++ body) = some (head, rest)) :
    ∃ gs, getlines (chr '\n') head = (first ++ [chr '\r']) :: gs ∧
      gs <+: lines.map (· ++ [chr '\r']) ++ [chr '\r'] :: getlines (chr '\n') body := by
  have hall : getlines (chr '\n') (joinLines (first :: lines) ++ lineBreak ++ body)
      = (first ++ [chr '\r']) :: (lines.map (· ++ [chr '\r'])
        ++ [chr '\r'] :: getlines (chr '\n') body) := by
    have hblank := getlines_line (show chr '\n' ∉ [chr '\r'] by decide) body
    rw [List.append_assoc, getlines_joinLines _ hlines]
    exact congrArg (_ ++ ·) hblank
  obtain ⟨before, hends⟩ : ∃ before, head = before ++ [chr '\n'] := by
    obtain ⟨⟨l, r⟩, -, he⟩ := Option.map_eq_some_iff.mp hhead
    exact ⟨l ++ [chr '\r', chr '\n', chr '\r'], by rw [← (Prod.mk.inj he).1]; simp; rfl⟩
  have hpre : getlines (chr '\n') head ++ getlines (chr '\n') rest
      = (first ++ [chr '\r']) :: (lines.map (· ++ [chr '\r'])
        ++ [chr '\r'] :: getlines (chr '\n') body) := by
    rw [← hall, findHead_eq_some hhead, hends, List.append_assoc]
    exact (getlines_append before rest).symm
  cases hg : getlines (chr '\n') head with
  | nil =>
    rw [hends, getlines_concat] at hg
    exact absurd hg (List.splitOn_ne_nil _ _)
  | cons g gs =>
    rw [hg] at hpre
    obtain ⟨rfl, htail⟩ := List.cons.inj hpre
    exact ⟨gs, rfl, _, htail⟩

/-- The header lines of the head of what was written are among the lines behind the first. -/
theorem mem_of_mem_headerLines {first : Bytes} {body head rest line : Bytes}
    (hlines : ∀ l ∈ first :: lines, OneLine l)
    (hhead : findHead (joinLines (first :: lines) ++ lineBreak ++ body) = some (head, rest))
    (hline : line ∈ headerLines head) : line ∈ lines := by
  obtain ⟨gs, hg, hpre⟩ := getlines_head hlines hhead
  unfold headerLines at hline
  rw [hg] at hline
  obtain ⟨raw, hraw, rfl⟩ := List.mem_map.mp hline
  obtain ⟨l, hl, rfl⟩ := List.mem_map.mp (mem_of_mem_takeWhile (by simp) hpre hraw)
  rw [chopReturn_line]
  exact hl

theorem requestLine_head {first : Bytes} {body head rest : Bytes}
    (hlines : ∀ l ∈ first :: lines, OneLine l)
    (hhead : findHead (joinLines (first :: lines) ++ lineBreak ++ body) = some (head, rest)) :
    requestLine head = (first.splitOnP isSpace).filter (· ≠ []) := by
  obtain ⟨gs, hg, -⟩ := getlines_head hlines hhead
  unfold requestLine
  rw [hg, List.headD_cons, chopReturn_line]

theorem IsWritten.oneLine {line : Bytes} (h : IsWritten line) : OneLine line := by
  obtain ⟨name, value, rfl, hv, hn, -, -⟩ := h
  exact (hn.append (by decide)).append hv

theorem IsWritten.name {line key value : Bytes} (h : IsWritten line)
    (hs : splitFirst (chr ':') line = some (key, value)) :
    toLower (trimBlanks key) ∈ writtenNames := by
  obtain ⟨name, text, rfl, -, -, hc, hw⟩ := h
  have hsplit : headerLine name text = name ++ chr ':' :: (chr ' ' :: text) := by
    simp [headerLine, show lit ": " = [chr ':', chr ' '] from rfl]
  rw [hsplit, splitFirst_append hc] at hs
  cases hs
  exact hw

theorem oneLine_written {peer : Peer}
    (hmethod : OneLine r.method) (hpath : OneLine r.path) :
    ∀ l ∈ requestLineText r :: writtenHeaders peer attempt r, OneLine l := by
  intro l hl
  rcases List.mem_cons.mp hl with rfl | hl
  · exact oneLine_requestLineText hmethod hpath
  · exact (isWritten_of_mem hl).oneLine

variable {received : ReceivedRequest}

theorem findHead_of_parse {raw : Bytes}
    (h : parseHttpRequest raw = some received) :
    ∃ rest, findHead raw = some (received.head, rest) := by
  unfold parseHttpRequest at h
  split at h
  · cases h
  rename_i head rest hf
  split at h
  · cases h
  split at h
  · obtain ⟨body, -, rfl⟩ := Option.map_eq_some_iff.mp h
    exact ⟨rest, hf⟩
  · cases h

/-- **A replica finds in a request of a peer the headers that the writer knows, and no other.** -/
theorem arriving_header {peer : Peer} {r : HttpRequest}
    {name value : Bytes}
    (h : parseHttpRequest (sendHttpRequest peer attempt r) = some received)
    (hget : (requestHeaders received.head)[name]? = some value) : name ∈ writtenNames := by
  obtain ⟨rest, hhead⟩ := findHead_of_parse h
  have hlines : ∀ l ∈ requestLineText (attempt.request r).toOutgoing ::
      writtenHeaders peer attempt (attempt.request r).toOutgoing, OneLine l :=
    oneLine_written (attempt.request r).method_oneLine (attempt.request r).path_oneLine
  rcases parseHeaders_get hget with hempty | ⟨line, hline, key, text, hs, rfl, -⟩
  · cases hempty
  · exact (isWritten_of_mem (mem_of_mem_headerLines hlines hhead hline)).name hs

theorem arriving_requestLine {peer : Peer} {r : HttpRequest}
    (h : parseHttpRequest (sendHttpRequest peer attempt r) = some received) :
    requestLine received.head
      = ((requestLineText (attempt.request r).toOutgoing).splitOnP isSpace).filter (· ≠ []) := by
  obtain ⟨rest, hhead⟩ := findHead_of_parse h
  exact requestLine_head (oneLine_written (attempt.request r).method_oneLine
    (attempt.request r).path_oneLine) hhead

end Hlquery.Replication
