import Hlquery.Http.Connection

/-!
# A stream of requests is taken apart where it was put together

The senders' side first: a request on the wire has a head that ends with its empty line, passes the
framing check and declares the length of the body. A stream is the concatenation of such requests.

The three readers of `Http.Connection` agree on a head that is *plain*: the first `content-length:`
in it is that of its `Content-Length` header, and no header line is empty. For streams of requests
with plain heads, `processed_isPrefix` says that whatever the reads are, the connection hands out
the first requests of the stream, and `processed_eq` that it hands out all of them when the limits
are kept and the connection is not given up before the last.

The loop and the read event are each taken apart once (`processLoop_succ`, `onEventHandlerRead_cases`);
everything else is induction over them.
-/

set_option autoImplicit false

namespace Hlquery.Http

open Bytes

/-! ## Requests on the wire -/

/-- The value of a `Content-Length` header line. -/
def contentLengthValue (line : Bytes) : Option Bytes :=
  (splitFirst (chr ':') line).bind fun nv =>
    if toLower (trimBlanks nv.1) = lit "content-length" then some (trimBlanks nv.2) else none

/-- The `Content-Length` header of a head that passes the framing check: it has one at most. -/
def contentLength (head : Bytes) : Option Bytes :=
  ((framingLines head).filterMap contentLengthValue).head?

/-- The length of the body that a head declares: a number, or nothing for an empty body. -/
def declaredLength (head : Bytes) : Option Nat :=
  match contentLength head with
  | none => some 0
  | some value => if value ≠ [] ∧ value.all isDigit then some (digitsValue value) else none

structure WireRequest extends ReceivedRequest where
  ends : findHead head = some (head, [])
  framed : hasValidRequestFramingHeaders head = true
  line : 3 ≤ (requestLine head).length
  length : declaredLength head = some body.length

variable (r : WireRequest)

def WireRequest.bytes : Bytes := r.head ++ r.body

def stream (rs : List WireRequest) : Bytes := rs.flatMap WireRequest.bytes

@[simp] theorem stream_nil : stream [] = [] := rfl

@[simp] theorem stream_cons (rs : List WireRequest) :
    stream (r :: rs) = r.head ++ (r.body ++ stream rs) := by
  simp [stream, WireRequest.bytes]

theorem stream_append (rs rs' : List WireRequest) :
    stream (rs ++ rs') = stream rs ++ stream rs' := by
  simp [stream]

structure PlainHead (head : Bytes) : Prop where
  mention : lengthText head = contentLength head
  lines : [] ∉ headerLines head

def WireRequest.withinLimits : Bool :=
  r.head.length ≤ httpMaxHeaderSize && r.body.length ≤ httpMaxRequestSize &&
    (contentLength r.head).all fun value => value.length ≤ 20

/-! ## The head in front of a buffer -/

theorem findHead_eq_some {s head rest : Bytes} (h : findHead s = some (head, rest)) :
    s = head ++ rest := by
  obtain ⟨⟨l, r⟩, hs, he⟩ := Option.map_eq_some_iff.mp h
  cases he
  exact splitOnce_eq_some hs

theorem findHead_append {s head rest : Bytes} (h : findHead s = some (head, rest)) (t : Bytes) :
    findHead (s ++ t) = some (head, rest ++ t) := by
  obtain ⟨⟨l, r⟩, hs, he⟩ := Option.map_eq_some_iff.mp h
  cases he
  unfold findHead
  rw [splitOnce_append t hs]
  rfl

theorem WireRequest.findHead_append (t : Bytes) :
    findHead (r.head ++ t) = some (r.head, t) := Http.findHead_append r.ends t

theorem WireRequest.head_ne_nil : r.head ≠ [] := by
  intro h
  have hends := r.ends
  rw [h] at hends
  exact absurd hends (by decide)

/-- The head in front of a buffer that a stream begins with is the head of the first request. -/
theorem head_of_stream {buffer future head tail : Bytes} {rest : List WireRequest}
    (hs : buffer ++ future = stream rest) (h : findHead buffer = some (head, tail)) :
    ∃ r rs, rest = r :: rs ∧ head = r.head ∧ tail ++ future = r.body ++ stream rs := by
  have happ := findHead_append h future
  rw [hs] at happ
  cases rest with
  | nil =>
    have hnil : findHead (stream []) = none := by decide
    cases happ
  | cons r rs =>
    rw [stream_cons, r.findHead_append] at happ
    obtain ⟨rfl, ht⟩ := Prod.mk.inj (Option.some.inj happ)
    exact ⟨r, rs, rfl, rfl, ht.symm⟩

theorem length_lt_of_no_head {buffer future : Bytes} {r : WireRequest} {rs : List WireRequest}
    (hs : buffer ++ future = stream (r :: rs)) (h : findHead buffer = none) :
    buffer.length < r.bytes.length := by
  by_contra hlen
  have hle : r.head.length ≤ buffer.length := by
    have : r.bytes.length = r.head.length + r.body.length := List.length_append
    omega
  rw [stream_cons] at hs
  obtain ⟨t, ht⟩ := List.prefix_of_prefix_length_le
    (List.prefix_append r.head (r.body ++ stream rs)) (hs ▸ List.prefix_append buffer future) hle
  rw [← ht, r.findHead_append] at h
  cases h

/-! ## The readers agree on a plain head -/

theorem trimRight_of_digits {v : Bytes} (h : v.all isDigit = true) : trimRight v = v := by
  have hb : ∀ b : UInt8, isDigit b = true → isBlank b = false := by
    intro b hd
    unfold isDigit at hd
    unfold isBlank
    simp only [Bool.and_eq_true, decide_eq_true_eq] at hd
    have h32 : b ≠ chr ' ' := by intro e; rw [e] at hd; exact absurd hd.1 (by decide)
    have h9 : b ≠ chr '\t' := by intro e; rw [e] at hd; exact absurd hd.1 (by decide)
    simp [h32, h9]
  unfold trimRight
  have hdrop : v.reverse.dropWhile isBlank = v.reverse := by
    cases hv : v.reverse with
    | nil => rfl
    | cons b bs =>
      have hmem : b ∈ v := by
        rw [← List.mem_reverse, hv]
        exact List.mem_cons_self ..
      exact List.dropWhile_cons_of_neg (by simp [hb b (List.all_eq_true.mp h b hmem)])
  rw [hdrop, List.reverse_reverse]

/-- What a head declares: nothing and no body, or a number that is the length of the body. -/
theorem WireRequest.contentLength_cases :
    (contentLength r.head = none ∧ r.body.length = 0) ∨
      ∃ value, contentLength r.head = some value ∧ value ≠ [] ∧ value.all isDigit = true ∧
        digitsValue value = r.body.length := by
  have hl := r.length
  unfold declaredLength at hl
  cases hc : contentLength r.head with
  | none =>
    rw [hc] at hl
    exact .inl ⟨rfl, (Option.some.inj hl).symm⟩
  | some value =>
    rw [hc] at hl
    simp only at hl
    split at hl
    · rename_i hv
      exact .inr ⟨value, rfl, hv.1, hv.2, Option.some.inj hl⟩
    · cases hl

theorem fromChars_of_digits {v : Bytes} (hne : v ≠ []) (hd : v.all isDigit = true) :
    fromChars v = if digitsValue v < 2 ^ 64 then some (digitsValue v) else none := by
  unfold fromChars
  simp [hne, hd]

/-- **The loop takes the body that the head declares**, or refuses it. -/
theorem WireRequest.bodyLength_eq (hp : PlainHead r.head) : bodyLength r.head =
      if r.body.length ≤ httpMaxRequestSize then some r.body.length else none := by
  unfold bodyLength
  rw [hp.mention]
  rcases r.contentLength_cases with ⟨hc, hb⟩ | ⟨value, hc, hne, hd, hv⟩
  · simp [hc, hb]
  rw [hc]
  simp only
  rw [fromChars_of_digits hne hd, hv]
  have hmax : httpMaxRequestSize < 2 ^ 64 := by decide
  by_cases hle : r.body.length ≤ httpMaxRequestSize
  · rw [if_pos (by omega), if_pos hle]
    simp [Nat.not_lt.mpr hle]
  · split
    · simp [Nat.lt_of_not_le hle]
    · rfl

theorem WireRequest.readDecision_eq (hp : PlainHead r.head)
    (hlim : r.withinLimits = true) (rest : Bytes) :
    readDecision r.head rest = if r.body.length ≤ rest.length then .process else .wait := by
  simp only [WireRequest.withinLimits, Bool.and_eq_true, decide_eq_true_eq] at hlim
  unfold readDecision
  rw [hp.mention]
  rcases r.contentLength_cases with ⟨hc, hb⟩ | ⟨value, hc, hne, hd, hv⟩
  · simp [hc, hb]
  have hlen : value.length ≤ 20 := by simpa [hc] using hlim.2
  have hmax : httpMaxRequestSize < 2 ^ 64 := by decide
  rw [hc]
  simp only [trimRight_of_digits hd]
  rw [if_neg (by omega), if_neg (by simp [hne, hd]), fromChars_of_digits hne hd, hv,
    if_pos (by omega)]
  simp only
  rw [if_neg (by omega)]

theorem parseHeaders_get {k v : Bytes} :
    ∀ {lines : List Bytes} {count : Nat} {headers : ByteMap Bytes},
      (parseHeaders count headers lines)[k]? = some v →
        headers[k]? = some v ∨ ∃ line ∈ lines, ∃ key value,
          splitFirst (chr ':') line = some (key, value) ∧
            toLower (trimBlanks key) = k ∧ trimBlanks value = v
  | [], _, _, h => .inl h
  | line :: lines, count, headers, h => by
    have hempty : ∀ {p : Prop}, (∅ : ByteMap Bytes)[k]? = some v → p := fun h' =>
      nomatch h'
    have later : ∀ {count' : Nat} {headers' : ByteMap Bytes},
        (parseHeaders count' headers' lines)[k]? = some v →
        headers'[k]? = some v ∨ ∃ line' ∈ line :: lines, ∃ key value,
          splitFirst (chr ':') line' = some (key, value) ∧
            toLower (trimBlanks key) = k ∧ trimBlanks value = v := by
      intro count' headers' h'
      rcases parseHeaders_get h' with h' | ⟨line', hl, hr⟩
      · exact .inl h'
      · exact .inr ⟨line', List.mem_cons_of_mem _ hl, hr⟩
    unfold parseHeaders at h
    split at h
    · exact hempty h
    split at h
    · exact later h
    rename_i key value hs
    simp only at h
    split at h
    · exact hempty h
    split at h
    · exact hempty h
    split at h
    · exact .inl h
    split at h
    · exact hempty h
    rcases later h with hm | hr
    · rw [ByteMap.get_insert] at hm
      split at hm
      · rename_i hk
        exact .inr ⟨line, List.mem_cons_self .., key, value, hs, hk.symm, Option.some.inj hm⟩
      · exact .inl hm
    · exact .inr hr

theorem framingLines_eq_headerLines {head : Bytes} (h : [] ∉ headerLines head) :
    framingLines head = headerLines head := by
  unfold framingLines
  unfold headerLines at h ⊢
  rw [← List.map_tail]
  revert h
  induction (getlines (chr '\n') head).tail with
  | nil => intro _; rfl
  | cons line lines ih =>
    intro h
    by_cases hline : line = [chr '\r']
    · subst hline
      rfl
    · have htake : (line :: lines).takeWhile (· ≠ [chr '\r'])
          = line :: lines.takeWhile (· ≠ [chr '\r']) := by
        simp [hline]
      rw [htake, List.map_cons, List.mem_cons, not_or] at h
      have hchop : chopReturn line ≠ [] := fun e => h.1 e.symm
      rw [htake, List.map_cons, List.map_cons, ← ih h.2]
      simp [hchop]

/-- The parser finds no other `Content-Length` than the framing check. -/
theorem requestHeaders_contentLength {head value : Bytes}
    (hf : hasValidRequestFramingHeaders head = true) (hl : [] ∉ headerLines head)
    (h : (requestHeaders head)[lit "content-length"]? = some value) :
    contentLength head = some value := by
  rcases parseHeaders_get h with h | ⟨line, hmem, key, value', hs, hk, hv⟩
  · cases h
  rw [← framingLines_eq_headerLines hl] at hmem
  have hval : contentLengthValue line = some value := by
    simp [contentLengthValue, hs, hk, hv]
  have hin : value ∈ (framingLines head).filterMap contentLengthValue :=
    List.mem_filterMap.mpr ⟨line, hmem, hval⟩
  -- the framing check has counted the lines whose values these are
  have hcount : ((framingLines head).filterMap contentLengthValue).length ≤ 1 := by
    simp only [hasValidRequestFramingHeaders, Bool.and_eq_true, decide_eq_true_eq] at hf
    refine Nat.le_trans (Nat.le_of_eq ?_) hf.2
    rw [List.length_filterMap_eq_countP, List.count, List.countP_map]
    refine List.countP_congr fun l _ => ?_
    cases hl : splitFirst (chr ':') l with
    | none => simp [contentLengthValue, headerName, hl]
    | some nv =>
      by_cases hn : toLower (trimBlanks nv.1) = lit "content-length" <;>
        simp [contentLengthValue, headerName, hl, hn]
  unfold contentLength
  generalize (framingLines head).filterMap contentLengthValue = values at hin hcount
  match values, hin, hcount with
  | [v], hin, _ => rw [List.mem_singleton.mp hin]; rfl
  | _ :: _ :: _, _, hcount => exact nomatch hcount

theorem stoullAll_of_digits {v : Bytes} (hne : v ≠ []) (hd : v.all isDigit = true)
    (hlt : digitsValue v < 2 ^ 64) : stoullAll v = some (digitsValue v) := by
  have hall := List.all_eq_true.mp hd
  unfold stoullAll
  rw [splitSign_of_digits hall, if_pos hd, stoull_of_digits hne hall hlt, Option.map_some,
    Nat.toUInt64_eq, UInt64.toNat_ofNat', Nat.mod_eq_of_lt hlt]

/-- The parser takes the whole body of a request that was cut out as its head declares. -/
theorem WireRequest.takeBody_of_lines (hl : [] ∉ headerLines r.head)
    (hlt : r.body.length < 2 ^ 64) : takeBody r.head r.body = some r.body := by
  unfold takeBody
  cases hc : (requestHeaders r.head)[lit "content-length"]? with
  | none => rfl
  | some value =>
    have hcl := requestHeaders_contentLength r.framed hl hc
    rcases r.contentLength_cases with ⟨hn, -⟩ | ⟨value', hv', hne, hd, hv⟩
    · rw [hn] at hcl
      cases hcl
    · rw [hv'] at hcl
      cases hcl
      simp only
      rw [stoullAll_of_digits hne hd (by omega), hv, Option.bind_some]
      split
      · rfl
      · rw [if_pos (Nat.mod_le _ _), List.take_length]

theorem WireRequest.takeBody_eq (hp : PlainHead r.head)
    (hmax : r.body.length ≤ httpMaxRequestSize) : takeBody r.head r.body = some r.body := by
  have hlt : httpMaxRequestSize < 2 ^ 64 := by decide
  exact r.takeBody_of_lines hp.lines (by omega)

/-- **The text of a request parses to the request.** -/
theorem WireRequest.parseHttpRequest_eq (hp : PlainHead r.head)
    (hhead : r.head.length ≤ httpMaxHeaderSize) (hmax : r.body.length ≤ httpMaxRequestSize) :
    parseHttpRequest (r.head ++ r.body) = some r.toReceivedRequest := by
  unfold parseHttpRequest
  rw [r.findHead_append]
  simp only
  rw [if_neg (by omega), if_pos (by simp [r.framed, r.line]), r.takeBody_eq hp hmax]
  rfl

/-! ## One round of the loop -/

section Loop

variable (admits : Admission)

variable (request : ReceivedRequest)

@[simp] theorem answer_processed (c : Connection) :
    (answer admits request c).processed = c.processed ++ [request] := by
  unfold answer
  by_cases h : admits c.processed.length request <;> simp [h]

@[simp] theorem answer_requestBuffer (c : Connection) :
    (answer admits request c).requestBuffer = c.requestBuffer := by
  unfold answer
  by_cases h : admits c.processed.length request <;> simp [h]

@[simp] theorem answer_isOpen (c : Connection) :
    (answer admits request c).isOpen = c.isOpen := by
  unfold answer
  by_cases h : admits c.processed.length request <;> simp [h]

def continueLoop (fuel : Nat) (c : Connection) : Connection :=
  if !c.keepAlive then c.close
  else if httpMaxRequestsPerConnection ≤ c.requestsProcessed && c.requestBuffer.isEmpty then c
  else processLoop admits fuel c

/-- The buffer does not hold the first of the remaining requests as a whole. -/
def Waiting (buffer : Bytes) (rest : List WireRequest) : Prop :=
  ∀ r ∈ rest.head?, buffer.length < r.bytes.length

variable {rs : List WireRequest} {future : Bytes} {c : Connection} {rest : List WireRequest}
  {reads : List Bytes}

/-- **A round on a stream of plain requests** waits for the rest of a request, gives up on one that
breaks a limit, or takes the first request out of the buffer. -/
theorem processLoop_succ (fuel : Nat) (hplain : ∀ r ∈ rest, PlainHead r.head)
    (hs : c.requestBuffer ++ future = stream rest) :
    (processLoop admits (fuel + 1) c = c ∧ Waiting c.requestBuffer rest) ∨
      (processLoop admits (fuel + 1) c = c.close ∧ ∃ r ∈ rest, r.withinLimits = false) ∨
      ∃ r rs buffer, rest = r :: rs ∧ buffer ++ future = stream rs ∧
        buffer.length < c.requestBuffer.length ∧
        processLoop admits (fuel + 1) c = continueLoop admits fuel
            (answer admits r.toReceivedRequest { c with requestBuffer := buffer }) := by
  unfold processLoop
  cases hh : findHead c.requestBuffer with
  | none =>
    refine .inl ⟨rfl, ?_⟩
    cases rest with
    | nil => intro r hr; cases hr
    | cons r rs =>
      intro r' hr
      obtain rfl : r = r' := by simpa using hr
      exact length_lt_of_no_head hs hh
  | some ht =>
    obtain ⟨head, tail⟩ := ht
    obtain ⟨r, rs, rfl, rfl, htail⟩ := head_of_stream hs hh
    have hp := hplain r (List.mem_cons_self ..)
    have hbuf := congrArg List.length (findHead_eq_some hh)
    have hpos := List.length_pos_iff.mpr r.head_ne_nil
    rw [List.length_append] at hbuf
    simp only
    by_cases hhead : httpMaxHeaderSize < r.head.length
    · rw [if_pos hhead]
      refine .inr (.inl ⟨rfl, r, List.mem_cons_self .., ?_⟩)
      simp [WireRequest.withinLimits, Nat.not_le.mpr hhead]
    · rw [if_neg hhead, if_neg (by simp [r.framed]), r.bodyLength_eq hp]
      by_cases hmax : r.body.length ≤ httpMaxRequestSize
      · simp only [if_pos hmax]
        by_cases hlen : tail.length < r.body.length
        · rw [if_pos hlen]
          refine .inl ⟨rfl, ?_⟩
          intro r' hr
          obtain rfl : r = r' := by simpa using hr
          rw [hbuf, WireRequest.bytes, List.length_append]
          omega
        · rw [if_neg hlen]
          -- the body is what stands at the front of the tail
          have hle : r.body.length ≤ tail.length := by omega
          have htake : tail.take r.body.length = r.body := by
            rw [← List.take_append_of_le_length hle, htail, List.take_left]
          have hdrop : tail.drop r.body.length ++ future = stream rs := by
            rw [← List.drop_append_of_le_length hle, htail, List.drop_left]
          refine .inr (.inr ⟨r, rs, tail.drop r.body.length, rfl, hdrop, ?_, ?_⟩)
          · rw [List.length_drop]
            omega
          · rw [htake, processSingleRequest, r.parseHttpRequest_eq hp (by omega) hmax]
            rfl
      · rw [if_neg hmax]
        refine .inr (.inl ⟨rfl, r, List.mem_cons_self .., ?_⟩)
        simp [WireRequest.withinLimits, hmax]

/-! ## Nothing but the first requests of the stream -/

/-- How far a connection is in a stream: what it has processed is the beginning of it, and while it
is open its buffer and the bytes to come are the rest. -/
def InStream (rs : List WireRequest) (future : Bytes) (c : Connection) : Prop :=
  ∃ done rest, rs = done ++ rest ∧ c.processed = done.map WireRequest.toReceivedRequest ∧
    (c.isOpen = true → c.requestBuffer ++ future = stream rest)

theorem InStream.close (h : InStream rs future c) : InStream rs future c.close := by
  obtain ⟨done, rest, hrs, hd, -⟩ := h
  exact ⟨done, rest, hrs, hd, fun ho => absurd ho (by simp [Connection.close])⟩

/-- The request that a round has taken out of the buffer is the next of the stream. -/
theorem InStream.answer {done : List WireRequest} {r : WireRequest} (hrs : rs = done ++ r :: rest)
    (hd : c.processed = done.map WireRequest.toReceivedRequest)
    (hs : c.requestBuffer ++ future = stream rest) :
    InStream rs future (answer admits r.toReceivedRequest c) :=
  ⟨done ++ [r], rest, by simp [hrs], by simp [hd], fun _ => by simpa using hs⟩

theorem processLoop_inStream (hplain : ∀ r ∈ rs, PlainHead r.head) :
    ∀ {fuel : Nat} {c : Connection}, InStream rs future c → c.isOpen = true →
      InStream rs future (processLoop admits fuel c)
  | 0, _, h, _ => h
  | fuel + 1, c, h, ho => by
    obtain ⟨done, rest, hrs, hd, hs⟩ := id h
    have hplain' : ∀ r ∈ rest, PlainHead r.head := fun r hr => hplain r (by simp [hrs, hr])
    rcases processLoop_succ admits fuel hplain' (hs ho) with
      ⟨he, -⟩ | ⟨he, -⟩ | ⟨r, rest', buffer, rfl, hs', -, he⟩
    · rw [he]; exact h
    · rw [he]; exact h.close
    rw [he]
    have hnext := InStream.answer admits (c := { c with requestBuffer := buffer }) hrs hd hs'
    unfold continueLoop
    split
    · exact hnext.close
    split
    · exact hnext
    · exact processLoop_inStream hplain hnext (by simpa using ho)

/-- What a read event does with an open connection: give it up, wait, or run the loop. -/
theorem onEventHandlerRead_cases (c : Connection) (bytes : Bytes) (ho : c.isOpen = true) :
    onEventHandlerRead admits c bytes = c.close ∨ onEventHandlerRead admits c bytes
        = Connection.close { c with requestBuffer := c.requestBuffer ++ bytes } ∨
      onEventHandlerRead admits c bytes = { c with requestBuffer := c.requestBuffer ++ bytes } ∨
      onEventHandlerRead admits c bytes =
        processMultipleRequests admits { c with requestBuffer := c.requestBuffer ++ bytes } := by
  unfold onEventHandlerRead
  rw [if_neg (by simp [ho])]
  split
  · exact .inl rfl
  split
  · exact .inl rfl
  simp only
  split
  · exact .inr (.inr (.inl rfl))
  split
  · exact .inr (.inl rfl)
  split
  · exact .inr (.inl rfl)
  split
  · exact .inr (.inl rfl)
  · exact .inr (.inr (.inl rfl))
  · exact .inr (.inr (.inr rfl))

theorem onEventHandlerRead_inStream {bytes : Bytes} (hplain : ∀ r ∈ rs, PlainHead r.head)
    (h : InStream rs (bytes ++ future) c) :
    InStream rs future (onEventHandlerRead admits c bytes) := by
  obtain ⟨done, rest, hrs, hd, hs⟩ := h
  cases ho : c.isOpen with
  | false =>
    have he : onEventHandlerRead admits c bytes = c := by simp [onEventHandlerRead, ho]
    rw [he]
    exact ⟨done, rest, hrs, hd, fun ho' => absurd ho' (by simp [ho])⟩
  | true =>
    have hnext : InStream rs future { c with requestBuffer := c.requestBuffer ++ bytes } :=
      ⟨done, rest, hrs, hd, fun _ => by simpa using hs ho⟩
    rcases onEventHandlerRead_cases admits c bytes ho with he | he | he | he
    · rw [he]
      exact ⟨done, rest, hrs, hd, fun ho' => absurd ho' (by simp [Connection.close])⟩
    · rw [he]; exact hnext.close
    · rw [he]; exact hnext
    · rw [he]; exact processLoop_inStream admits hplain hnext ho

theorem foldl_inStream (hplain : ∀ r ∈ rs, PlainHead r.head) :
    ∀ (reads : List Bytes) {c : Connection}, InStream rs reads.flatten c →
      InStream rs [] (reads.foldl (onEventHandlerRead admits) c)
  | [], _, h => h
  | _ :: reads, _, h => foldl_inStream hplain reads (onEventHandlerRead_inStream admits hplain h)

theorem inStream_new (h : reads.flatten = stream rs) : InStream rs reads.flatten .new :=
  ⟨[], rs, rfl, rfl, fun _ => h⟩

/-- **However the stream is read, the connection hands out its first requests**, as they were sent:
no part of a body is taken for a request, and none is left out. -/
theorem processed_isPrefix (hplain : ∀ r ∈ rs, PlainHead r.head) (h : reads.flatten = stream rs) :
    (receive admits reads).processed <+: rs.map WireRequest.toReceivedRequest := by
  obtain ⟨done, rest, hrs, hd, -⟩ := foldl_inStream admits hplain reads (inStream_new h)
  unfold receive
  rw [hd, hrs, List.map_append]
  exact List.prefix_append ..

/-! ## All of the stream -/

/-- The connection is kept up to the last of the requests: after each one before it the last request
that was admitted wants that, and the number of those admitted is below the limit. -/
def staysOpen : Nat → Bool → Nat → List ReceivedRequest → Bool
  | _, _, _, [] => true
  | n, alive, count, r :: rs =>
      rs.isEmpty ||
        (let alive := if admits n r then wantsKeepAlive r.head else alive
         let count := if admits n r then count + 1 else count
         alive && count < httpMaxRequestsPerConnection && staysOpen (n + 1) alive count rs)

/-- The number of bytes, of the first `n` of a stream, that belong to a request still incomplete. -/
def pendingLength : List WireRequest → Nat → Nat
  | [], n => n
  | r :: rs, n => if r.bytes.length ≤ n then pendingLength rs (n - r.bytes.length) else n

/-- Every read fits into the buffer behind what is there of an incomplete request. -/
def fitsBuffer (rs : List WireRequest) : Nat → List Bytes → Bool
  | _, [] => true
  | n, bytes :: reads =>
      pendingLength rs n < httpMaxRequestSize &&
        pendingLength rs n + bytes.length ≤ httpMaxRequestSize &&
        fitsBuffer rs (n + bytes.length) reads

theorem pendingLength_append (rest : List WireRequest) (k : Nat) : ∀ done : List WireRequest,
      pendingLength (done ++ rest) ((stream done).length + k) = pendingLength rest k
  | [] => by simp
  | r :: done => by
    have hlen : (stream (r :: done)).length = r.bytes.length + (stream done).length := by
      simp [WireRequest.bytes]
      omega
    rw [List.cons_append, pendingLength, hlen, if_pos (by omega), ← pendingLength_append rest k done]
    congr 1
    omega

/-- The connection has taken every complete request out of its buffer, and is open as long as
requests remain. -/
def KeepsUp (rs : List WireRequest) (future : Bytes) (c : Connection) : Prop :=
  ∃ done rest, rs = done ++ rest ∧ c.processed = done.map WireRequest.toReceivedRequest ∧
    (c.isOpen = true → c.requestBuffer ++ future = stream rest) ∧
    (rest ≠ [] → c.isOpen = true ∧ Waiting c.requestBuffer rest ∧
      staysOpen admits c.processed.length c.keepAlive c.requestsProcessed
        (rest.map WireRequest.toReceivedRequest) = true)

theorem staysOpen_answer {r : WireRequest} (hrest : rest ≠ [])
    (h : staysOpen admits c.processed.length c.keepAlive c.requestsProcessed
      ((r :: rest).map WireRequest.toReceivedRequest) = true) (fuel : Nat) :
    continueLoop admits fuel (answer admits r.toReceivedRequest c)
        = processLoop admits fuel (answer admits r.toReceivedRequest c) ∧
      staysOpen admits (answer admits r.toReceivedRequest c).processed.length
        (answer admits r.toReceivedRequest c).keepAlive
        (answer admits r.toReceivedRequest c).requestsProcessed
        (rest.map WireRequest.toReceivedRequest) = true := by
  have hne : (rest.map WireRequest.toReceivedRequest).isEmpty = false := by simpa using hrest
  simp only [List.map_cons, staysOpen, hne, Bool.false_or, Bool.and_eq_true, decide_eq_true_eq] at h
  obtain ⟨⟨halive, hcount⟩, hnext⟩ := h
  by_cases ha : admits c.processed.length r.toReceivedRequest = true
  · simp only [ha, if_true] at halive hcount hnext
    have hkeep : (answer admits r.toReceivedRequest c).keepAlive = true := by
      simp [answer, ha, halive, Nat.not_le.mpr hcount]
    have hnum : (answer admits r.toReceivedRequest c).requestsProcessed
        = c.requestsProcessed + 1 := by
      simp [answer, ha]
    refine ⟨?_, ?_⟩
    · simp [continueLoop, hkeep, hnum, Nat.not_le.mpr hcount]
    · rw [hkeep, hnum, answer_processed, List.length_append]
      rw [halive] at hnext
      exact hnext
  · simp only [ha, Bool.false_eq_true, if_false] at halive hcount hnext
    have hkeep : (answer admits r.toReceivedRequest c).keepAlive = c.keepAlive := by
      simp [answer, ha]
    have hnum : (answer admits r.toReceivedRequest c).requestsProcessed
        = c.requestsProcessed := by
      simp [answer, ha]
    refine ⟨?_, ?_⟩
    · simp [continueLoop, hkeep, halive, hnum, Nat.not_le.mpr hcount]
    · rw [hkeep, hnum, answer_processed, List.length_append]
      exact hnext

theorem processLoop_keepsUp (hplain : ∀ r ∈ rs, PlainHead r.head)
    (hlim : ∀ r ∈ rs, r.withinLimits = true) :
    ∀ {fuel : Nat} {c : Connection} {done rest : List WireRequest}, rs = done ++ rest →
      c.processed = done.map WireRequest.toReceivedRequest → c.isOpen = true →
      c.requestBuffer ++ future = stream rest → c.requestBuffer.length ≤ fuel →
      staysOpen admits c.processed.length c.keepAlive c.requestsProcessed
        (rest.map WireRequest.toReceivedRequest) = true →
      KeepsUp admits rs future (processLoop admits fuel c)
  | 0, c, done, rest, hrs, hd, ho, hs, hfuel, hstay => by
    refine ⟨done, rest, hrs, hd, fun _ => hs, fun _ => ⟨ho, ?_, hstay⟩⟩
    intro r _
    have := List.length_pos_iff.mpr r.head_ne_nil
    rw [WireRequest.bytes, List.length_append]
    show c.requestBuffer.length < _
    omega
  | fuel + 1, c, done, rest, hrs, hd, ho, hs, hfuel, hstay => by
    have hplain' : ∀ r ∈ rest, PlainHead r.head := fun r hr => hplain r (by simp [hrs, hr])
    rcases processLoop_succ admits fuel hplain' hs with
      ⟨he, hw⟩ | ⟨-, r, hr, hbad⟩ | ⟨r, rest', buffer, rfl, hs', hlt, he⟩
    · rw [he]
      exact ⟨done, rest, hrs, hd, fun _ => hs, fun _ => ⟨ho, hw, hstay⟩⟩
    · rw [hlim r (by simp [hrs, hr])] at hbad
      cases hbad
    · rw [he]
      set c' : Connection := { c with requestBuffer := buffer } with hc'
      have hrs' : rs = (done ++ [r]) ++ rest' := by simp [hrs]
      have hd' : (answer admits r.toReceivedRequest c').processed
          = (done ++ [r]).map WireRequest.toReceivedRequest := by simp [hc', hd]
      have hs'' : (answer admits r.toReceivedRequest c').requestBuffer ++ future
          = stream rest' := by simpa using hs'
      have hlen : (answer admits r.toReceivedRequest c').requestBuffer.length ≤ fuel := by
        simp only [answer_requestBuffer, hc']
        omega
      have ho' : (answer admits r.toReceivedRequest c').isOpen = true := by simp [hc', ho]
      cases rest' with
      | nil =>
        -- the last request: whatever happens to the connection, all is processed
        unfold continueLoop
        split
        · exact ⟨done ++ [r], [], hrs', hd', fun h => absurd h (by simp [Connection.close]),
            fun h => absurd rfl h⟩
        · split
          · exact ⟨done ++ [r], [], hrs', hd', fun _ => hs'', fun h => absurd rfl h⟩
          · exact processLoop_keepsUp hplain hlim hrs' hd' ho' hs'' hlen rfl
      | cons r' rest' =>
        obtain ⟨hloop, hstay'⟩ := staysOpen_answer admits (c := c') (List.cons_ne_nil r' rest')
          hstay fuel
        rw [hloop]
        exact processLoop_keepsUp hplain hlim hrs' hd' ho' hs'' hlen hstay'

theorem onEventHandlerRead_keepsUp {bytes : Bytes} (hplain : ∀ r ∈ rs, PlainHead r.head)
    (hlim : ∀ r ∈ rs, r.withinLimits = true)
    (hfits : ∀ done rest, rs = done ++ rest → rest ≠ [] → Waiting c.requestBuffer rest →
      c.requestBuffer ++ (bytes ++ future) = stream rest →
      c.requestBuffer.length < httpMaxRequestSize ∧
        c.requestBuffer.length + bytes.length ≤ httpMaxRequestSize)
    (h : KeepsUp admits rs (bytes ++ future) c) :
    KeepsUp admits rs future (onEventHandlerRead admits c bytes) := by
  obtain ⟨done, rest, hrs, hd, hs, hrest⟩ := h
  cases hr : rest with
  | nil =>
    rw [hr] at hs hrs
    have hprocessed : (onEventHandlerRead admits c bytes).processed = c.processed ∧
        ((onEventHandlerRead admits c bytes).isOpen = true →
          (onEventHandlerRead admits c bytes).requestBuffer ++ future = []) := by
      cases ho : c.isOpen with
      | false => simp [onEventHandlerRead, ho]
      | true =>
        have hnil := hs ho
        rw [stream_nil, List.append_eq_nil_iff, List.append_eq_nil_iff] at hnil
        have hempty : findHead [] = none := by decide
        have hmax : ¬ httpMaxRequestSize ≤ 0 := by decide
        simp [onEventHandlerRead, ho, hnil, hempty, hmax]
    exact ⟨done, [], hrs, by rw [hprocessed.1, hd], hprocessed.2, fun h => absurd rfl h⟩
  | cons r rs' =>
    subst hr
    have hcons : r :: rs' ≠ [] := List.cons_ne_nil r rs'
    obtain ⟨ho, hw, hstay⟩ := hrest hcons
    obtain ⟨hbuf, hroom⟩ := hfits done _ hrs hcons hw (hs ho)
    have hs' : (c.requestBuffer ++ bytes) ++ future = stream (r :: rs') := by
      rw [List.append_assoc]
      exact hs ho
    have hwaits : (c.requestBuffer ++ bytes).length < r.bytes.length →
        KeepsUp admits rs future { c with requestBuffer := c.requestBuffer ++ bytes } := by
      intro hlt
      refine ⟨done, r :: rs', hrs, hd, fun _ => hs', fun _ => ⟨ho, ?_, hstay⟩⟩
      intro r' hr'
      obtain rfl : r = r' := by simpa using hr'
      exact hlt
    unfold onEventHandlerRead
    rw [if_neg (by simp [ho]), if_neg (by omega), if_neg (by omega)]
    simp only
    split
    · rename_i hh
      exact hwaits (length_lt_of_no_head hs' hh)
    · rename_i head tail hh
      obtain ⟨r', rs'', he, rfl, htail⟩ := head_of_stream hs' hh
      obtain ⟨rfl, rfl⟩ := List.cons.inj he
      have hmem : r ∈ rs := by simp [hrs]
      have hl := hlim r hmem
      have hhead : r.head.length ≤ httpMaxHeaderSize := by
        simp only [WireRequest.withinLimits, Bool.and_eq_true, decide_eq_true_eq] at hl
        exact hl.1.1
      rw [if_neg (by omega), if_neg (by simp [r.framed]), r.readDecision_eq (hplain r hmem) hl tail]
      by_cases hbody : r.body.length ≤ tail.length
      · rw [if_pos hbody]
        exact processLoop_keepsUp admits hplain hlim hrs hd ho hs' (Nat.le_refl _) hstay
      · rw [if_neg hbody]
        refine hwaits ?_
        rw [findHead_eq_some hh, WireRequest.bytes, List.length_append, List.length_append]
        omega

theorem foldl_keepsUp (hplain : ∀ r ∈ rs, PlainHead r.head)
    (hlim : ∀ r ∈ rs, r.withinLimits = true) :
    ∀ (reads : List Bytes) {n : Nat} {c : Connection},
      n + reads.flatten.length = (stream rs).length → fitsBuffer rs n reads = true →
      KeepsUp admits rs reads.flatten c →
      KeepsUp admits rs [] (reads.foldl (onEventHandlerRead admits) c)
  | [], _, _, _, _, h => h
  | bytes :: reads, n, c, hn, hfits, h => by
    simp only [fitsBuffer, Bool.and_eq_true, decide_eq_true_eq] at hfits
    obtain ⟨⟨hlt, hroom⟩, hfits⟩ := hfits
    rw [List.flatten_cons, List.length_append] at hn
    refine foldl_keepsUp hplain hlim reads (n := n + bytes.length) (by omega) hfits ?_
    refine onEventHandlerRead_keepsUp admits hplain hlim ?_ h
    intro done rest hrs hne hw hs
    -- what is pending after `n` bytes is what the buffer holds
    have hpending : pendingLength rs n = c.requestBuffer.length := by
      have hlen := congrArg List.length hs
      have htotal : (stream rs).length = (stream done).length + (stream rest).length := by
        rw [hrs, stream_append, List.length_append]
      simp only [List.length_append] at hlen
      have hn' : n = (stream done).length + c.requestBuffer.length := by omega
      rw [hn', hrs, pendingLength_append]
      cases rest with
      | nil => exact absurd rfl hne
      | cons r rest =>
        have := hw r (by simp)
        rw [pendingLength, if_neg (by omega)]
    omega

/-- **All requests of the stream are handed out**, when the limits are kept and the connection is not
given up before the last. -/
theorem processed_eq (hplain : ∀ r ∈ rs, PlainHead r.head) (h : reads.flatten = stream rs)
    (hlim : ∀ r ∈ rs, r.withinLimits = true) (hfits : fitsBuffer rs 0 reads = true)
    (hstay : staysOpen admits 0 false 0 (rs.map WireRequest.toReceivedRequest) = true) :
    (receive admits reads).processed = rs.map WireRequest.toReceivedRequest := by
  have hnew : KeepsUp admits rs reads.flatten .new := by
    refine ⟨[], rs, rfl, rfl, fun _ => h, fun _ => ⟨rfl, ?_, hstay⟩⟩
    intro r _
    have := List.length_pos_iff.mpr r.head_ne_nil
    rw [WireRequest.bytes, List.length_append]
    exact Nat.lt_of_lt_of_le this (Nat.le_add_right ..)
  obtain ⟨done, rest, hrs, hd, hs, hrest⟩ :=
    foldl_keepsUp admits hplain hlim reads (by simp [h]) hfits hnew
  unfold receive
  rw [hd]
  cases rest with
  | nil => rw [hrs, List.append_nil]
  | cons r rest =>
    -- nothing is left to be read, so the buffer would hold the whole request
    obtain ⟨ho, hw, -⟩ := hrest (List.cons_ne_nil r rest)
    have hlen := congrArg List.length (hs ho)
    have hlt := hw r (by simp)
    rw [WireRequest.bytes] at hlt
    simp only [List.append_nil, stream_cons, List.length_append] at hlen hlt
    omega

end Loop

/-! ## Two requests -/

def addRequest : WireRequest where
  head := lit "POST /documents HTTP/1.1\r\ncontent-length: 5\r\n\r\n"
  body := lit "a\r\n\r\n"
  ends := by decide +kernel
  framed := by decide +kernel
  line := by decide +kernel
  length := by decide +kernel

def closingRequest : WireRequest where
  head := lit "GET /health HTTP/1.1\r\nConnection: close\r\n\r\n"
  body := []
  ends := by decide +kernel
  framed := by decide +kernel
  line := by decide +kernel
  length := by decide +kernel

/-- A request without a body and without a `Content-Length`, and with another header that ends in
this name: its head is not plain. -/
def mentioningRequest : WireRequest where
  head := lit "GET /health HTTP/1.1\r\nX-Content-Length: 5\r\n\r\n"
  body := []
  ends := by decide +kernel
  framed := by decide +kernel
  line := by decide +kernel
  length := by decide +kernel

-- five bytes of the next request are taken for its body
example :
    ((receive (fun _ _ => true) [stream [mentioningRequest, closingRequest]]).processed.map
      ReceivedRequest.body).head? = some (lit "GET /") := by decide +kernel

end Hlquery.Http
