import Hlquery.Lib.ByteMap
import Hlquery.Lib.Decimal

/-!
# Requests on a connection

Bytes arrive in reads of any size and are appended to the buffer of the connection. Three pieces of
code then look for the end of the first request, each in its own way:

* `HasValidRequestFramingHeaders` goes through the header lines, and knows a header by its whole
  name;
* `OnEventHandlerRead` and `ProcessMultipleRequests` look for the first place where the text
  `content-length:` stands in the head, anywhere, and read the number behind it;
* `ParseHttpRequest` parses the headers of a request that was cut out, and takes the body by the
  header it finds there.

A connection is driven by `receive`, one read after another. What it hands to the handlers is the
list `processed`.
-/

set_option autoImplicit false

namespace Hlquery.Http

open Bytes

def httpMaxHeaderSize : Nat := 64 * 1024
def httpMaxHeaderCount : Nat := 1000
def httpMaxRequestSize : Nat := 100 * 1024 * 1024
def httpMaxRequestsPerConnection : Nat := 10000

/-! ## Lines and blanks -/

def isBlank (b : UInt8) : Bool := b == chr ' ' || b == chr '\t'

def isLineEnd (b : UInt8) : Bool := b == chr '\r' || b == chr '\n'

def trimLeft (s : Bytes) : Bytes := s.dropWhile isBlank

def trimRight (s : Bytes) : Bytes := (s.reverse.dropWhile isBlank).reverse

def trimBlanks (s : Bytes) : Bytes := trimRight (trimLeft s)

def chopReturn (line : Bytes) : Bytes :=
  if line.getLast? = some (chr '\r') then line.dropLast else line

def headerEnd : Bytes := lit "\r\n\r\n"

def findHead (buffer : Bytes) : Option (Bytes × Bytes) :=
  (splitOnce headerEnd buffer).map fun lr => (lr.1 ++ headerEnd, lr.2)

/-! ## The framing check -/

def framingLines (headersPart : Bytes) : List Bytes :=
  (((getlines (chr '\n') headersPart).map chopReturn).tail).takeWhile (· ≠ [])

def headerName (line : Bytes) : Option Bytes :=
  (splitFirst (chr ':') line).map fun nv => toLower (trimBlanks nv.1)

def hasValidRequestFramingHeaders (headersPart : Bytes) : Bool :=
  let names := (framingLines headersPart).map headerName
  names.all (fun name => name.any fun n => n ≠ [] && n ≠ lit "transfer-encoding") &&
    names.count (some (lit "content-length")) ≤ 1

/-! ## The length that delimits a request -/

/-- `std::from_chars` of the whole text: digits only, and a value that fits. -/
def fromChars (text : Bytes) : Option Nat :=
  if text ≠ [] ∧ text.all isDigit ∧ digitsValue text < 2 ^ 64 then some (digitsValue text)
  else none

/-- The text behind the first `content-length:` in a head, up to the end of its line. Since a head
ends with an empty line, there always is an end. -/
def lengthText (headersPart : Bytes) : Option Bytes :=
  (splitOnce (lit "content-length:") (toLower headersPart)).map fun lr =>
    (trimLeft (headersPart.drop (lr.1.length + 15))).takeWhile fun b => !isLineEnd b

/-- The length of the body in `ProcessMultipleRequests`; `none` is a response 400 or 413. -/
def bodyLength (headersPart : Bytes) : Option Nat :=
  match lengthText headersPart with
  | none => some 0
  | some text =>
      (fromChars text).bind fun n => if httpMaxRequestSize < n then none else some n

/-- What `OnEventHandlerRead` does with a buffer that has a head in front. -/
inductive ReadDecision where
  | reject
  | wait
  | process
deriving DecidableEq, Repr

/-- Unlike `bodyLength` this drops blanks behind the number and bounds the number of digits. A value
that does not fit is left to the other function. -/
def readDecision (headersPart rest : Bytes) : ReadDecision :=
  match lengthText headersPart with
  | none => .process
  | some text =>
      let text := trimRight text
      if 20 < text.length then .reject
      else if text = [] ∨ !text.all isDigit then .reject
      else
        match fromChars text with
        | none => .process
        | some n =>
            if httpMaxRequestSize < n then .reject
            else if n ≤ rest.length then .process
            else .wait

/-! ## Parsing one request -/

/-- A request as the handlers get it: its head, from which everything but the body is read, and its
body. -/
structure ReceivedRequest where
  head : Bytes
  body : Bytes
deriving DecidableEq, Repr

def requestLine (head : Bytes) : List Bytes :=
  ((chopReturn ((getlines (chr '\n') head).headD [])).splitOnP isSpace).filter (· ≠ [])

/-- `ParseHeaders`: too many headers, or one that is not acceptable, empty the map; a zero byte in a
value ends it. -/
def parseHeaders : Nat → ByteMap Bytes → List Bytes → ByteMap Bytes
  | _, headers, [] => headers
  | count, headers, line :: lines =>
      if httpMaxHeaderCount ≤ count then ∅
      else
        match splitFirst (chr ':') line with
        | none => parseHeaders count headers lines
        | some (key, value) =>
            let key := trimBlanks key
            let value := trimBlanks value
            if key.any isLineEnd || value.any isLineEnd then ∅
            else if key = [] ∨ key.any (fun b => b < 32 || 126 < b) then ∅
            else if value.elem 0 then headers
            else if 256 < key.length ∨ 8192 < value.length then ∅
            else parseHeaders (count + 1) (headers.insert (toLower key) value) lines

/-- The header lines of a request for the parser: up to one with a carriage return only. -/
def headerLines (head : Bytes) : List Bytes :=
  ((getlines (chr '\n') head).tail.takeWhile (· ≠ [chr '\r'])).map chopReturn

def requestHeaders (head : Bytes) : ByteMap Bytes := parseHeaders 0 ∅ (headerLines head)

/-- `std::stoull` of the whole text. -/
def stoullAll (text : Bytes) : Option Nat :=
  if (splitSign (text.dropWhile isSpace)).2.all isDigit then (stoull text).map UInt64.toNat
  else none

/-- The body, from what follows the head in the text of the request. Without a length, or with the
length zero, it is everything. The sum is of `size_t`. -/
def takeBody (head rest : Bytes) : Option Bytes :=
  match (requestHeaders head)[lit "content-length"]? with
  | none => some rest
  | some value =>
      (stoullAll value).bind fun contentLength =>
        if contentLength = 0 then some rest
        else if (head.length + contentLength) % 2 ^ 64 ≤ head.length + rest.length then
          some (rest.take contentLength)
        else none

def parseHttpRequest (rawRequest : Bytes) : Option ReceivedRequest :=
  match findHead rawRequest with
  | none => none
  | some (head, rest) =>
      if httpMaxHeaderSize < head.length then none
      else if hasValidRequestFramingHeaders head && 3 ≤ (requestLine head).length then
        (takeBody head rest).map fun body => ⟨head, body⟩
      else none

/-- The version of the request and its `Connection` header. -/
def wantsKeepAlive (head : Bytes) : Bool :=
  let isHttp11 := (requestLine head)[2]? = some (lit "HTTP/1.1")
  match (requestHeaders head)[lit "connection"]? with
  | none => isHttp11
  | some value =>
      if toLower value = lit "close" then false
      else if toLower value = lit "keep-alive" then true
      else isHttp11

/-! ## The connection -/

/-- A connection. One that closes after the response that it is about to send is taken to be closed
at once. -/
structure Connection where
  requestBuffer : Bytes
  isOpen : Bool
  keepAlive : Bool
  requestsProcessed : Nat
  processed : List ReceivedRequest
deriving DecidableEq, Repr

def Connection.new : Connection := ⟨[], true, false, 0, []⟩

/-- Which requests get past the checks that come before the keep-alive header is looked at (preflight,
loading, sync and authorization), given how many came before them. -/
abbrev Admission := Nat → ReceivedRequest → Bool

variable (admits : Admission)

/-- The part of `ProcessSingleRequest` after the parser. -/
def answer (request : ReceivedRequest) (c : Connection) : Connection :=
  let admitted := admits c.processed.length request
  let c := { c with processed := c.processed ++ [request] }
  if admitted then
    let n := c.requestsProcessed + 1
    { c with
      requestsProcessed := n
      keepAlive := wantsKeepAlive request.head &&
        !(httpMaxRequestsPerConnection ≤ n && c.requestBuffer.isEmpty) }
  else c

/-- `ProcessSingleRequest`, as far as the connection is concerned. A request that cannot be parsed is
answered with 400; `KeepAlive` stays as it is. -/
def processSingleRequest (rawRequest : Bytes) (c : Connection) : Connection :=
  match parseHttpRequest rawRequest with
  | none => c
  | some request => answer admits request c

def Connection.close (c : Connection) : Connection := { c with isOpen := false }

/-- The loop of `ProcessMultipleRequests`. Each round takes a head out of the buffer, so its length is
fuel enough. -/
def processLoop : Nat → Connection → Connection
  | 0, c => c
  | fuel + 1, c =>
      match findHead c.requestBuffer with
      | none => c
      | some (head, rest) =>
          if httpMaxHeaderSize < head.length then c.close
          else if !hasValidRequestFramingHeaders head then c.close
          else
            match bodyLength head with
            | none => c.close
            | some n =>
                if rest.length < n then c
                else
                  let c := processSingleRequest admits (head ++ rest.take n)
                    { c with requestBuffer := rest.drop n }
                  if !c.keepAlive then c.close
                  else if httpMaxRequestsPerConnection ≤ c.requestsProcessed &&
                    c.requestBuffer.isEmpty then c
                  else processLoop fuel c

def processMultipleRequests (c : Connection) : Connection :=
  processLoop admits c.requestBuffer.length c

/-- `OnEventHandlerRead` with the bytes that are there to be read. -/
def onEventHandlerRead (c : Connection) (bytes : Bytes) : Connection :=
  if !c.isOpen then c
  else if httpMaxRequestSize ≤ c.requestBuffer.length then c.close
  else if httpMaxRequestSize < c.requestBuffer.length + bytes.length then c.close
  else
    let c := { c with requestBuffer := c.requestBuffer ++ bytes }
    match findHead c.requestBuffer with
    | none => c
    | some (head, rest) =>
        if httpMaxHeaderSize < head.length then c.close
        else if !hasValidRequestFramingHeaders head then c.close
        else
          match readDecision head rest with
          | .reject => c.close
          | .wait => c
          | .process => processMultipleRequests admits c

def receive (reads : List Bytes) : Connection :=
  reads.foldl (onEventHandlerRead admits) .new

end Hlquery.Http
