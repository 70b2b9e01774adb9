import Hlquery.Lib.Decimal
import Hlquery.Replication.Primary

/-!
# The bodies of document requests

A request that is sent to the replicas does not carry the body of the client. The handler of the
primary reads that body into a document, and `BuildDocumentJSON` makes a new one of it, which leaves
out what is empty. A replica reads the new body with the same handlers.

An update is *merged*: a replica keeps the fields and texts that the body does not mention, so an
update that erases a field, or empties a text, is not carried over.

The score of a document and bodies with a nested `fields` object are left out. Values that are
neither texts nor integers are read as the text they are dumped to.
-/

set_option autoImplicit false

namespace Hlquery.Replication

inductive JsonValue where
  | null
  | text (s : Bytes)
  | integer (n : Nat)
deriving DecidableEq, Repr

def JsonValue.render : JsonValue → Bytes
  | .null => []
  | .text s => s
  | .integer n => decimal n

abbrev Body := Bytes → Option JsonValue

@[ext]
structure Document where
  title : Bytes
  content : Bytes
  fields : Bytes → Option Bytes
  timestamp : Nat

def buildDocumentJSON (doc : Document) : Body := fun key =>
  if key = lit "timestamp" ∧ doc.timestamp ≠ 0 then some (.integer doc.timestamp)
  else
    match doc.fields key with
    | some value => some (.text value)
    | none =>
        if key = lit "title" ∧ doc.title ≠ [] then some (.text doc.title)
        else if key = lit "content" ∧ doc.content ≠ [] then some (.text doc.content)
        else none

def metadataKeys : List Bytes :=
  [lit "id", lit "title", lit "content", lit "doc_title", lit "doc_content", lit "score",
    lit "timestamp"]

/-- `ParseDocumentFromJSON`; `HandleAddDocument` sets the time of a document that has none. -/
def parseDocumentFromJSON (clock : Nat) (body : Body) : Document where
  title :=
    match body (lit "title"), body (lit "doc_title") with
    | some value, _ => value.render
    | none, some value => value.render
    | none, none => []
  content :=
    match body (lit "content"), body (lit "doc_content") with
    | some value, _ => value.render
    | none, some value => value.render
    | none, none => []
  fields := fun key =>
    if key ∈ metadataKeys then
      match body (lit "title"), body (lit "doc_title") with
      | none, some (.text value) => if key = lit "doc_title" then some value else none
      | none, some (.integer n) => if key = lit "doc_title" then some (decimal n) else none
      | _, _ => none
    else
      match body key with
      | none | some .null => none
      | some value => some value.render
  timestamp :=
    match body (lit "timestamp") with
    | some (.integer (n + 1)) => n + 1
    | _ => clock

def updateKeys : List Bytes := [lit "id", lit "title", lit "content", lit "timestamp"]

/-- The merge of `HandleUpdateDocument`. -/
def mergeUpdate (clock : Nat) (old : Document) (body : Body) : Document where
  title :=
    match body (lit "title") with
    | none => old.title
    | some value => value.render
  content :=
    match body (lit "content") with
    | none => old.content
    | some value => value.render
  fields := fun key =>
    if key ∈ updateKeys then old.fields key
    else
      match body key with
      | none => old.fields key
      | some .null => none
      | some value => some value.render
  timestamp :=
    match body (lit "timestamp") with
    | some (.integer n) => n
    | _ => clock

/-- `AddDocument` sets the time of a document that has none. -/
def storedDocument (clock : Nat) (doc : Document) : Document :=
  { doc with timestamp := if doc.timestamp = 0 then clock else doc.timestamp }

def documentCodec : Codec Document Body where
  build := buildDocumentJSON
  parse := parseDocumentFromJSON
  revise := mergeUpdate
  store := storedDocument

end Hlquery.Replication
