import Hlquery.Lib.ByteMap
import Hlquery.Lib.Wire

/-!
# The mapped posting files

`IndexWriter::WriteIndex` writes the postings of one collection into four files, and `MMapIndex`
maps them back and answers single-term searches from them:

* `terms.bin`, the terms in order, each with a terminating zero;
* `postings.bin`, the encoded posting lists one after the other;
* `term_map.bin`, for each term its bytes and where its postings lie;
* `term_index.bin`, every sixteenth term with its place in the other two.

Each file is an envelope of forty bytes (magic, version, sizes, checksum) around its payload. A
posting list is sorted by a hash of the document id, and each posting holds the distance to the
hash before it, the score in single precision and the id itself.

Scores are `double`s. They are only converted here, so their type is a parameter, together with
the conversion to `float` and back.
-/

set_option autoImplicit false

namespace Hlquery.Index

open Bytes Wire

/-! ## Postings -/

structure Posting (S : Type) where
  documentId : Bytes
  collection : Bytes
  score : S
  positions : List Nat
deriving DecidableEq, Repr

/-- The conversion of a score to a `float`, given by its bits, and back. -/
structure SinglePrecision (S : Type) where
  toFloat : S → UInt32
  ofFloat : UInt32 → S

def kFnv64Offset : Nat := 14695981039346656037
def kFnv64Prime : Nat := 1099511628211
def kFnv32Offset : Nat := 2166136261
def kFnv32Prime : Nat := 16777619

def stableChecksum64 (data : Bytes) : Nat :=
  data.foldl (fun hash b => ((hash ^^^ b.toNat) * kFnv64Prime) % 2 ^ 64) kFnv64Offset

def stableHash32 (value : Bytes) : Nat :=
  value.foldl (fun hash b => ((hash ^^^ b.toNat) * kFnv32Prime) % 2 ^ 32) kFnv32Offset

/-- The order in which `WritePostings` sorts: by the hash of the id, then by the id. -/
def hashLess {S : Type} (a b : Posting S) : Bool :=
  if stableHash32 a.documentId = stableHash32 b.documentId then
    compare a.documentId b.documentId == .lt
  else stableHash32 a.documentId < stableHash32 b.documentId

/-- What `std::sort` promises for that order. It is not stable, so the place of two postings with
the same id is its own choice. -/
structure PostingSort (S : Type) where
  sort : List (Posting S) → List (Posting S)
  perm : ∀ postings, (sort postings).Perm postings
  sorted : ∀ postings, (sort postings).Pairwise fun a b => hashLess b a = false

/-! ## The envelope -/

inductive IndexFile where
  | terms | termMap | termIndex | postings
deriving DecidableEq, Repr

def IndexFile.magic : IndexFile → Bytes
  | .terms => lit "HLQTERM1"
  | .termMap => lit "HLQTMAP1"
  | .termIndex => lit "HLQTIDX1"
  | .postings => lit "HLQPOST1"

def kMMapIndexVersion : Nat := 1
def kMMapIndexEndianMarker : Nat := 0x01020304
def kMMapFileHeaderSize : Nat := 40

/-- The content of a file that `WriteMMapFile` has written. -/
def mmapFile (magic payload : Bytes) : Bytes :=
  magic ++ (le 4 kMMapIndexVersion ++ (le 4 kMMapFileHeaderSize ++ (le 4 kMMapIndexEndianMarker ++
    (le 4 0 ++ (le 8 payload.length ++ (le 8 (stableChecksum64 payload) ++ payload))))))

/-- `ReadValue` at a fixed offset. -/
def readValue (w : Nat) (file : Bytes) (offset : Nat) : Option Nat :=
  (readLe w (file.drop offset)).map Prod.fst

/-- The payload of a file whose header and checksum are right. -/
def validateMMapFile (file magic : Bytes) : Option Bytes := do
  guard (kMMapFileHeaderSize ≤ file.length)
  guard (startsWith file magic)
  let version ← readValue 4 file 8
  let headerSize ← readValue 4 file 12
  let endian ← readValue 4 file 16
  let storedPayloadSize ← readValue 8 file 24
  let storedChecksum ← readValue 8 file 32
  guard (version = kMMapIndexVersion ∧ headerSize = kMMapFileHeaderSize ∧
    endian = kMMapIndexEndianMarker)
  guard (storedPayloadSize ≤ file.length - headerSize)
  let payload := (file.drop headerSize).take storedPayloadSize
  guard (stableChecksum64 payload = storedChecksum)
  return payload

abbrev Directory := IndexFile → Option Bytes

/-- What the file system does with a file that is written: it holds what was written, or the
stream fails and leaves something else. -/
inductive WriteResult where
  | written
  | failed (left : Option Bytes)

def writeMMapFile (disk : IndexFile → WriteResult) (directory : Directory) (file : IndexFile)
    (payload : Bytes) : Directory × Bool :=
  match disk file with
  | .written => (Function.update directory file (some (mmapFile file.magic payload)), true)
  | .failed left => (Function.update directory file left, false)

/-- The files of `WriteIndex` in its order, up to the first that fails. -/
def writeFiles (disk : IndexFile → WriteResult) :
    List (IndexFile × Bytes) → Directory → Directory × Bool
  | [], directory => (directory, true)
  | (file, payload) :: files, directory =>
      match writeMMapFile disk directory file payload with
      | (directory, true) => writeFiles disk files directory
      | (directory, false) => (directory, false)

/-! ## Writing -/

section Writing

variable {S : Type} (single : SinglePrecision S) (order : PostingSort S)

def writeVarint (value : Nat) : Bytes := varint 4 value

/-- One posting after one whose id has the hash `prevDocHash`; the difference is of `uint32_t`. -/
def writePosting (prevDocHash : Nat) (post : Posting S) : Bytes :=
  let docHash := stableHash32 post.documentId
  let deltaValue := if prevDocHash = 0 then docHash else (docHash + 2 ^ 32 - prevDocHash) % 2 ^ 32
  writeVarint deltaValue ++ (le 4 (single.toFloat post.score).toNat ++
    (le 2 post.documentId.length ++ post.documentId))

def writeEntries (prevDocHash : Nat) : List (Posting S) → Bytes
  | [] => []
  | post :: posts =>
      writePosting single prevDocHash post ++ writeEntries (stableHash32 post.documentId) posts

def writePostings (postings : List (Posting S)) : Bytes :=
  if postings = [] then []
  else le 4 postings.length ++ writeEntries single 0 (order.sort postings)

/-- A term with its place in `terms.bin` and in `postings.bin`. -/
structure TermRecord where
  term : Bytes
  termsOffset : Nat
  postingsOffset : Nat
  postingsLength : Nat
deriving DecidableEq, Repr

def termRecords : Nat → Nat → List (Bytes × Bytes) → List TermRecord
  | _, _, [] => []
  | termsOffset, postingsOffset, (term, encoded) :: entries =>
      ⟨term, termsOffset, postingsOffset, encoded.length⟩ ::
        termRecords (termsOffset + term.length + 1) (postingsOffset + encoded.length) entries

def TermRecord.mapEntry (r : TermRecord) : Bytes :=
  le 2 r.term.length ++ (r.term ++ (le 8 r.postingsOffset ++ le 4 r.postingsLength))

def TermRecord.indexEntry (r : TermRecord) : Bytes :=
  le 8 r.termsOffset ++ (le 4 r.term.length ++ (le 8 r.postingsOffset ++ le 4 r.postingsLength))

def indexIntervalConst : Nat := 16

def sampled (records : List TermRecord) : List TermRecord :=
  (records.zipIdx.filter fun r => r.2 % indexIntervalConst = 0).map Prod.fst

/-- Every term and every document id fits the 16 bits of its length. -/
def lengthsFit (terms : ByteMap (List (Posting S))) : Bool :=
  terms.toList.all fun entry =>
    entry.1.length ≤ 0xffff && entry.2.all fun post => post.documentId.length ≤ 0xffff

def encodedTerms (terms : ByteMap (List (Posting S))) : List (Bytes × Bytes) :=
  terms.toList.map fun entry => (entry.1, writePostings single order entry.2)

def termsBuffer (entries : List (Bytes × Bytes)) : Bytes :=
  entries.flatMap fun entry => entry.1 ++ [0]

def postingsBuffer (entries : List (Bytes × Bytes)) : Bytes := entries.flatMap Prod.snd

def termMapBuffer (entries : List (Bytes × Bytes)) : Bytes :=
  le 4 entries.length ++ (termRecords 0 0 entries).flatMap TermRecord.mapEntry

def termIndexBuffer (entries : List (Bytes × Bytes)) : Bytes :=
  le 4 entries.length ++ (le 4 indexIntervalConst ++
    (sampled (termRecords 0 0 entries)).flatMap TermRecord.indexEntry)

/-- The files of an index in the order in which they are written. -/
def indexFiles (entries : List (Bytes × Bytes)) : List (IndexFile × Bytes) :=
  [(.terms, termsBuffer entries), (.postings, postingsBuffer entries),
    (.termMap, termMapBuffer entries), (.termIndex, termIndexBuffer entries)]

/-- `WriteIndex`: the directory afterwards, and whether it reports success. -/
def writeIndex (disk : IndexFile → WriteResult) (collection : Bytes)
    (indexData : ByteMap (ByteMap (List (Posting S)))) (directory : Directory) :
    Directory × Bool :=
  match indexData[collection]? with
  | none => (directory, false)
  | some terms =>
      if lengthsFit terms then
        writeFiles disk (indexFiles (encodedTerms single order terms)) directory
      else (directory, false)

end Writing

/-! ## Reading -/

/-- A valid index: the payloads that are mapped, and the two numbers read from them. -/
structure MMapIndex where
  termsData : Bytes
  termMapData : Bytes
  termIndexData : Option Bytes
  postingsData : Bytes
  termCount : Nat
  indexInterval : Nat
  mappedSize : Nat
deriving DecidableEq, Repr

/-- The optional sparse index: its payload, and the interval that it states. -/
def loadTermIndex (directory : Directory) : Option (Option Bytes × Nat) :=
  match directory .termIndex with
  | none => some (none, indexIntervalConst)
  | some file => do
      let data ← validateMMapFile file (IndexFile.magic .termIndex)
      guard (8 ≤ data.length)
      return (some data, leValue ((data.drop 4).take 4))

/-- `LoadIndex`, where the files that are there can be opened and mapped. -/
def loadIndex (directory : Directory) : Option MMapIndex := do
  let termsFile ← directory .terms
  let postingsFile ← directory .postings
  let termMapFile ← directory .termMap
  let termsData ← validateMMapFile termsFile (IndexFile.magic .terms)
  let termMapData ← validateMMapFile termMapFile (IndexFile.magic .termMap)
  guard (4 ≤ termMapData.length)
  let (termIndexData, indexInterval) ← loadTermIndex directory
  let postingsData ← validateMMapFile postingsFile (IndexFile.magic .postings)
  return { termsData, termMapData, termIndexData, postingsData
           termCount := leValue (termMapData.take 4)
           indexInterval
           mappedSize := termsFile.length + termMapFile.length +
             ((directory .termIndex).getD []).length + postingsFile.length }

def firstDifference : Bytes → Bytes → Option Int
  | x :: a, y :: b => if x = y then firstDifference a b else some (x.toNat - y.toNat)
  | _, _ => none

/-- `static_cast<int>` of a length. -/
def toInt (n : Nat) : Int := Int.bmod n (2 ^ 32)

def fastStringCompare (a b : Bytes) : Int :=
  (firstDifference a b).getD (toInt a.length - toInt b.length)

structure TermEntry where
  postingsOffset : Nat
  postingsLength : Nat
deriving DecidableEq, Repr

/-- The scan of the term map: it ends at the term, or at the first term above it. -/
def findTermLoop (term : Bytes) : Nat → Bytes → TermEntry
  | 0, _ => ⟨0, 0⟩
  | terms + 1, s =>
      match readLe 2 s with
      | none => ⟨0, 0⟩
      | some (termLen, s) =>
          if s.length < termLen + 8 + 4 then ⟨0, 0⟩
          else
            let cmpResult := fastStringCompare term (s.take termLen)
            let s := s.drop termLen
            if cmpResult = 0 then ⟨leValue (s.take 8), leValue ((s.drop 8).take 4)⟩
            else if cmpResult < 0 then ⟨0, 0⟩
            else findTermLoop term terms (s.drop 12)

def MMapIndex.findTerm (index : MMapIndex) (term : Bytes) : TermEntry :=
  if term = [] then ⟨0, 0⟩
  else if 4 < index.termMapData.length then
    findTermLoop term index.termCount (index.termMapData.drop 4)
  else ⟨0, 0⟩

section Reading

variable {S : Type} (single : SinglePrecision S)

/-- The postings of a list, up to the count that it states or the first that is cut off. -/
def decodeEntries : Nat → Nat → Bytes → List (Posting S)
  | 0, _, _ => []
  | docs + 1, prevDocHash, s =>
      if s = [] then []
      else
        let (deltaValue, s) := readVarint 0 0 s
        let docHash := if prevDocHash = 0 then deltaValue else (prevDocHash + deltaValue) % 2 ^ 32
        match readLe 4 s with
        | none => []
        | some (scoreValue, s) =>
            match readLe 2 s with
            | none => []
            | some (docIdLen, s) =>
                if s.length < docIdLen then []
                else
                  { documentId := s.take docIdLen, collection := []
                    score := single.ofFloat (UInt32.ofNat scoreValue), positions := [] } ::
                  decodeEntries docs docHash (s.drop docIdLen)

def decodePostings (data : Bytes) : List (Posting S) :=
  match readLe 4 data with
  | none => []
  | some (docCount, s) => decodeEntries single docCount 0 s

def MMapIndex.searchTerm (index : MMapIndex) (term : Bytes) : List (Posting S) :=
  let entry := index.findTerm term
  if entry.postingsLength = 0 then []
  else if index.postingsData.length < entry.postingsOffset ∨
      index.postingsData.length - entry.postingsOffset < entry.postingsLength then []
  else decodePostings single
    ((index.postingsData.drop entry.postingsOffset).take entry.postingsLength)

end Reading

end Hlquery.Index
