import Hlquery.Store.Keys

/-!
# The ids of documents

A document is stored under `doc:`, its collection, a colon and its id. Whoever goes through the keys of a
collection takes what follows the last colon for the id, and fetches the document that has it. Of a
document its id and the rest are kept, of the store the map from keys to documents that it comes to.
That the index has memory for a document is left out.
-/

set_option autoImplicit false

namespace Hlquery.Store

open Bytes

structure StoredDocument where
  id : Bytes
  body : Bytes
  deriving DecidableEq

/-- Each document is stored under its own id. -/
structure DocumentStore where
  docs : ByteMap StoredDocument
  keyed : ∀ {key doc}, docs[key]? = some doc → ∃ k : DocKey, key = k.toBytes ∧ k.docId = doc.id

def afterLastColon (key : Bytes) : Bytes := (key.reverse.takeWhile (· != 58)).reverse

def extractDocumentIDFromKey (key : Bytes) : Bytes := if 58 ∈ key then afterLastColon key else []

namespace DocumentStore

variable (s : DocumentStore) (collection : Bytes)

/-- What `PrefixKeys` and `Keys` answer for the documents of a collection. -/
def keys : List Bytes := s.docs.prefixKeys (lit "doc:" ++ (collection ++ [58]))

def getDocument (id : Bytes) : Option StoredDocument :=
  s.docs[lit "doc:" ++ (collection ++ 58 :: id)]?

def listDocuments (limit offset : Int) : List StoredDocument :=
  let keys := (s.keys collection).drop offset.toNat
  (if 0 < limit then keys.take limit.toNat else keys).filterMap fun key =>
    s.getDocument collection (afterLastColon key)

/-- The documents that `RebuildCollectionIndex` gives to the index. -/
def rebuiltDocuments : List StoredDocument :=
  (s.keys collection).filterMap fun key =>
    let id := extractDocumentIDFromKey key
    if id = [] then none else s.getDocument collection id

def maxIndexDocuments : Nat := 1000000

/-- The documents that `LazyLoadCollectionIndex` gives to the index. -/
def lazyDocuments : List StoredDocument :=
  ((s.keys collection).take maxIndexDocuments).filterMap fun key =>
    let id := extractDocumentIDFromKey key
    if id = [] then none else s.getDocument collection id

/-! ## Writing -/

inductive WritePath where
  | addDocument
  | bulkImport
  | updateDocument

/-- Whether a path takes the id; none takes an empty one. The bytes of an id are checked by one of them. -/
def accepts (k : DocKey) : WritePath → Bool
  | .addDocument =>
    k.docId.length ≤ 256 &&
      k.docId.all fun b => isAlnum b || b == chr '_' || b == chr '-' || b == chr '.'
  | .bulkImport => true
  | .updateDocument => (s.getDocument k.collection k.docId).isSome

def write (k : DocKey) (body : Bytes) : DocumentStore where
  docs := s.docs.insert k.toBytes ⟨k.docId, body⟩
  keyed := by
    intro key doc h
    rw [ByteMap.get_insert] at h
    split at h
    · rename_i hkey
      cases h
      exact ⟨k, hkey, rfl⟩
    · exact s.keyed h

/-- The document is fetched, listed and indexed under its own id. -/
structure Found (doc : StoredDocument) : Prop where
  fetched : s.getDocument collection doc.id = some doc
  listed : doc ∈ s.listDocuments collection 0 0
  lazy : doc ∈ s.lazyDocuments collection
  rebuilt : doc ∈ s.rebuiltDocuments collection

end DocumentStore

theorem afterLastColon_append {id : Bytes} (h : 58 ∉ id) (p : Bytes) :
    afterLastColon (p ++ 58 :: id) = id := by
  have hid : ∀ b ∈ id.reverse, (b != 58) = true := by
    intro b hb
    have hne : b ≠ 58 := fun e => h (e ▸ List.mem_reverse.mp hb)
    simpa using hne
  unfold afterLastColon
  rw [List.reverse_append, List.reverse_cons, List.append_assoc, List.takeWhile_append_of_pos hid]
  simp

theorem colon_not_mem_afterLastColon (key : Bytes) : 58 ∉ afterLastColon key := by
  intro h
  simpa using List.mem_takeWhile_imp (List.mem_reverse.mp h)

namespace DocumentStore

variable {s : DocumentStore} {k : DocKey} {doc : StoredDocument} {id : Bytes}

theorem id_of_getDocument (h : s.getDocument k.collection id = some doc) : id = doc.id := by
  obtain ⟨k', hk', hid⟩ := s.keyed h
  have hrest := append_cons_inj k.colon_not_mem k'.colon_not_mem (List.append_cancel_left hk')
  exact hrest.2.trans hid

theorem toBytes_mem_keys (body : Bytes) : k.toBytes ∈ (s.write k body).keys k.collection := by
  refine ByteMap.mem_prefixKeys.mpr ⟨Std.ExtTreeMap.mem_insert_self, startsWith_iff.mpr ⟨k.docId, ?_⟩⟩
  simp [DocKey.toBytes, DocKey.rest]

theorem colon_not_mem_of_add (h : s.accepts k .addDocument = true) : 58 ∉ k.docId := by
  intro hmem
  have hall := List.all_eq_true.mp (Bool.and_eq_true_iff.mp h).2 58 hmem
  exact absurd hall (by decide)

def noDocuments : DocumentStore := ⟨∅, by simp⟩

def keyOf (id : String) (h : lit id ≠ []) : DocKey := ⟨lit "c", lit id, by decide, by decide, h⟩

/-- A write to another collection is not among the keys of this one. -/
theorem write_apart {collection : Bytes} (h : k.collection ≠ collection) (hc : 58 ∉ collection)
    (body : Bytes) : (s.write k body).getDocument collection = s.getDocument collection ∧
      (s.write k body).keys collection = s.keys collection := by
  have hne : ∀ t, k.toBytes ≠ lit "doc:" ++ (collection ++ 58 :: t) := by
    intro t heq
    exact h (append_cons_inj k.colon_not_mem hc (List.append_cancel_left heq)).1
  constructor
  · funext id
    exact (ByteMap.get_insert ..).trans (if_neg (hne id).symm)
  · unfold keys
    apply ByteMap.eq_of_sorted (ByteMap.prefixKeys_sorted ..) (ByteMap.prefixKeys_sorted ..)
    intro key
    rw [ByteMap.mem_prefixKeys, ByteMap.mem_prefixKeys, and_congr_left_iff]
    intro hstart
    obtain ⟨t, rfl⟩ := startsWith_iff.mp hstart
    simp [write, Std.ExtTreeMap.mem_insert, hne t]

def writeAll (s : DocumentStore) (writes : List (DocKey × Bytes)) : DocumentStore :=
  writes.foldl (fun s w => s.write w.1 w.2) s

theorem writeAll_apart {collection : Bytes} (hc : 58 ∉ collection) {writes : List (DocKey × Bytes)}
    (h : ∀ w ∈ writes, w.1.collection ≠ collection) (s : DocumentStore) :
    (s.writeAll writes).getDocument collection = s.getDocument collection ∧
      (s.writeAll writes).keys collection = s.keys collection := by
  induction writes generalizing s with
  | nil => exact ⟨rfl, rfl⟩
  | cons w writes ih =>
    obtain ⟨hget, hkeys⟩ := write_apart (s := s) (h w (by simp)) hc w.2
    obtain ⟨hget', hkeys'⟩ := ih (fun w' hw' => h w' (by simp [hw'])) (s.write w.1 w.2)
    exact ⟨hget'.trans hget, hkeys'.trans hkeys⟩

/-- **What is written to other collections changes no answer about a collection.** -/
theorem others_unchanged (s : DocumentStore) {collection : Bytes} (hc : 58 ∉ collection)
    {writes : List (DocKey × Bytes)} (h : ∀ w ∈ writes, w.1.collection ≠ collection) :
    (s.writeAll writes).getDocument collection = s.getDocument collection ∧
      (s.writeAll writes).listDocuments collection = s.listDocuments collection ∧
      (s.writeAll writes).lazyDocuments collection = s.lazyDocuments collection ∧
      (s.writeAll writes).rebuiltDocuments collection = s.rebuiltDocuments collection := by
  obtain ⟨hget, hkeys⟩ := writeAll_apart hc h s
  refine ⟨hget, ?_, ?_, ?_⟩
  · funext limit offset
    simp only [listDocuments, hget, hkeys]
  · simp only [lazyDocuments, hget, hkeys]
  · simp only [rebuiltDocuments, hget, hkeys]

theorem others_unchanged_beside :
    (noDocuments.writeAll [(keyOf "a:b" (by decide), lit "x")]).listDocuments (lit "d") =
      noDocuments.listDocuments (lit "d") :=
  (others_unchanged noDocuments (by decide) (by simp [keyOf, lit])).2.1

end DocumentStore

end Hlquery.Store
