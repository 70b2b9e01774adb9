import Hlquery.Lib.Wire
import Hlquery.Http.Authorize

/-!
# The key file

`keys.dat` holds the API keys of a node: a count, and for each key its texts, its scopes and its
numbers, as `SaveKeySnapshotToEncryptedFile` of `apikeymanager.cpp` writes them one behind the
other. `LoadKeysFromEncryptedFile` reads them back and trusts nothing it reads: every length and
every count has a bound of its own, and at the first one that is exceeded it stops, with the keys
that it has read so far.

The writer knows none of these bounds. So there are two results about the pair: a key within the
bounds is read back as it was (`readKey_writeKey`), and a key that is read back is within the bounds
(`readKey_bounds`), whatever bytes it was read from.
-/

set_option autoImplicit false

namespace Hlquery.Keys

open Bytes Http

/-- `APIKey` with the fields that are saved. The two points in time that are not saved are left
out; the expiration is the count of the clock's ticks. -/
structure StoredKey extends APIKey where
  keyHash : Bytes
  description : Bytes
  expiresAt : Int64 := 0
  hasExpiration : Bool := false
  rateLimitPerMinute : Int32 := 1000
  allowHanalyzer : Bool := false
  useCount : Int32 := 0

/-! ## Bounds -/

def maxKeysDatSize : Nat := 64 * 1024 * 1024
def maxKeyCount : Nat := 100000
def maxScopeCount : Nat := 10000
def maxActionCount : Nat := 1024
def maxKeyIdLen : Nat := 256
def maxKeyHashLen : Nat := 256
def maxKeyDescriptionLen : Nat := 4096
def maxCollectionNameLen : Nat := 256
def maxEmbeddedFiltersLen : Nat := 64 * 1024

/-! ## Writing -/

structure HashOrder where
  keys : ByteMap StoredKey → List (Bytes × StoredKey)
  scopes : ByteMap CollectionScope → List (Bytes × CollectionScope)
  keys_perm : ∀ m, (keys m).Perm m.toList
  scopes_perm : ∀ m, (scopes m).Perm m.toList

def actionValue : APIKeyAction → Nat
  | .search => 0
  | .create => 1
  | .update => 2
  | .delete => 3
  | .collectionsList => 4
  | .collectionsCreate => 5
  | .collectionsDelete => 6
  | .importDocuments => 7
  | .all => 8

def writeAction (action : APIKeyAction) : Bytes := Wire.le 4 (actionValue action)

def writeBool (b : Bool) : Bytes := Wire.le 1 b.toNat

def writeScope (entry : Bytes × CollectionScope) : Bytes :=
  Wire.text entry.1 ++ (Wire.le 4 entry.2.actions.length ++
    (entry.2.actions.flatMap writeAction ++ Wire.text entry.2.embeddedFilters))

/-- The body of the loop of `SaveKeySnapshotToEncryptedFile`. -/
def writeKey (order : HashOrder) (key : StoredKey) : Bytes :=
  Wire.text key.id ++ (Wire.text key.keyHash ++ (Wire.text key.description ++
    (Wire.le 4 key.scopes.size ++ ((order.scopes key.scopes).flatMap writeScope ++
      (writeBool key.hasExpiration ++ (Wire.le 8 key.expiresAt.toUInt64.toNat ++
        (Wire.le 4 key.rateLimitPerMinute.toUInt32.toNat ++ (writeBool key.allowHanalyzer ++
          Wire.le 4 key.useCount.toUInt32.toNat))))))))

def writeKeys (order : HashOrder) (keys : ByteMap StoredKey) : Bytes :=
  Wire.le 4 keys.size ++ (order.keys keys).flatMap fun kv => writeKey order kv.2

/-! ## Reading -/

/-- The cast to the enumeration. A number that is no enumerator is kept by the source as an action
that no request asks for; here it is left out. -/
def actionOfValue : Nat → Option APIKeyAction
  | 0 => some .search
  | 1 => some .create
  | 2 => some .update
  | 3 => some .delete
  | 4 => some .collectionsList
  | 5 => some .collectionsCreate
  | 6 => some .collectionsDelete
  | 7 => some .importDocuments
  | 8 => some .all
  | _ => none

/-- `Actions.insert`: the set as the list of its elements, in the order in which they came. -/
def insertAction (actions : List APIKeyAction) (action : APIKeyAction) : List APIKeyAction :=
  if action ∈ actions then actions else actions ++ [action]

def actionSet (actions : List APIKeyAction) : List APIKeyAction := actions.foldl insertAction []

def readScope (s : Bytes) : Option ((Bytes × CollectionScope) × Bytes) :=
  match Wire.readText maxCollectionNameLen s with
  | none => none
  | some (name, s) =>
  match Wire.readLe 4 s with
  | none => none
  | some (actionCount, s) =>
  if maxActionCount < actionCount then none else
  match Wire.readMany (Wire.readLe 4) actionCount s with
  | none => none
  | some (values, s) =>
  match Wire.readText maxEmbeddedFiltersLen s with
  | none => none
  | some (embeddedFilters, s) =>
  some ((name, { actions := actionSet (values.filterMap actionOfValue), embeddedFilters }), s)

/-- The body of the loop of `LoadKeysFromEncryptedFile`. -/
def readKey (s : Bytes) : Option (StoredKey × Bytes) :=
  match Wire.readText maxKeyIdLen s with
  | none => none
  | some (id, s) =>
  match Wire.readText maxKeyHashLen s with
  | none => none
  | some (keyHash, s) =>
  match Wire.readText maxKeyDescriptionLen s with
  | none => none
  | some (description, s) =>
  match Wire.readLe 4 s with
  | none => none
  | some (scopeCount, s) =>
  if maxScopeCount < scopeCount then none else
  match Wire.readMany readScope scopeCount s with
  | none => none
  | some (scopes, s) =>
  match Wire.readLe 1 s with
  | none => none
  | some (hasExpiration, s) =>
  match Wire.readLe 8 s with
  | none => none
  | some (expiresAt, s) =>
  match Wire.readLe 4 s with
  | none => none
  | some (rateLimit, s) =>
  match Wire.readLe 1 s with
  | none => none
  | some (allowHanalyzer, s) =>
  match Wire.readLe 4 s with
  | none => none
  | some (useCount, s) =>
  let rateLimitPerMinute : Int32 := .ofUInt32 (.ofNat rateLimit)
  some ({ id, keyHash, description
          scopes := ByteMap.insertAll ∅ scopes
          expiresAt := .ofUInt64 (.ofNat expiresAt)
          hasExpiration := hasExpiration != 0
          rateLimitPerMinute := if rateLimitPerMinute ≤ 0 then 1000 else rateLimitPerMinute
          allowHanalyzer := allowHanalyzer != 0
          useCount := .ofUInt32 (.ofNat useCount) }, s)

/-! ## The reader undoes the writer -/

theorem readBool_append (b : Bool) (s : Bytes) :
    Wire.readLe 1 (writeBool b ++ s) = some (b.toNat, s) :=
  Wire.readLe_append (by cases b <;> decide) s

theorem actionOfValue_actionValue (action : APIKeyAction) :
    actionOfValue (actionValue action) = some action := by
  cases action <;> rfl

theorem foldl_insertAction : ∀ {actions seen : List APIKeyAction}, (seen ++ actions).Nodup →
    actions.foldl insertAction seen = seen ++ actions
  | [], seen, _ => by simp
  | action :: actions, seen, h => by
    have hnew : action ∉ seen := fun hmem =>
      (List.nodup_append.mp h).2.2 action hmem action (by simp) rfl
    have ih : actions.foldl insertAction (seen ++ [action]) = seen ++ [action] ++ actions :=
      foldl_insertAction (by simpa using h)
    rw [List.foldl_cons, insertAction, if_neg hnew, ih]
    simp

theorem actionSet_of_nodup {actions : List APIKeyAction} (h : actions.Nodup) :
    actionSet actions = actions :=
  @foldl_insertAction actions [] h

theorem length_actions_le {actions : List APIKeyAction} (h : actions.Nodup) :
    actions.length ≤ 9 := by
  have hinj : Function.Injective actionValue := fun a b hab => by
    have := congrArg actionOfValue hab
    rw [actionOfValue_actionValue, actionOfValue_actionValue] at this
    exact Option.some.inj this
  have hsub : ∀ n ∈ actions.map actionValue, n ∈ List.range 9 := by
    intro n hn
    obtain ⟨a, -, rfl⟩ := List.mem_map.mp hn
    cases a <;> decide
  have hlen := (List.subperm_of_subset (h.map hinj) hsub).length_le
  simpa using hlen

def ScopeBounds (entry : Bytes × CollectionScope) : Prop :=
  entry.1.length ≤ maxCollectionNameLen ∧ entry.2.embeddedFilters.length ≤ maxEmbeddedFiltersLen

/-- A key within the bounds of the reader, where a key of the handlers can exceed them. -/
structure KeyBounds (key : StoredKey) : Prop where
  description : key.description.length ≤ maxKeyDescriptionLen
  scopeCount : key.scopes.size ≤ maxScopeCount
  scopes : ∀ (name : Bytes) scope, key.scopes[name]? = some scope → ScopeBounds (name, scope)

/-- What the handlers and `CreateKey` make sure of. -/
structure KeyMade (key : StoredKey) : Prop where
  id : key.id.length ≤ maxKeyIdLen
  keyHash : key.keyHash.length ≤ maxKeyHashLen
  rateLimit : ¬ key.rateLimitPerMinute ≤ 0
  actions : ∀ (name : Bytes) scope, key.scopes[name]? = some scope → scope.actions.Nodup

variable {entry : Bytes × CollectionScope} {key : StoredKey}

theorem readScope_writeScope (hb : ScopeBounds entry) (hactions : entry.2.actions.Nodup)
    (s : Bytes) : readScope (writeScope entry ++ s) = some (entry, s) := by
  have hlen : entry.2.actions.length ≤ 9 := length_actions_le hactions
  have hmany : ∀ t, Wire.readMany (Wire.readLe 4) entry.2.actions.length
      (entry.2.actions.flatMap writeAction ++ t) = some (entry.2.actions.map actionValue, t) := by
    intro t
    have h : Wire.readMany (Wire.readLe 4) (entry.2.actions.map actionValue).length
        ((entry.2.actions.map actionValue).flatMap (Wire.le 4) ++ t) =
          some (entry.2.actions.map actionValue, t) :=
      Wire.readMany_flatMap t fun n hn u => by
        obtain ⟨a, -, rfl⟩ := List.mem_map.mp hn
        exact Wire.readLe_append (by cases a <;> decide) u
    rw [List.length_map, List.flatMap_map] at h
    exact h
  have hvalues : (entry.2.actions.map actionValue).filterMap actionOfValue = entry.2.actions := by
    simp [actionOfValue_actionValue]
  unfold readScope writeScope
  simp only [List.append_assoc, Wire.readText_append hb.1 (by decide),
    Wire.readLe_append (show entry.2.actions.length < 256 ^ 4 by omega),
    Nat.not_lt.mpr (show entry.2.actions.length ≤ maxActionCount by unfold maxActionCount; omega),
    if_false, hmany, Wire.readText_append hb.2 (by decide), hvalues, actionSet_of_nodup hactions]

/-- **A key within the bounds is read back as it was.** -/
theorem readKey_writeKey (hb : KeyBounds key) (hm : KeyMade key) (order : HashOrder) (s : Bytes) :
    readKey (writeKey order key ++ s) = some (key, s) := by
  have hperm := order.scopes_perm key.scopes
  have hlen : (order.scopes key.scopes).length = key.scopes.size := by
    rw [hperm.length_eq, Std.ExtTreeMap.length_toList]
  have hscopes : ∀ t, Wire.readMany readScope key.scopes.size
      ((order.scopes key.scopes).flatMap writeScope ++ t) = some (order.scopes key.scopes, t) := by
    intro t
    rw [← hlen]
    refine Wire.readMany_flatMap t fun entry hentry u => ?_
    have hget := Std.ExtTreeMap.mem_toList_iff_getElem?_eq_some.mp (hperm.mem_iff.mp hentry)
    exact readScope_writeScope (hb.scopes _ _ hget) (hm.actions _ _ hget) u
  have hcount : key.scopes.size < 256 ^ 4 :=
    Nat.lt_of_le_of_lt hb.scopeCount (by decide)
  have hexpires : key.expiresAt.toUInt64.toNat < 256 ^ 8 := key.expiresAt.toUInt64.toNat_lt
  have hrate : key.rateLimitPerMinute.toUInt32.toNat < 256 ^ 4 :=
    key.rateLimitPerMinute.toUInt32.toNat_lt
  have huse : key.useCount.toUInt32.toNat < 256 ^ 4 := key.useCount.toUInt32.toNat_lt
  have hbool : ∀ b : Bool, (b.toNat != 0) = b := by decide
  unfold readKey writeKey
  simp only [List.append_assoc, Wire.readText_append hm.id (by decide),
    Wire.readText_append hm.keyHash (by decide), Wire.readText_append hb.description (by decide),
    Wire.readLe_append hcount, Nat.not_lt.mpr hb.scopeCount, if_false, hscopes, readBool_append,
    Wire.readLe_append hexpires, Wire.readLe_append hrate, Wire.readLe_append huse, hbool,
    UInt32.ofNat_toNat, UInt64.ofNat_toNat, ByteMap.insertAll_of_perm hperm]
  simp [show Int32.ofUInt32 key.rateLimitPerMinute.toUInt32 = key.rateLimitPerMinute from rfl,
    hm.rateLimit]

/-! ## What the reader lets through -/

theorem readScope_bounds {s rest : Bytes} (h : readScope s = some (entry, rest)) :
    ScopeBounds entry := by
  unfold readScope at h
  split at h
  · cases h
  rename_i hname
  split at h
  · cases h
  split at h
  · cases h
  split at h
  · cases h
  split at h
  · cases h
  rename_i hfilters
  cases h
  exact ⟨Wire.length_le_of_readText hname, Wire.length_le_of_readText hfilters⟩

/-- **Every key that is read is within the bounds.** -/
theorem readKey_bounds {s rest : Bytes} (h : readKey s = some (key, rest)) : KeyBounds key := by
  unfold readKey at h
  split at h
  · cases h
  split at h
  · cases h
  split at h
  · cases h
  rename_i hdescription
  split at h
  · cases h
  split at h
  · cases h
  split at h
  · cases h
  rename_i scopes _ hscopes
  split at h
  · cases h
  split at h
  · cases h
  split at h
  · cases h
  split at h
  · cases h
  split at h
  · cases h
  cases h
  obtain ⟨hlen, hread⟩ := Wire.readMany_spec hscopes
  refine ⟨Wire.length_le_of_readText hdescription, ?_, fun name scope hget => ?_⟩
  · have hsize := ByteMap.size_insertAll_le scopes ∅
    rw [hlen, Std.ExtTreeMap.size_empty] at hsize
    show (ByteMap.insertAll ∅ scopes).size ≤ maxScopeCount
    omega
  · rcases ByteMap.mem_of_get_insertAll hget with hmem | hnone
    · obtain ⟨t, t', ht⟩ := hread _ hmem
      exact readScope_bounds ht
    · cases hnone

/-! ## Sizes -/

def scopeSize (entry : Bytes × CollectionScope) : Nat :=
  4 + entry.1.length + 4 + 4 * entry.2.actions.length + 4 + entry.2.embeddedFilters.length

def keySize (key : StoredKey) : Nat :=
  4 + key.id.length + 4 + key.keyHash.length + 4 + key.description.length + 4 +
    (key.scopes.toList.map scopeSize).sum + 1 + 8 + 4 + 1 + 4

def plaintextSize (keys : ByteMap StoredKey) : Nat :=
  4 + (keys.toList.map fun kv => keySize kv.2).sum

theorem length_writeScope (hb : ScopeBounds entry) :
    (writeScope entry).length = scopeSize entry := by
  have hname : entry.1.length < 256 ^ 4 := Nat.lt_of_le_of_lt hb.1 (by decide)
  have hfilters : entry.2.embeddedFilters.length < 256 ^ 4 := Nat.lt_of_le_of_lt hb.2 (by decide)
  have hactions : (entry.2.actions.flatMap writeAction).length = 4 * entry.2.actions.length := by
    simp [writeAction, Nat.mul_comm]
  unfold writeScope scopeSize
  simp only [List.length_append, Wire.length_le, Wire.length_text hname,
    Wire.length_text hfilters, hactions]
  omega

theorem length_flatMap_of_perm {α : Type} {l l' : List α} (h : l.Perm l') {f : α → Bytes}
    {size : α → Nat} (hsize : ∀ a ∈ l', (f a).length = size a) :
    (l.flatMap f).length = (l'.map size).sum := by
  rw [List.length_flatMap, (h.map _).sum_nat]
  exact congrArg List.sum (List.map_congr_left hsize)

theorem length_writeKey (hb : KeyBounds key) (hm : KeyMade key) (order : HashOrder) :
    (writeKey order key).length = keySize key := by
  have hid : key.id.length < 256 ^ 4 := Nat.lt_of_le_of_lt hm.id (by decide)
  have hhash : key.keyHash.length < 256 ^ 4 := Nat.lt_of_le_of_lt hm.keyHash (by decide)
  have hdescription : key.description.length < 256 ^ 4 :=
    Nat.lt_of_le_of_lt hb.description (by decide)
  have hscopes := length_flatMap_of_perm (order.scopes_perm key.scopes) (f := writeScope)
    fun entry hentry => length_writeScope
      (hb.scopes _ _ (Std.ExtTreeMap.mem_toList_iff_getElem?_eq_some.mp hentry))
  unfold writeKey keySize writeBool
  simp only [List.length_append, Wire.length_le, Wire.length_text hid, Wire.length_text hhash,
    Wire.length_text hdescription, hscopes]
  omega

theorem length_writeKeys {keys : ByteMap StoredKey}
    (hb : ∀ (id : Bytes) key, keys[id]? = some key → KeyBounds key ∧ KeyMade key) (order : HashOrder) :
    (writeKeys order keys).length = plaintextSize keys := by
  have hkeys := length_flatMap_of_perm (order.keys_perm keys) (f := fun kv => writeKey order kv.2)
    fun kv hkv => by
      obtain ⟨hb, hm⟩ := hb _ _ (Std.ExtTreeMap.mem_toList_iff_getElem?_eq_some.mp hkv)
      exact length_writeKey hb hm order
  unfold writeKeys plaintextSize
  rw [List.length_append, Wire.length_le, hkeys]

end Hlquery.Keys
