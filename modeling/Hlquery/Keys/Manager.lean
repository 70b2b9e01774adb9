import Hlquery.Keys.KeyFile

/-!
# API keys over a restart

The handlers of `keys.cpp` make a key of the body of a request, and `APIKeyManager` puts it into its
maps and saves all keys at once; a restart starts from empty maps and loads the file. The JSON
library is outside: a `KeyBody` is what the handlers find in a parsed body, and a body of other types
is refused before anything happens.

The result is an equivalence. After any sequence of creations, updates and deletions that were
accepted, a restart gives the same keys back **if and only if** every key is within the bounds of the
reader, there are not too many of them and the file is not too large. The handlers check none of
these, so one key with a long name of a collection, once accepted, takes with it all the keys behind
it in the file.
-/

set_option autoImplicit false

namespace Hlquery.Keys

open Bytes Http

/-! ## Bodies -/

/-- The object of one collection in `scopes`. -/
structure ScopeBody where
  actions : Option (List Bytes) := none
  embeddedFilters : Option Bytes := none

structure KeyBody where
  description : Option Bytes := none
  rateLimitPerMinute : Option Int32 := none
  allowHanalyzer : Option Bool := none
  scopes : Option (List (Bytes × ScopeBody)) := none
  collections : Option (List Bytes) := none
  actions : Option (List Bytes) := none
  embeddedFilters : Option Bytes := none
  addCollections : Option (List Bytes) := none
  removeCollections : Option (List Bytes) := none

/-- `StringToAction`. -/
def stringToAction (s : Bytes) : Option APIKeyAction :=
  if s = lit "search" then some .search
  else if s = lit "create" then some .create
  else if s = lit "update" then some .update
  else if s = lit "delete" then some .delete
  else if s = lit "collections_list" then some .collectionsList
  else if s = lit "collections_create" then some .collectionsCreate
  else if s = lit "collections_delete" then some .collectionsDelete
  else if s = lit "import" then some .importDocuments
  else if s = lit "*" ∨ s = lit "all" then some .all
  else none

/-- `ParseActionOrThrow`. -/
def parseActionOrThrow (s : Bytes) : Except Bytes APIKeyAction :=
  match stringToAction s with
  | none => .error (lit "Invalid API key action: " ++ s)
  | some action => .ok action

/-- `ParseRateLimitOrThrow`. -/
def parseRateLimitOrThrow (rateLimit : Int32) : Except Bytes Int32 :=
  if rateLimit ≤ 0 then .error (lit "rate_limit_per_minute must be greater than 0")
  else .ok rateLimit

/-- The loops over `actions`. -/
def parseActions (names : List Bytes) : Except Bytes (List APIKeyAction) :=
  names.foldlM (fun actions name => (parseActionOrThrow name).map (insertAction actions)) []

def parseScope (body : ScopeBody) : Except Bytes CollectionScope :=
  (parseActions (body.actions.getD [])).map fun actions =>
    { actions, embeddedFilters := body.embeddedFilters.getD [] }

/-- The loop over `scopes`. -/
def parseScopes (bodies : List (Bytes × ScopeBody)) : Except Bytes (ByteMap CollectionScope) :=
  bodies.foldlM (fun scopes entry => (parseScope entry.2).map (scopes.insert entry.1)) ∅

def addScopes (scopes : ByteMap CollectionScope) (collections : List Bytes)
    (scope : CollectionScope) : ByteMap CollectionScope :=
  scopes.insertAll (collections.map fun collection => (collection, scope))

def rateLimitOr (rateLimit : Int32) (body : KeyBody) : Except Bytes Int32 :=
  match body.rateLimitPerMinute with
  | some rateLimit => parseRateLimitOrThrow rateLimit
  | none => .ok rateLimit

def createScopes (body : KeyBody) : Except Bytes (ByteMap CollectionScope) :=
  match body.scopes, body.collections with
  | some bodies, _ => parseScopes bodies
  | none, some collections =>
    (parseActions (body.actions.getD [])).map fun actions =>
      addScopes ∅ collections { actions, embeddedFilters := body.embeddedFilters.getD [] }
  | none, none => .ok ∅

/-- The key that `HandleCreateKey` passes on. -/
def createSpec (body : KeyBody) : Except Bytes StoredKey := do
  let rateLimitPerMinute ← rateLimitOr 1000 body
  let scopes ← createScopes body
  .ok { id := [], keyHash := [], description := body.description.getD [], scopes
        rateLimitPerMinute, allowHanalyzer := body.allowHanalyzer.getD false }

/-- `collections` of an update. The old scopes are cleared before they are asked for actions and
filters, so there are none to be found. -/
def replaceCollections (body : KeyBody) (given : List APIKeyAction)
    (scopes : ByteMap CollectionScope) : ByteMap CollectionScope :=
  match body.collections with
  | none => scopes
  | some collections =>
    addScopes ∅ collections { actions := given, embeddedFilters := body.embeddedFilters.getD [] }

variable (order : HashOrder)

/-- The actions that `add_collections` gives: without `actions` in the body those of
`Scopes.begin()`, whichever scope the hash map has first. -/
def addedActions (body : KeyBody) (given : List APIKeyAction)
    (scopes : ByteMap CollectionScope) : List APIKeyAction :=
  let actions := match body.actions, (order.scopes scopes).head? with
    | none, some (_, scope) => scope.actions
    | _, _ => given
  if actions = [] then [.search] else actions

def addedFilters (body : KeyBody) (scopes : ByteMap CollectionScope) : Bytes :=
  match body.embeddedFilters, (order.scopes scopes).head? with
  | none, some (_, scope) => scope.embeddedFilters
  | filters, _ => filters.getD []

/-- `add_collections` of an update. -/
def addCollections (body : KeyBody) (given : List APIKeyAction)
    (scopes : ByteMap CollectionScope) : ByteMap CollectionScope :=
  match body.addCollections with
  | none => scopes
  | some collections =>
    addScopes scopes collections
      { actions := addedActions order body given scopes
        embeddedFilters := addedFilters order body scopes }

/-- `remove_collections` of an update. -/
def removeCollections (body : KeyBody) (scopes : ByteMap CollectionScope) :
    ByteMap CollectionScope :=
  (body.removeCollections.getD []).foldl (fun scopes c => scopes.erase c) scopes

def applyToAll (body : KeyBody) (given : List APIKeyAction) (scopes : ByteMap CollectionScope) :
    ByteMap CollectionScope :=
  if body.collections.isNone ∧ body.addCollections.isNone then
    scopes.map fun _ scope =>
      { actions := if body.actions.isSome then given else scope.actions
        embeddedFilters := body.embeddedFilters.getD scope.embeddedFilters }
  else scopes

def updateScopes (body : KeyBody) (scopes : ByteMap CollectionScope) :
    Except Bytes (ByteMap CollectionScope) :=
  match body.scopes with
  | some bodies => parseScopes bodies
  | none =>
    if body.collections.isSome ∨ body.actions.isSome ∨ body.embeddedFilters.isSome ∨
        body.addCollections.isSome ∨ body.removeCollections.isSome then
      (parseActions (body.actions.getD [])).map fun given =>
        applyToAll body given (removeCollections body
          (addCollections order body given (replaceCollections body given scopes)))
    else .ok scopes

/-- The key that `HandleUpdateKey` passes on. -/
def updateSpec (body : KeyBody) (existing : StoredKey) :
    Except Bytes StoredKey := do
  let rateLimitPerMinute ← rateLimitOr existing.rateLimitPerMinute body
  let scopes ← updateScopes order body existing.scopes
  .ok { existing with
        description := body.description.getD existing.description
        scopes, rateLimitPerMinute
        allowHanalyzer := body.allowHanalyzer.getD existing.allowHanalyzer }

/-! ## The manager -/

/-- `AES256Encrypt` and `AES256Decrypt` under the key of the node, with what is assumed of them: a
decryption gives the plaintext back, and an encrypted text has a size that is known beforehand and
not much larger. The empty string is the answer of an encryption that failed. -/
structure Cipher where
  encrypt : (iv plaintext : Bytes) → Bytes
  decrypt : Bytes → Bytes
  size : Nat → Nat
  decrypt_encrypt : ∀ iv plaintext, encrypt iv plaintext ≠ [] →
    decrypt (encrypt iv plaintext) = plaintext
  length_encrypt : ∀ iv plaintext, encrypt iv plaintext ≠ [] →
    (encrypt iv plaintext).length = size plaintext.length
  size_le : ∀ n, size n ≤ n + 32

/-- `APIKeyManager` and its file. -/
structure Manager where
  keys : ByteMap StoredKey := ∅
  hashToID : ByteMap Bytes := ∅
  /-- `keys.dat`. -/
  file : Option Bytes := none

/-- `Hex`. -/
def hex (bytes : List UInt8) : Bytes :=
  bytes.flatMap fun b =>
    [(lit "0123456789abcdef").getD (b.toNat / 16) 0, (lit "0123456789abcdef").getD (b.toNat % 16) 0]

structure SaveInput where
  iv : Bytes
  written : Bool

/-- `SaveKeySnapshotToEncryptedFile`. -/
def saveKeySnapshot (cipher : Cipher) (order : HashOrder) (input : SaveInput) (m : Manager) :
    Bool × Manager :=
  let encrypted := cipher.encrypt input.iv (writeKeys order m.keys)
  if encrypted = [] then (false, m)
  else if input.written then (true, { m with file := some encrypted })
  else (false, m)

/-- `CreateKey` for a key without an id. -/
def createKey (cipher : Cipher) (order : HashOrder) (input : SaveInput) (m : Manager)
    (spec : StoredKey) (idBytes : Vector UInt8 8) (digest : Vector UInt8 32) : Bool × Manager :=
  let hashed := hex digest.toList
  let key := { spec with
    id := hex idBytes.toList, keyHash := hashed, hasExpiration := false, expiresAt := 0 }
  match saveKeySnapshot cipher order input { m with
      keys := m.keys.insert key.id key, hashToID := m.hashToID.insert hashed key.id } with
  | (true, m) => (true, m)
  | (false, m) => (false, { m with
      keys := m.keys.erase key.id, hashToID := m.hashToID.erase hashed })

/-- `DeleteKey`. -/
def deleteKey (cipher : Cipher) (order : HashOrder) (input : SaveInput) (m : Manager)
    (keyID : Bytes) : Bool × Manager :=
  match m.keys[keyID]? with
  | none => (false, m)
  | some previous =>
    match saveKeySnapshot cipher order input { m with
        keys := m.keys.erase keyID, hashToID := m.hashToID.erase previous.keyHash } with
    | (true, m) => (true, m)
    | (false, m) => (false, { m with
        keys := m.keys.insert previous.id previous
        hashToID := m.hashToID.insert previous.keyHash previous.id })

/-- `UpdateKey`. -/
def updateKey (cipher : Cipher) (order : HashOrder) (input : SaveInput) (m : Manager)
    (keyID : Bytes) (spec : StoredKey) : Bool × Manager :=
  match m.keys[keyID]? with
  | none => (false, m)
  | some previous =>
    let key := { previous with
      description := spec.description, scopes := spec.scopes, expiresAt := spec.expiresAt
      hasExpiration := spec.hasExpiration, rateLimitPerMinute := spec.rateLimitPerMinute
      allowHanalyzer := spec.allowHanalyzer }
    match saveKeySnapshot cipher order input { m with keys := m.keys.insert keyID key } with
    | (true, m) => (true, m)
    | (false, m) => (false, { m with
        keys := m.keys.insert keyID previous
        hashToID := m.hashToID.insert previous.keyHash keyID })

/-- `UpdateLastUsed`, without the time. Nothing is saved. -/
def updateLastUsed (m : Manager) (keyID : Bytes) : Manager :=
  match m.keys[keyID]? with
  | none => m
  | some key => { m with keys := m.keys.insert keyID { key with useCount := key.useCount + 1 } }

/-- The loop of `LoadKeysFromEncryptedFile`. -/
def readKeys : Nat → Bytes → Manager → Bool × Manager
  | 0, _, m => (true, m)
  | count + 1, s, m =>
    match readKey s with
    | none => (false, m)
    | some (key, s) => readKeys count s { m with
        keys := m.keys.insert key.id key, hashToID := m.hashToID.insert key.keyHash key.id }

/-- `LoadKeysFromEncryptedFile`. -/
def loadKeysFromEncryptedFile (cipher : Cipher) (encrypted : Bytes) (m : Manager) :
    Bool × Manager :=
  if encrypted = [] then (false, m)
  else if maxKeysDatSize < encrypted.length then (false, m)
  else
    let plaintext := cipher.decrypt encrypted
    if plaintext = [] then (false, m)
    else match Wire.readLe 4 plaintext with
      | none => (false, m)
      | some (keyCount, s) =>
        if maxKeyCount < keyCount then (false, m)
        else readKeys keyCount s { m with keys := ∅, hashToID := ∅ }

/-- `Initialize`, which a restart runs. -/
def initializeKeys (cipher : Cipher) (m : Manager) : Bool × Manager :=
  let m := { m with keys := ∅, hashToID := ∅ }
  match m.file with
  | none => (true, m)
  | some encrypted => loadKeysFromEncryptedFile cipher encrypted m

/-! ## Requests -/

/-- A request to one of the key handlers, with the random bytes that it draws. -/
inductive KeyRequest where
  | create (body : KeyBody) (idBytes : Vector UInt8 8) (digest : Vector UInt8 32)
      (input : SaveInput)
  | update (keyID : Bytes) (body : KeyBody) (input : SaveInput)
  | delete (keyID : Bytes) (input : SaveInput)

/-- `HandleCreateKey`, `HandleUpdateKey` and `HandleDeleteKey`; `none` when the request is not
accepted. -/
def handle (cipher : Cipher) (order : HashOrder) (m : Manager) : KeyRequest → Option Manager
  | .create body idBytes digest input =>
    match createSpec body with
    | .error _ => none
    | .ok spec =>
      match createKey cipher order input m spec idBytes digest with
      | (true, m) => some m
      | (false, _) => none
  | .update keyID body input =>
    match m.keys[keyID]? with
    | none => none
    | some existing =>
      match updateSpec order body existing with
      | .error _ => none
      | .ok spec =>
        match updateKey cipher order input m keyID spec with
        | (true, m) => some m
        | (false, _) => none
  | .delete keyID input =>
    match deleteKey cipher order input m keyID with
    | (true, m) => some m
    | (false, _) => none

/-- A sequence of accepted requests, each behind the uses of keys by other requests that went
before it. -/
def handleAll (cipher : Cipher) (order : HashOrder) :
    Manager → List (List Bytes × KeyRequest) → Option Manager
  | m, [] => some m
  | m, (used, r) :: rs =>
    match handle cipher order (used.foldl updateLastUsed m) r with
    | none => none
    | some m => handleAll cipher order m rs

/-! ## What the handlers make sure of -/

theorem exists_of_bind_ok {ε α β : Type} {x : Except ε α} {f : α → Except ε β} {b : β}
    (h : (x >>= f) = .ok b) : ∃ a, x = .ok a ∧ f a = .ok b := by
  cases x with
  | error e => simp [bind, Except.bind] at h
  | ok a => exact ⟨a, rfl, h⟩

theorem exists_of_map_ok {ε α β : Type} {x : Except ε α} {f : α → β} {b : β}
    (h : x.map f = .ok b) : ∃ a, x = .ok a ∧ f a = b := by
  cases x with
  | error e => simp [Except.map] at h
  | ok a => exact ⟨a, rfl, Except.ok.inj h⟩

theorem nodup_insertAction {actions : List APIKeyAction} (h : actions.Nodup)
    (action : APIKeyAction) : (insertAction actions action).Nodup := by
  unfold insertAction
  split
  · exact h
  rename_i hnew
  exact List.nodup_append.mpr ⟨h, by simp, by
    intro a ha b hb hab
    rw [List.mem_singleton.mp hb] at hab
    exact hnew (hab ▸ ha)⟩

/-- What every round of a loop keeps holds when the loop is through. -/
theorem foldlM_ok {ε α β : Type} {P : β → Prop} {f : β → α → Except ε β}
    (hstep : ∀ {b a b'}, P b → f b a = .ok b' → P b') : ∀ {l : List α} {b b' : β}, P b →
      l.foldlM f b = .ok b' → P b'
  | [], _, _, hb, h => Except.ok.inj h ▸ hb
  | _ :: _, _, _, hb, h => by
    obtain ⟨_, ha, h⟩ := exists_of_bind_ok h
    exact foldlM_ok hstep (hstep hb ha) h

theorem parseActions_nodup {names : List Bytes} {actions : List APIKeyAction}
    (h : parseActions names = .ok actions) : actions.Nodup := by
  refine foldlM_ok (fun hseen hname => ?_) List.nodup_nil h
  obtain ⟨action, -, rfl⟩ := exists_of_map_ok hname
  exact nodup_insertAction hseen action

def ActionsNodup (scopes : ByteMap CollectionScope) : Prop :=
  ∀ (name : Bytes) scope, scopes[name]? = some scope → scope.actions.Nodup

theorem ActionsNodup.empty : ActionsNodup ∅ := fun _ _ h => nomatch h

variable {scopes : ByteMap CollectionScope} {body : KeyBody}

theorem ActionsNodup.addScopes (h : ActionsNodup scopes) {scope : CollectionScope}
    (hs : scope.actions.Nodup) (collections : List Bytes) :
    ActionsNodup (addScopes scopes collections scope) := by
  intro name scope' hget
  rcases ByteMap.mem_of_get_insertAll hget with hmem | hget
  · obtain ⟨c, -, hc⟩ := List.mem_map.mp hmem
    cases hc
    exact hs
  · exact h name scope' hget

theorem ActionsNodup.eraseAll : ∀ (names : List Bytes) {scopes : ByteMap CollectionScope},
    ActionsNodup scopes → ActionsNodup (names.foldl (fun scopes c => scopes.erase c) scopes)
  | [], _, h => h
  | name :: names, _, h => ActionsNodup.eraseAll names (ByteMap.forall_erase h name)

theorem parseScopes_nodup {bodies : List (Bytes × ScopeBody)}
    (h : parseScopes bodies = .ok scopes) : ActionsNodup scopes := by
  refine foldlM_ok (fun hseen hentry => ?_) ActionsNodup.empty h
  obtain ⟨scope, hscope, rfl⟩ := exists_of_map_ok hentry
  obtain ⟨actions, hactions, rfl⟩ := exists_of_map_ok hscope
  exact ByteMap.forall_insert hseen (parseActions_nodup hactions)

theorem parseRateLimitOrThrow_pos {r rateLimit : Int32}
    (h : parseRateLimitOrThrow r = .ok rateLimit) : ¬ rateLimit ≤ 0 := by
  unfold parseRateLimitOrThrow at h
  split at h
  · cases h
  rename_i hpos
  rw [← Except.ok.inj h]
  exact hpos

theorem rateLimitOr_pos {r rateLimit : Int32} (hr : ¬ r ≤ 0)
    (h : rateLimitOr r body = .ok rateLimit) : ¬ rateLimit ≤ 0 := by
  unfold rateLimitOr at h
  split at h
  · exact parseRateLimitOrThrow_pos h
  · rw [← Except.ok.inj h]
    exact hr

theorem createScopes_nodup (h : createScopes body = .ok scopes) : ActionsNodup scopes := by
  unfold createScopes at h
  split at h
  · exact parseScopes_nodup h
  · obtain ⟨actions, ha, rfl⟩ := exists_of_map_ok h
    exact ActionsNodup.empty.addScopes (parseActions_nodup ha) _
  · rw [← Except.ok.inj h]
    exact .empty

theorem createSpec_made {spec : StoredKey} (h : createSpec body = .ok spec) :
    ¬ spec.rateLimitPerMinute ≤ 0 ∧ ActionsNodup spec.scopes := by
  obtain ⟨rateLimit, hrate, h⟩ := exists_of_bind_ok h
  obtain ⟨scopes, hscopes, h⟩ := exists_of_bind_ok h
  rw [← Except.ok.inj h]
  exact ⟨rateLimitOr_pos (by decide) hrate, createScopes_nodup hscopes⟩

section Updates

variable {order : HashOrder} {body : KeyBody} {given : List APIKeyAction}
  {scopes : ByteMap CollectionScope}

theorem ActionsNodup.replaceCollections (hg : given.Nodup) (h : ActionsNodup scopes) :
    ActionsNodup (replaceCollections body given scopes) := by
  unfold Keys.replaceCollections
  split
  · exact h
  · exact ActionsNodup.empty.addScopes hg _

theorem addedActions_nodup (hg : given.Nodup) (h : ActionsNodup scopes) :
    (addedActions order body given scopes).Nodup := by
  have hactions : ∀ {actions : List APIKeyAction}, actions.Nodup →
      (if actions = [] then [APIKeyAction.search] else actions).Nodup := by
    intro actions ha
    split
    · simp
    · exact ha
  refine hactions ?_
  split
  · rename_i name scope _ hfirst
    have hmem := (order.scopes_perm scopes).mem_iff.mp (List.mem_of_mem_head? hfirst)
    exact h _ _ (Std.ExtTreeMap.mem_toList_iff_getElem?_eq_some.mp hmem)
  · exact hg

theorem ActionsNodup.addCollections (hg : given.Nodup) (h : ActionsNodup scopes) :
    ActionsNodup (addCollections order body given scopes) := by
  unfold Keys.addCollections
  split
  · exact h
  · exact h.addScopes (addedActions_nodup hg h) _

theorem ActionsNodup.applyToAll (hg : given.Nodup) (h : ActionsNodup scopes) :
    ActionsNodup (applyToAll body given scopes) := by
  unfold Keys.applyToAll
  split
  · intro name scope hget
    rw [Std.ExtTreeMap.getElem?_map] at hget
    obtain ⟨scope₀, hscope, rfl⟩ := Option.map_eq_some_iff.mp hget
    dsimp only
    split
    · exact hg
    · exact h _ _ hscope
  · exact h

theorem updateScopes_nodup {scopes' : ByteMap CollectionScope} (hs : ActionsNodup scopes)
    (h : updateScopes order body scopes = .ok scopes') : ActionsNodup scopes' := by
  unfold updateScopes at h
  split at h
  · exact parseScopes_nodup h
  split at h
  · obtain ⟨given, hgiven, rfl⟩ := exists_of_map_ok h
    have hg := parseActions_nodup hgiven
    exact .applyToAll hg (ActionsNodup.eraseAll _ (.addCollections hg (hs.replaceCollections hg)))
  · rw [← Except.ok.inj h]
    exact hs

theorem updateSpec_made {existing spec : StoredKey}
    (hrate : ¬ existing.rateLimitPerMinute ≤ 0) (hs : ActionsNodup existing.scopes)
    (h : updateSpec order body existing = .ok spec) :
    ¬ spec.rateLimitPerMinute ≤ 0 ∧ ActionsNodup spec.scopes := by
  obtain ⟨rateLimit, hlimit, h⟩ := exists_of_bind_ok h
  obtain ⟨scopes, hscopes, h⟩ := exists_of_bind_ok h
  rw [← Except.ok.inj h]
  exact ⟨rateLimitOr_pos hrate hlimit, updateScopes_nodup hs hscopes⟩

end Updates

/-! ## Invariants of a run -/

/-- Every key stands under its own id and is one that the handlers make. -/
def AllMade (keys : ByteMap StoredKey) : Prop :=
  ∀ (id : Bytes) key, keys[id]? = some key → key.id = id ∧ KeyMade key

variable {order : HashOrder} {cipher : Cipher} {m m' : Manager} {input : SaveInput}
  {keys : ByteMap StoredKey}

theorem AllMade.insert (h : AllMade keys) {id : Bytes} {key : StoredKey} (hid : key.id = id)
    (hk : KeyMade key) : AllMade (keys.insert id key) :=
  ByteMap.forall_insert h ⟨hid, hk⟩

/-- The file holds the keys, or there is neither. -/
def Saved (cipher : Cipher) (order : HashOrder) (m : Manager) : Prop :=
  (m.file = none ∧ m.keys = ∅) ∨
    ∃ iv, cipher.encrypt iv (writeKeys order m.keys) ≠ [] ∧
      m.file = some (cipher.encrypt iv (writeKeys order m.keys))

theorem saveKeySnapshot_saved (h : saveKeySnapshot cipher order input m = (true, m')) :
    m'.keys = m.keys ∧ Saved cipher order m' := by
  grind [saveKeySnapshot, Saved]

theorem length_hex (bytes : List UInt8) : (hex bytes).length = 2 * bytes.length := by
  unfold hex
  simp [Nat.mul_comm]

variable {spec : StoredKey}

theorem createKey_inv {idBytes : Vector UInt8 8} {digest : Vector UInt8 32}
    (hm : AllMade m.keys) (hrate : ¬ spec.rateLimitPerMinute ≤ 0) (hs : ActionsNodup spec.scopes)
    (h : createKey cipher order input m spec idBytes digest = (true, m')) :
    AllMade m'.keys ∧ Saved cipher order m' := by
  unfold createKey at h
  dsimp only at h
  split at h
  · rename_i hsave
    cases h
    obtain ⟨hkeys, hsaved⟩ := saveKeySnapshot_saved hsave
    refine ⟨?_, hsaved⟩
    rw [hkeys]
    refine AllMade.insert hm rfl ⟨?_, ?_, hrate, hs⟩
    · simp [length_hex, maxKeyIdLen]
    · simp [length_hex, maxKeyHashLen]
  · cases h

variable {keyID : Bytes}

theorem updateKey_saved
    (h : updateKey cipher order input m keyID spec = (true, m')) :
    ∃ previous, m.keys[keyID]? = some previous ∧ Saved cipher order m' ∧
      m'.keys = m.keys.insert keyID { previous with
        description := spec.description, scopes := spec.scopes, expiresAt := spec.expiresAt
        hasExpiration := spec.hasExpiration, rateLimitPerMinute := spec.rateLimitPerMinute
        allowHanalyzer := spec.allowHanalyzer } := by
  unfold updateKey at h
  split at h
  · cases h
  rename_i previous hget
  dsimp only at h
  split at h
  · rename_i hsave
    cases h
    obtain ⟨hkeys, hsaved⟩ := saveKeySnapshot_saved hsave
    exact ⟨previous, hget, hsaved, hkeys⟩
  · cases h

theorem updateKey_inv (hm : AllMade m.keys)
    (hrate : ¬ spec.rateLimitPerMinute ≤ 0) (hs : ActionsNodup spec.scopes)
    (h : updateKey cipher order input m keyID spec = (true, m')) :
    AllMade m'.keys ∧ Saved cipher order m' := by
  obtain ⟨previous, hget, hsaved, hkeys⟩ := updateKey_saved h
  obtain ⟨rfl, hmade⟩ := hm _ _ hget
  refine ⟨?_, hsaved⟩
  rw [hkeys]
  exact AllMade.insert hm rfl ⟨hmade.id, hmade.keyHash, hrate, hs⟩

theorem deleteKey_inv (hm : AllMade m.keys)
    (h : deleteKey cipher order input m keyID = (true, m')) :
    AllMade m'.keys ∧ Saved cipher order m' := by
  unfold deleteKey at h
  split at h
  · cases h
  split at h
  · rename_i hsave
    cases h
    obtain ⟨hkeys, hsaved⟩ := saveKeySnapshot_saved hsave
    exact ⟨hkeys ▸ ByteMap.forall_erase hm keyID, hsaved⟩
  · cases h

theorem handle_update {body : KeyBody}
    (h : handle cipher order m (.update keyID body input) = some m') :
    ∃ existing spec, m.keys[keyID]? = some existing ∧ updateSpec order body existing = .ok spec ∧
      updateKey cipher order input m keyID spec = (true, m') := by
  grind [handle]

/-- **After an accepted request the file holds the keys.** -/
theorem handle_inv {r : KeyRequest} (hm : AllMade m.keys) (h : handle cipher order m r = some m') :
    AllMade m'.keys ∧ Saved cipher order m' := by
  cases r with
  | create body idBytes digest input =>
    simp only [handle] at h
    split at h
    · cases h
    rename_i spec hspec
    split at h
    · rename_i hcreate
      cases h
      obtain ⟨hrate, hs⟩ := createSpec_made hspec
      exact createKey_inv hm hrate hs hcreate
    · cases h
  | update keyID body input =>
    obtain ⟨existing, spec, hget, hspec, hupdate⟩ := handle_update h
    have hmade := (hm _ _ hget).2
    obtain ⟨hrate, hs⟩ := updateSpec_made hmade.rateLimit hmade.actions hspec
    exact updateKey_inv hm hrate hs hupdate
  | delete keyID input =>
    simp only [handle] at h
    split at h
    · rename_i hdelete
      cases h
      exact deleteKey_inv hm hdelete
    · cases h

theorem updateLastUsed_made (hm : AllMade m.keys) (keyID : Bytes) :
    AllMade (updateLastUsed m keyID).keys := by
  unfold updateLastUsed
  split
  · exact hm
  rename_i key hget
  obtain ⟨rfl, hmade⟩ := hm _ _ hget
  exact AllMade.insert hm rfl ⟨hmade.id, hmade.keyHash, hmade.rateLimit, hmade.actions⟩

theorem foldl_updateLastUsed_made : ∀ (used : List Bytes) {m : Manager}, AllMade m.keys →
    AllMade (used.foldl updateLastUsed m).keys
  | [], _, hm => hm
  | keyID :: used, _, hm => foldl_updateLastUsed_made used (updateLastUsed_made hm keyID)

theorem handleAll_inv : ∀ {rs : List (List Bytes × KeyRequest)} {m m' : Manager}, AllMade m.keys →
      Saved cipher order m → handleAll cipher order m rs = some m' →
      AllMade m'.keys ∧ Saved cipher order m'
  | [], m, m', hm, hsaved, h => by
    cases h
    exact ⟨hm, hsaved⟩
  | (used, r) :: rs, m, m', hm, _, h => by
    unfold handleAll at h
    split at h
    · cases h
    rename_i m₁ hstep
    obtain ⟨hm₁, hsaved₁⟩ := handle_inv (foldl_updateLastUsed_made used hm) hstep
    exact handleAll_inv hm₁ hsaved₁ h

/-! ## The restart -/

/-- **What a restart can restore**: not too many keys, each within the bounds of the reader, in a
file that is not too large. -/
structure Storable (cipher : Cipher) (keys : ByteMap StoredKey) : Prop where
  count : keys.size ≤ maxKeyCount
  bounds : ∀ (id : Bytes) key, keys[id]? = some key → KeyBounds key
  fileSize : cipher.size (plaintextSize keys) ≤ maxKeysDatSize

theorem Storable.empty (cipher : Cipher) : Storable cipher ∅ := by
  refine ⟨by simp, fun _ _ h => absurd h (by simp), ?_⟩
  have hsize := cipher.size_le (plaintextSize ∅)
  have hplain : plaintextSize ∅ = 4 := by decide
  unfold maxKeysDatSize
  omega

theorem readKeys_writeKeys : ∀ {entries : List (Bytes × StoredKey)},
    (∀ kv ∈ entries, kv.2.id = kv.1 ∧ KeyBounds kv.2 ∧ KeyMade kv.2) → ∀ (m : Manager),
    (readKeys entries.length (entries.flatMap fun kv => writeKey order kv.2) m).2.keys =
      m.keys.insertAll entries
  | [], _, _ => rfl
  | kv :: entries, h, m => by
    obtain ⟨hid, hb, hm⟩ := h kv (by simp)
    have ih := @readKeys_writeKeys entries (fun kv' hkv' => h kv' (List.mem_cons_of_mem kv hkv'))
    rw [List.length_cons, List.flatMap_cons, readKeys, readKey_writeKey hb hm order]
    simp only [ih, hid]
    rfl

theorem readKeys_bounds : ∀ (count : Nat) (s : Bytes) (m : Manager),
    (∀ (id : Bytes) key, m.keys[id]? = some key → KeyBounds key) →
    (∀ (id : Bytes) key, (readKeys count s m).2.keys[id]? = some key → KeyBounds key) ∧
      (readKeys count s m).2.keys.size ≤ m.keys.size + count
  | 0, _, _, h => ⟨h, Nat.le_refl _⟩
  | count + 1, s, m, h => by
    unfold readKeys
    split
    · exact ⟨h, Nat.le_add_right _ _⟩
    rename_i key rest hread
    obtain ⟨hall, hsize⟩ := readKeys_bounds count rest { m with
      keys := m.keys.insert key.id key, hashToID := m.hashToID.insert key.keyHash key.id }
      (ByteMap.forall_insert h (readKey_bounds hread))
    refine ⟨hall, Nat.le_trans hsize ?_⟩
    have : (m.keys.insert key.id key).size ≤ m.keys.size + 1 := Std.ExtTreeMap.size_insert_le
    dsimp only
    omega

/-- Whatever the file holds, what is loaded into empty maps is within the bounds. -/
theorem loadKeys_bounds (cipher : Cipher) (encrypted : Bytes) (hm : m.keys = ∅) :
    (∀ (id : Bytes) key,
      (loadKeysFromEncryptedFile cipher encrypted m).2.keys[id]? = some key → KeyBounds key) ∧
    (loadKeysFromEncryptedFile cipher encrypted m).2.keys.size ≤ maxKeyCount := by
  have hempty : (∀ (id : Bytes) key, m.keys[id]? = some key → KeyBounds key) ∧
      m.keys.size ≤ maxKeyCount := by
    rw [hm]
    exact ⟨fun _ _ h => absurd h (by simp), by simp⟩
  unfold loadKeysFromEncryptedFile
  split
  · exact hempty
  split
  · exact hempty
  dsimp only
  split
  · exact hempty
  split
  · exact hempty
  split
  · exact hempty
  rename_i count s _ hcount
  obtain ⟨hall, hsize⟩ := readKeys_bounds count s { m with keys := ∅, hashToID := ∅ }
    (fun _ _ h => nomatch h)
  refine ⟨hall, Nat.le_trans hsize ?_⟩
  simp only [Std.ExtTreeMap.size_empty]
  omega

theorem loadKeys_of_storable {iv : Bytes} (hmade : AllMade keys) (hs : Storable cipher keys)
    (hne : cipher.encrypt iv (writeKeys order keys) ≠ []) (m : Manager) :
    (loadKeysFromEncryptedFile cipher (cipher.encrypt iv (writeKeys order keys)) m).2.keys =
      keys := by
  have hlen : (cipher.encrypt iv (writeKeys order keys)).length ≤ maxKeysDatSize := by
    rw [cipher.length_encrypt iv _ hne,
      length_writeKeys (fun id key hget => ⟨hs.bounds id key hget, (hmade id key hget).2⟩) order]
    exact hs.fileSize
  have hplain : writeKeys order keys ≠ [] := by
    intro h
    have := congrArg List.length h
    simp [writeKeys] at this
  have hcount : keys.size < 256 ^ 4 := Nat.lt_of_le_of_lt hs.count (by decide)
  have hread : Wire.readLe 4 (writeKeys order keys) =
      some (keys.size, (order.keys keys).flatMap fun kv => writeKey order kv.2) :=
    Wire.readLe_append hcount _
  have hperm := order.keys_perm keys
  have hsize : keys.size = (order.keys keys).length := by
    rw [hperm.length_eq, Std.ExtTreeMap.length_toList]
  unfold loadKeysFromEncryptedFile
  rw [if_neg hne, if_neg (Nat.not_lt.mpr hlen), cipher.decrypt_encrypt iv _ hne]
  rw [if_neg hplain, hread]
  dsimp only
  rw [if_neg (Nat.not_lt.mpr hs.count), hsize, readKeys_writeKeys, ByteMap.insertAll_of_perm hperm]
  intro kv hkv
  have hget := Std.ExtTreeMap.mem_toList_iff_getElem?_eq_some.mp (hperm.mem_iff.mp hkv)
  exact ⟨(hmade _ _ hget).1, hs.bounds _ _ hget, (hmade _ _ hget).2⟩

/-- **A restart restores the keys if and only if they are storable.** The handlers refuse none that
are not. -/
theorem initializeKeys_restores_iff (cipher : Cipher) (order : HashOrder)
    (rs : List (List Bytes × KeyRequest)) (m : Manager)
    (h : handleAll cipher order {} rs = some m) :
    (initializeKeys cipher m).2.keys = m.keys ↔ Storable cipher m.keys := by
  obtain ⟨hmade, hsaved⟩ := handleAll_inv (fun _ _ h => absurd h (by simp)) (.inl ⟨rfl, rfl⟩) h
  rcases hsaved with ⟨hfile, hkeys⟩ | ⟨iv, hne, hfile⟩
  · rw [hkeys]
    exact ⟨fun _ => .empty cipher, fun _ => by simp [initializeKeys, hfile]⟩
  · have hload : (initializeKeys cipher m).2 = (loadKeysFromEncryptedFile cipher
        (cipher.encrypt iv (writeKeys order m.keys)) { m with keys := ∅, hashToID := ∅ }).2 := by
      simp [initializeKeys, hfile]
    rw [hload]
    constructor
    · intro hsame
      obtain ⟨hbounds, hcount⟩ := loadKeys_bounds cipher
        (cipher.encrypt iv (writeKeys order m.keys)) (m := { m with keys := ∅, hashToID := ∅ }) rfl
      rw [hsame] at hbounds hcount
      refine ⟨hcount, hbounds, Nat.not_lt.mp fun hlarge => ?_⟩
      -- from a file that is too large nothing is loaded, and the file without keys is small
      have hlen : maxKeysDatSize < (cipher.encrypt iv (writeKeys order m.keys)).length := by
        rw [cipher.length_encrypt iv _ hne,
          length_writeKeys (fun id key hget => ⟨hbounds id key hget, (hmade id key hget).2⟩) order]
        exact hlarge
      have hempty : m.keys = ∅ := by
        rw [← hsame]
        simp [loadKeysFromEncryptedFile, hne, hlen]
      rw [hempty] at hlarge
      exact absurd (Storable.empty cipher).fileSize (Nat.not_le.mpr hlarge)
    · intro hs
      exact loadKeys_of_storable hmade hs hne _

/-! ## Updates of restricted keys

`collections` clears the scopes before it asks the first of them for the filter that the new ones are
to have, so that they have none. `add_collections` asks in time, but a key without scopes has no filter
to pass on. -/

def StoredKey.Restricted (key : StoredKey) : Prop :=
  ∀ (name : Bytes) scope, key.scopes[name]? = some scope → scope.embeddedFilters ≠ []

/-- The collections that an update gives a scope without a filter. -/
def unfiltered (body : KeyBody) (scopes : ByteMap CollectionScope) : List Bytes :=
  body.collections.getD [] ++
    if body.collections.isSome ∨ scopes.isEmpty then body.addCollections.getD [] else []

section Restricted

variable {order : HashOrder} {body : KeyBody} {given : List APIKeyAction}
  {scopes : ByteMap CollectionScope}

theorem get_addScopes {scope : CollectionScope} (collections : List Bytes) (name : Bytes) :
    (addScopes scopes collections scope)[name]? =
      if name ∈ collections then some scope else scopes[name]? := by
  unfold addScopes
  induction collections generalizing scopes with
  | nil => rfl
  | cons c collections ih =>
    show (ByteMap.insertAll (scopes.insert c scope) _)[name]? = _
    rw [ih, ByteMap.get_insert]
    by_cases hname : name = c <;> simp [hname]

theorem get_removeCollections (name : Bytes) : (removeCollections body scopes)[name]? =
      if name ∈ body.removeCollections.getD [] then none else scopes[name]? := by
  unfold removeCollections
  induction body.removeCollections.getD [] generalizing scopes with
  | nil => rfl
  | cons c names ih =>
    rw [List.foldl_cons, ih, ByteMap.get_erase]
    by_cases hname : name = c <;> simp [hname]

theorem filters_applyToAll (hfilters : body.embeddedFilters = none) (name : Bytes) :
    (applyToAll body given scopes)[name]?.map CollectionScope.embeddedFilters =
      scopes[name]?.map CollectionScope.embeddedFilters := by
  unfold applyToAll
  split
  · simp [Function.comp_def, hfilters]
  · rfl

/-- Before collections are removed, the scopes without a filter are the unfiltered ones. -/
theorem filter_addCollections (hfilters : body.embeddedFilters = none)
    (hs : ∀ (name : Bytes) scope, scopes[name]? = some scope → scope.embeddedFilters ≠ [])
    (name : Bytes) :
    ((addCollections order body given (replaceCollections body given scopes))[name]?.map
      CollectionScope.embeddedFilters = some []) ↔ name ∈ unfiltered body scopes := by
  have hfirst : ∀ {first scope} {scopes : ByteMap CollectionScope},
      (order.scopes scopes).head? = some (first, scope) → scopes[first]? = some scope := by
    intro first scope scopes h
    have hmem := (order.scopes_perm scopes).mem_iff.mp (List.mem_of_mem_head? h)
    exact Std.ExtTreeMap.mem_toList_iff_getElem?_eq_some.mp hmem
  unfold addCollections replaceCollections unfiltered addedFilters
  rw [hfilters]
  cases hcollections : body.collections with
  | some collections =>
    -- the scopes were cleared, and the first of the new ones has no filter either
    have hnone : ∀ first scope, (order.scopes (addScopes ∅ collections
        { actions := given, embeddedFilters := [] })).head? = some (first, scope) →
        scope.embeddedFilters = [] := by
      intro first scope h
      have hget := hfirst h
      rw [get_addScopes] at hget
      split at hget
      · rw [← Option.some.inj hget]
      · cases hget
    cases hadd : body.addCollections with
    | none => simp [get_addScopes]
    | some added =>
      dsimp only [Option.getD_none, Option.getD_some]
      cases hhead : (order.scopes (addScopes ∅ collections
          { actions := given, embeddedFilters := [] })).head? with
      | none => by_cases hn : name ∈ added <;> simp [get_addScopes, hn]
      | some entry =>
        have := hnone entry.1 entry.2 hhead
        by_cases hn : name ∈ added <;> simp [get_addScopes, hn, this]
  | none =>
    have hold : ¬ scopes[name]?.map CollectionScope.embeddedFilters = some [] := by
      intro h
      obtain ⟨scope, hget, he⟩ := Option.map_eq_some_iff.mp h
      exact hs name scope hget he
    cases hadd : body.addCollections with
    | none => simpa using hold
    | some added =>
      cases hhead : (order.scopes scopes).head? with
      | none =>
        have hempty : scopes.isEmpty = true := by
          have hnil := List.head?_eq_none_iff.mp hhead ▸ order.scopes_perm scopes
          rw [← Std.ExtTreeMap.isEmpty_toList, ← hnil.nil_eq]
          rfl
        by_cases hn : name ∈ added <;> simp [get_addScopes, hn, hempty, hold]
      | some entry =>
        have hget := hfirst hhead
        have hfull : scopes.isEmpty = false := by
          rw [← Std.ExtTreeMap.isEmpty_toList, List.isEmpty_eq_false_iff]
          intro hnil
          have hperm := order.scopes_perm scopes
          rw [hnil] at hperm
          rw [hperm.eq_nil] at hhead
          cases hhead
        have := hs entry.1 entry.2 hget
        by_cases hn : name ∈ added <;> simp [get_addScopes, hn, hfull, hold, this]

/-- **An update that brings no filters keeps a restricted key restricted exactly when it takes away
again every collection that it gave a scope without a filter.** -/
theorem update_restricted_iff {cipher : Cipher} {m m' : Manager} {input : SaveInput} {keyID : Bytes}
    {existing key : StoredKey} (hget : m.keys[keyID]? = some existing)
    (hrestricted : existing.Restricted) (hscopes : body.scopes = none)
    (hfilters : body.embeddedFilters = none)
    (h : handle cipher order m (.update keyID body input) = some m')
    (hkey : m'.keys[keyID]? = some key) :
    key.Restricted ↔ ∀ c ∈ unfiltered body existing.scopes, c ∈ body.removeCollections.getD [] := by
  obtain ⟨found, spec, hfound, hspec, hupdate⟩ := handle_update h
  obtain rfl : existing = found := Option.some.inj (hget.symm.trans hfound)
  obtain ⟨previous, -, -, hkeys⟩ := updateKey_saved hupdate
  rw [hkeys, ByteMap.get_insert, if_pos rfl] at hkey
  obtain ⟨rate, -, hspec⟩ := exists_of_bind_ok hspec
  obtain ⟨updated, hupdated, hspec⟩ := exists_of_bind_ok hspec
  cases hspec
  cases hkey
  unfold updateScopes at hupdated
  rw [hscopes] at hupdated
  dsimp only at hupdated
  split at hupdated
  · obtain ⟨given, -, rfl⟩ := exists_of_map_ok hupdated
    have hname : ∀ name, (∃ scope, (applyToAll body given (removeCollections body
        (addCollections order body given (replaceCollections body given existing.scopes))))[name]? =
          some scope ∧ scope.embeddedFilters = []) ↔
        name ∈ unfiltered body existing.scopes ∧ name ∉ body.removeCollections.getD [] := by
      intro name
      rw [← Option.map_eq_some_iff, filters_applyToAll hfilters, get_removeCollections]
      by_cases hkept : name ∈ body.removeCollections.getD []
      · simp [hkept]
      · rw [if_neg hkept, filter_addCollections hfilters hrestricted, and_iff_left hkept]
    constructor
    · intro hall c hc
      by_contra hkept
      obtain ⟨scope, hscope, hempty⟩ := (hname c).mpr ⟨hc, hkept⟩
      exact hall c scope hscope hempty
    · intro hremoved name scope hscope hempty
      obtain ⟨hnew, hkept⟩ := (hname name).mp ⟨scope, hscope, hempty⟩
      exact hkept (hremoved name hnew)
  · rename_i hnothing
    cases hupdated
    have hu : unfiltered body existing.scopes = [] := by
      simp only [not_or, Option.not_isSome_iff_eq_none] at hnothing
      simp [unfiltered, hnothing.1, hnothing.2.2.2.1]
    exact iff_of_true hrestricted (by simp [hu])

end Restricted

/-! ## Two keys, one with a long name -/

def plainCipher : Cipher where
  encrypt := fun _ plaintext => plaintext
  decrypt := id
  size := id
  decrypt_encrypt := fun _ _ _ => rfl
  length_encrypt := fun _ _ _ => rfl
  size_le := fun n => Nat.le_add_right n 32

/-- Hash maps that happen to be iterated in the order of their keys. -/
def sortedOrder : HashOrder where
  keys := fun m => m.toList
  scopes := fun m => m.toList
  keys_perm := fun _ => .refl _
  scopes_perm := fun _ => .refl _

/-- Creates the key `number` for one collection. -/
def createFor (number : UInt8) (collection : Bytes) : List Bytes × KeyRequest :=
  ([], .create { collections := some [collection], actions := some [lit "search"] }
    (.replicate 8 number) (.replicate 32 number) { iv := [], written := true })

/-- A key that sees of the collection `a` what its filter leaves. -/
def restrictedKey : StoredKey :=
  { id := lit "k", keyHash := [], description := []
    scopes := (∅ : ByteMap CollectionScope).insert (lit "a")
      { actions := [.search], embeddedFilters := lit "tenant:7" } }

def updateRestricted (body : KeyBody) : Option Manager :=
  handle plainCipher sortedOrder { keys := (∅ : ByteMap StoredKey).insert (lit "k") restrictedKey }
    (.update (lit "k") body { iv := [], written := true })

theorem restrictedKey_restricted : restrictedKey.Restricted :=
  ByteMap.forall_insert (by simp) (by decide)

/-- An added collection has the filter of the first one. -/
theorem update_restricted_iff_added :
    ∃ m key, updateRestricted { addCollections := some [lit "b"] } = some m ∧
      m.keys[lit "k"]? = some key ∧ key.Restricted := by
  have hrun : ((updateRestricted { addCollections := some [lit "b"] }).bind fun m =>
      m.keys[lit "k"]?).isSome := by decide +kernel
  obtain ⟨key, hkey⟩ := Option.isSome_iff_exists.mp hrun
  obtain ⟨m, hm, hkey⟩ := Option.bind_eq_some_iff.mp hkey
  refine ⟨m, key, hm, hkey, ?_⟩
  have hget : ((∅ : ByteMap StoredKey).insert (lit "k") restrictedKey)[lit "k"]? =
      some restrictedKey := Std.ExtTreeMap.getElem?_insert_self
  exact (update_restricted_iff hget restrictedKey_restricted rfl rfl hm hkey).mpr (by decide +kernel)

/-- With `collections` the key sees all of the collection `b`. -/
theorem replaced_collections_unrestricted : restrictedKey.Restricted ∧
    ∃ m key, updateRestricted { collections := some [lit "b"] } = some m ∧
      m.keys[lit "k"]? = some key ∧ ¬ key.Restricted := by
  have hrun : ((updateRestricted { collections := some [lit "b"] }).bind fun m =>
      m.keys[lit "k"]?.bind fun key => key.scopes[lit "b"]?.map (·.embeddedFilters)) = some [] := by
    decide +kernel
  obtain ⟨m, hm, hrun⟩ := Option.bind_eq_some_iff.mp hrun
  obtain ⟨key, hkey, hrun⟩ := Option.bind_eq_some_iff.mp hrun
  obtain ⟨scope, hscope, hempty⟩ := Option.map_eq_some_iff.mp hrun
  exact ⟨restrictedKey_restricted, m, key, hm, hkey, fun hall => hall _ scope hscope hempty⟩

theorem initializeKeys_restores_iff_oneKey :
    ∃ m, handleAll plainCipher sortedOrder {} [createFor 1 (lit "books")] = some m ∧
      ((initializeKeys plainCipher m).2.keys = m.keys ↔ Storable plainCipher m.keys) := by
  have hsome : (handleAll plainCipher sortedOrder {} [createFor 1 (lit "books")]).isSome := by
    decide +kernel
  obtain ⟨m, hm⟩ := Option.isSome_iff_exists.mp hsome
  exact ⟨m, hm, initializeKeys_restores_iff _ _ _ m hm⟩

/-- The key 2 is an ordinary one; behind the key 1, whose collection has a name of 257 bytes, it is
lost. -/
theorem ordinary_key_lost : ∃ m, handleAll plainCipher sortedOrder {}
        [createFor 2 (lit "books"), createFor 1 (List.replicate 257 97)] = some m ∧
      m.keys[hex (List.replicate 8 2)]?.isSome ∧
      (initializeKeys plainCipher m).2.keys[hex (List.replicate 8 2)]? = none := by
  have hrun : (handleAll plainCipher sortedOrder {}
        [createFor 2 (lit "books"), createFor 1 (List.replicate 257 97)]).map (fun m =>
      (m.keys[hex (List.replicate 8 2)]?.isSome,
        (initializeKeys plainCipher m).2.keys[hex (List.replicate 8 2)]?.isNone)) =
      some (true, true) := by decide +kernel
  obtain ⟨m, hm, hpair⟩ := Option.map_eq_some_iff.mp hrun
  obtain ⟨hbefore, hafter⟩ := Prod.mk.inj hpair
  exact ⟨m, hm, hbefore, Option.isNone_iff_eq_none.mp hafter⟩

end Hlquery.Keys
