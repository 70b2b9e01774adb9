import Hlquery.Lib.ByteMap
import Hlquery.Http.Routes

/-!
# API keys and the authorization of a request

A key has a scope for each collection it names, and possibly one for `*`; a scope holds actions
and an embedded filter. `ProcessSingleRequest` derives from the path an action and a collection
name, and asks the key's scope for that name whether it holds the action. What it finds is carried
to the handler in two fields of the request: the key's id and the embedded filter of that scope.

Nothing else reaches the handler. In particular the handler finds its own collection again, from
the path, the SQL text or an alias, and the results in `Search.Scope` are about when the two agree.
-/

set_option autoImplicit false

namespace Hlquery.Http

open Bytes

/-! ## Keys -/

/-- `APIKeyAction`. -/
inductive APIKeyAction where
  | search | create | update | delete | collectionsList | collectionsCreate | collectionsDelete
  | importDocuments | all
  deriving DecidableEq, Repr

/-- `CollectionScope`. -/
structure CollectionScope where
  actions : List APIKeyAction
  embeddedFilters : Bytes

/-- `APIKey`: the id and the scopes. -/
structure APIKey where
  id : Bytes
  scopes : ByteMap CollectionScope

def wildcard : Bytes := lit "*"

namespace APIKey

variable (key : APIKey)

/-- `GetScopeForCollection`. -/
def getScopeForCollection (collection : Bytes) : Option CollectionScope :=
  match key.scopes[collection]? with
  | some scope => some scope
  | none => key.scopes[wildcard]?

/-- `HasAction`. -/
def hasAction (collection : Bytes) (action : APIKeyAction) : Bool :=
  match key.getScopeForCollection collection with
  | none => false
  | some scope => scope.actions.contains .all || scope.actions.contains action

/-- `CanAccessCollection`. -/
def canAccessCollection (collection : Bytes) : Bool :=
  (key.getScopeForCollection collection).isSome

/-- `GetEmbeddedFilters`. -/
def getEmbeddedFilters (collection : Bytes) : Bytes :=
  match key.getScopeForCollection collection with
  | none => []
  | some scope => scope.embeddedFilters

end APIKey

/-- `MapRouteToKeyAction`. -/
def mapRouteToKeyAction : RouteAction → APIKeyAction
  | .addDocument => .create
  | .updateDocument | .updateByQuery => .update
  | .deleteDocument | .deleteByQuery | .deleteDocumentsByFilter => .delete
  | .listCollections | .listCollectionsDistributed | .getCollection | .getCollectionLanguage
  | .listSynonyms | .listGlobalSynonyms | .getSynonym | .getGlobalSynonym | .listStopwords
  | .listGlobalStopwords | .listOverrides | .getOverride | .listAliases
  | .getAlias => .collectionsList
  | .createCollection | .upsertSynonym | .upsertGlobalSynonym | .createStopword
  | .createGlobalStopword | .upsertOverride | .upsertAlias => .collectionsCreate
  | .deleteCollection | .deleteSynonym | .deleteGlobalSynonym | .deleteStopword
  | .deleteGlobalStopword | .deleteOverride | .deleteAlias => .collectionsDelete
  | .bulkImportDocuments => .importDocuments
  -- the searches and reads, and by default everything the table does not list
  | _ => .search

/-! ## The collection a path names -/

/-- What the resolution of a name reads: the collections there are and the alias records. -/
structure Catalog where
  collections : List Bytes
  aliases : ByteMap Bytes

namespace Catalog

/-- `CollectionExists`. -/
def collectionExists (catalog : Catalog) (name : Bytes) : Bool := catalog.collections.contains name

/-- `ResolveCollectionName`: a collection is itself, an alias is its target, any other name is
left as it is. The target is not resolved further. -/
def resolveCollectionName (catalog : Catalog) (name : Bytes) : Bytes :=
  if name = [] then []
  else if catalog.collectionExists name then name
  else (catalog.aliases[name]?).getD name

end Catalog

/-- `ValidateCollectionNameValue`. -/
def validateCollectionNameValue (name : Bytes) : Bool :=
  match name with
  | [] => false
  | first :: _ =>
      decide (name.length ≤ 64) &&
        (name.all fun b => isAlnum b || b == chr '_' || b == chr '-' || b == chr '.') &&
        (isAlpha first || first == chr '_')

/-- The first segment below `/collections/`: the match of the source's regular expression. -/
def pathCollection (path : Bytes) : Option Bytes :=
  match stripPrefix (lit "/collections/") path with
  | none => none
  | some rest =>
    match rest.takeWhile (· != chr '/') with
    | [] => none
    | name => some name

variable (catalog : Catalog)

/-- `ExtractCollectionFromPath`; the empty string is a path that names no collection. -/
def extractCollectionFromPath (path : Bytes) : Bytes :=
  match pathCollection (normalizePath path) with
  | none => []
  | some name =>
      if contains name (lit "..") || contains name (lit "\\") then []
      else if validateCollectionNameValue name then catalog.resolveCollectionName name
      else []

/-! ## The decision -/

/-- `RouteContext::CollectionName`. -/
def contextCollection (action : RouteAction) (path : Bytes) : Bytes :=
  if isPublicHttpRouteAction action || action == .multiSearch || action == .globalSearch then []
  else extractCollectionFromPath catalog (normalizePath path)

/-- `ColNameVal`: the name whose scope decides. A route that names no collection is decided by
the wildcard scope, unless its handler checks each collection itself. -/
def scopeName (method : Method) (path : Bytes) : Bytes :=
  let action := resolveHttpRoute method path
  let name := contextCollection catalog action path
  if isPublicHttpRouteAction action || action == .multiSearch || action == .globalSearch then name
  else if name = [] then wildcard
  else name

/-- The checks of `ProcessSingleRequest` for a request that a key authenticates: `none` is a
refusal, and otherwise the value is what goes into `EmbeddedFilters`. -/
def authorizeKey (key : APIKey) (method : Method) (path : Bytes) :
    Option Bytes :=
  let action := resolveHttpRoute method path
  let name := scopeName catalog method path
  let unchecked := isPublicHttpRouteAction action || action == .multiSearch ||
    action == .globalSearch
  if !unchecked && !(key.canAccessCollection name) then none
  else if !unchecked && !(key.hasAction name (mapRouteToKeyAction action)) then none
  -- a key is never an administrator
  else if isAdminOnlyHttpRouteAction action then none
  else if isModuleControlRoutePath (normalizePath path) then none
  else if action = .notFound then none
  else some (key.getEmbeddedFilters name)

/-- What an admitted request has passed. -/
theorem authorizeKey_eq_some {catalog : Catalog} {key : APIKey} {method : Method}
    {path filters : Bytes}
    (h : authorizeKey catalog key method path = some filters) :
    let action := resolveHttpRoute method path
    let name := scopeName catalog method path
    (isPublicHttpRouteAction action = true ∨ action = .multiSearch ∨ action = .globalSearch ∨
      key.hasAction name (mapRouteToKeyAction action) = true) ∧
    isAdminOnlyHttpRouteAction action = false ∧ action ≠ .notFound ∧
    filters = key.getEmbeddedFilters name := by
  intro action name
  unfold authorizeKey at h
  dsimp only at h
  split at h
  · cases h
  split at h
  · cases h
  rename_i hcheck
  split at h
  · cases h
  rename_i hadmin
  split at h
  · cases h
  split at h
  · cases h
  rename_i hfound
  refine ⟨?_, by simpa using hadmin, hfound, (Option.some.inj h).symm⟩
  by_contra hnone
  simp only [not_or] at hnone
  obtain ⟨h₁, h₂, h₃, h₄⟩ := hnone
  apply hcheck
  simp [action, name] at h₁ h₂ h₃ h₄
  simp [h₁, h₂, h₃, h₄]

theorem not_moduleControl_of_authorized {catalog : Catalog} {key : APIKey} {method : Method}
    {path filters : Bytes} (h : authorizeKey catalog key method path = some filters) :
    isModuleControlRoutePath (normalizePath path) = false := by
  cases hm : isModuleControlRoutePath (normalizePath path) with
  | false => rfl
  | true => simp [authorizeKey, hm] at h

end Hlquery.Http
