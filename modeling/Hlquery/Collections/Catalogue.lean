import Hlquery.Lib.Bytes
import Hlquery.Lib.Runs

/-!
# The catalogue of collections

`Collections` in memory, and in the database the metadata record of each collection, of which only the
number of documents is kept here, and its configuration. The calls of `HybridStorageManager` are made of
single accesses, so that others can go on between them: an access to the database, or a section under
`CollectionsMutex`. A configuration is stored as a value; that its JSON text is read back is left to the
library. Whether a write succeeds is an argument, and one that fails changes nothing.
-/

set_option autoImplicit false

namespace Hlquery.Collections

open Runs

structure CollectionConfig where
  name : Bytes
  fields : Bytes → Option Bytes := fun _ => none
  metadata : Bytes → Option Bytes := fun _ => none

structure Catalogue where
  collections : Bytes → Option CollectionConfig := fun _ => none
  metas : Bytes → Option Nat := fun _ => none
  configs : Bytes → Option CollectionConfig := fun _ => none

namespace Catalogue

variable (s : Catalogue) (name : Bytes)

/-! ## The accesses -/

def setCollection (config : Option CollectionConfig) : Catalogue :=
  { s with collections := Function.update s.collections name config }

def setMeta (count : Option Nat) : Catalogue :=
  { s with metas := Function.update s.metas name count }

def setConfig (config : Option CollectionConfig) : Catalogue :=
  { s with configs := Function.update s.configs name config }

section

variable {s name} (config : Option CollectionConfig) (count : Option Nat) (n : Bytes)

@[simp, grind =] theorem metas_setMeta :
    (s.setMeta name count).metas n = if n = name then count else s.metas n :=
  Function.update_apply ..

@[simp, grind =] theorem metas_setConfig : (s.setConfig name config).metas = s.metas := rfl

@[simp, grind =] theorem configs_setConfig :
    (s.setConfig name config).configs n = if n = name then config else s.configs n :=
  Function.update_apply ..

end

/-- `CreateCollection` under the lock. Both records go in one batch. -/
def createLocked (ok : Bool) (config : CollectionConfig) : Bool × Catalogue :=
  if ok then
    (true, ((s.setCollection name (some config)).setMeta name (some 0)).setConfig name (some config))
  else (false, s.setCollection name none)

end Catalogue

end Hlquery.Collections
