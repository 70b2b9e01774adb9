import Hlquery.Lib.Bytes

/-!
# Ordered maps of byte strings

The key-value store that everything persistent sits on is used through five operations: get,
put, delete, delete of a half-open range of keys, and a forward iterator positioned by `Seek`.
A `ByteMap` is that interface with nothing behind it — an extensional ordered map — and a
`WriteBatch` is a list of updates that is applied as a whole.

The iterator is the one place where the *order* of the keys shows. `scanPrefix` is written the
way the loops are (`Seek` to the prefix, then `Next` while the key still carries it), and
`scanPrefix_eq_filter` says what such a loop visits: exactly the entries whose key carries the
prefix, in key order. Every listing and every range deletion is a corollary of that.
-/

set_option autoImplicit false

namespace Hlquery

abbrev ByteMap (V : Type) := Std.ExtTreeMap Bytes V compare

namespace ByteMap

variable {V : Type}

theorem get_insert (m : ByteMap V) (k k' : Bytes) (v : V) :
    (m.insert k v)[k']? = if k' = k then some v else m[k']? := by
  rw [Std.ExtTreeMap.getElem?_insert]
  simp [Std.LawfulEqCmp.compare_eq_iff_eq, eq_comm (a := k)]

theorem get_erase (m : ByteMap V) (k k' : Bytes) :
    (m.erase k)[k']? = if k' = k then none else m[k']? := by
  rw [Std.ExtTreeMap.getElem?_erase]
  simp [Std.LawfulEqCmp.compare_eq_iff_eq, eq_comm (a := k)]

/-- `DeleteRange(lo, hi)`: the half-open interval `[lo, hi)`. -/
def eraseRange (m : ByteMap V) (lo hi : Bytes) : ByteMap V :=
  m.filter fun k _ => compare k lo == .lt || !(compare k hi == .lt)

theorem getElem?_eraseRange (m : ByteMap V) (lo hi k : Bytes) : (m.eraseRange lo hi)[k]? =
      if compare k lo = .lt ∨ compare k hi ≠ .lt then m[k]? else none := by
  unfold eraseRange
  rw [Std.ExtTreeMap.getElem?_filter']
  cases h : m[k]? with
  | none => simp
  | some v =>
    by_cases h₁ : compare k lo = .lt <;> by_cases h₂ : compare k hi = .lt <;>
      simp [Option.filter, h₁, h₂]

/-- `Seek(p)` and then `Next` while the key starts with `p`. -/
def scanPrefix (m : ByteMap V) (p : Bytes) : List (Bytes × V) :=
  (m.toList.dropWhile fun kv => compare kv.1 p == .lt).takeWhile fun kv => Bytes.startsWith kv.1 p

/-! ## What a prefix scan visits -/

/-- On a sorted list the entries below the bound come first, so dropping them is filtering. -/
theorem dropWhile_lt_eq_filter (p : Bytes) :
    ∀ l : List (Bytes × V), l.Pairwise (fun a b => compare a.1 b.1 = .lt) →
      l.dropWhile (fun kv => compare kv.1 p == .lt) = l.filter (fun kv => !(compare kv.1 p == .lt))
  | [], _ => rfl
  | kv :: l, h => by
    obtain ⟨hkv, hl⟩ := List.pairwise_cons.mp h
    by_cases hp : compare kv.1 p = .lt
    · rw [List.dropWhile_cons_of_pos (by simpa using hp), List.filter_cons_of_neg (by simpa using hp)]
      exact dropWhile_lt_eq_filter p l hl
    · rw [List.dropWhile_cons_of_neg (by simpa using hp), List.filter_cons_of_pos (by simpa using hp)]
      congr 1
      refine (List.filter_eq_self.mpr fun kv' hmem => ?_).symm
      have hlt := hkv kv' hmem
      have : compare kv'.1 p ≠ .lt := fun h' => hp (Std.TransCmp.lt_trans hlt h')
      simpa using this

/-- Past the bound the entries that carry the prefix come first, because they are convex. -/
theorem takeWhile_startsWith_eq_filter (p : Bytes) :
    ∀ l : List (Bytes × V), l.Pairwise (fun a b => compare a.1 b.1 = .lt) →
      (∀ kv ∈ l, compare kv.1 p ≠ .lt) →
      l.takeWhile (fun kv => Bytes.startsWith kv.1 p) = l.filter (fun kv => Bytes.startsWith kv.1 p)
  | [], _, _ => rfl
  | kv :: l, h, hge => by
    obtain ⟨hkv, hl⟩ := List.pairwise_cons.mp h
    by_cases hp : Bytes.startsWith kv.1 p = true
    · have ih := takeWhile_startsWith_eq_filter p l hl fun kv' hm =>
        hge kv' (List.mem_cons_of_mem _ hm)
      simp [hp, ih]
    · simp only [List.takeWhile_cons, List.filter_cons, hp, if_false, Bool.false_eq_true]
      refine (List.filter_eq_nil_iff.mpr fun kv' hmem hpre => hp ?_).symm
      refine Bytes.startsWith_of_between hpre ?_ ?_
      · intro hgt
        exact hge kv (List.mem_cons_self ..) (Std.OrientedCmp.lt_of_gt hgt)
      · rw [hkv kv' hmem]; simp

theorem scanPrefix_eq_filter (m : ByteMap V) (p : Bytes) :
    m.scanPrefix p = m.toList.filter fun kv => Bytes.startsWith kv.1 p := by
  have hsort := Std.ExtTreeMap.ordered_keys_toList (t := m)
  unfold scanPrefix
  rw [dropWhile_lt_eq_filter p _ hsort,
    takeWhile_startsWith_eq_filter p _ (hsort.filter _) (fun kv hkv => by
      simpa using (List.mem_filter.mp hkv).2), List.filter_filter]
  refine List.filter_congr fun kv _ => ?_
  by_cases hp : Bytes.startsWith kv.1 p = true
  · obtain ⟨t, ht⟩ := Bytes.startsWith_iff.mp hp
    have : compare kv.1 p ≠ .lt := fun h =>
      Bytes.compare_prefix_ne_gt p t (ht ▸ Std.OrientedCmp.gt_of_lt h)
    simp [hp, this]
  · simp [hp]

variable {k : Bytes} {m : ByteMap V} {v : V}

theorem mem_scanPrefix {p : Bytes} :
    (k, v) ∈ m.scanPrefix p ↔ m[k]? = some v ∧ Bytes.startsWith k p = true := by
  rw [scanPrefix_eq_filter, List.mem_filter, Std.ExtTreeMap.mem_toList_iff_getElem?_eq_some]

theorem scanPrefix_sorted (m : ByteMap V) (p : Bytes) :
    (m.scanPrefix p).Pairwise fun a b => compare a.1 b.1 = .lt := by
  rw [scanPrefix_eq_filter]
  exact (Std.ExtTreeMap.ordered_keys_toList (t := m)).filter _

def prefixKeys (m : ByteMap V) (p : Bytes) : List Bytes := (m.scanPrefix p).map Prod.fst

theorem mem_prefixKeys {p : Bytes} : k ∈ m.prefixKeys p ↔ k ∈ m ∧ Bytes.startsWith k p = true := by
  unfold prefixKeys
  rw [List.mem_map]
  constructor
  · rintro ⟨⟨k', v⟩, hm, rfl⟩
    obtain ⟨hg, hp⟩ := mem_scanPrefix.mp hm
    exact ⟨by rw [Std.ExtTreeMap.mem_iff_isSome_getElem?, hg]; rfl, hp⟩
  · rintro ⟨hk, hp⟩
    rw [Std.ExtTreeMap.mem_iff_isSome_getElem?] at hk
    obtain ⟨v, hv⟩ := Option.isSome_iff_exists.mp hk
    exact ⟨(k, v), mem_scanPrefix.mpr ⟨hv, hp⟩, rfl⟩

theorem prefixKeys_sorted (m : ByteMap V) (p : Bytes) :
    (m.prefixKeys p).Pairwise fun a b => compare a b = .lt :=
  List.pairwise_map.mpr (scanPrefix_sorted m p)

/-- Two sorted listings with the same members are the same listing. -/
theorem eq_of_sorted {l₁ l₂ : List Bytes} (h₁ : l₁.Pairwise fun a b => compare a b = .lt)
    (h₂ : l₂.Pairwise fun a b => compare a b = .lt) (h : ∀ k, k ∈ l₁ ↔ k ∈ l₂) : l₁ = l₂ := by
  have nodup : ∀ {l : List Bytes}, l.Pairwise (fun a b => compare a b = .lt) → l.Nodup :=
    fun hl => hl.imp fun {a b} hab he => by
      rw [he, Std.compare_self] at hab; cases hab
  have hperm := (List.perm_ext_iff_of_nodup (nodup h₁) (nodup h₂)).mpr h
  refine hperm.eq_of_pairwise (fun a b _ _ hab hba => ?_) h₁ h₂
  exact absurd (Std.TransCmp.lt_trans hab hba) (by rw [Std.compare_self]; simp)

/-! ## Entries of a map -/

/-- Taking a key out of a map takes its entry out of the listing. -/
theorem toList_perm_erase (h : m[k]? = some v) : m.toList.Perm ((k, v) :: (m.erase k).toList) := by
  have nodup : ∀ m : ByteMap V, m.toList.Nodup := fun m =>
    Std.ExtTreeMap.distinct_keys_toList.imp fun {a b} hab he =>
      hab (by rw [he, Std.compare_self])
  refine (List.perm_ext_iff_of_nodup (nodup m) ?_).mpr ?_
  · refine List.nodup_cons.mpr ⟨?_, nodup _⟩
    simp
  · intro ⟨k', v'⟩
    rw [List.mem_cons, Std.ExtTreeMap.mem_toList_iff_getElem?_eq_some,
      Std.ExtTreeMap.mem_toList_iff_getElem?_eq_some, get_erase]
    by_cases hk : k' = k
    · subst hk
      simp [h, eq_comm]
    · simp [hk]

theorem forall_insert {P : Bytes → V → Prop} (h : ∀ (k : Bytes) v, m[k]? = some v → P k v)
    (hv : P k v) : ∀ (k' : Bytes) v', (m.insert k v)[k']? = some v' → P k' v' := by
  intro k' v' hget
  rw [get_insert] at hget
  split at hget
  · rename_i hk
    rw [hk, ← Option.some.inj hget]
    exact hv
  · exact h k' v' hget

theorem forall_erase {P : Bytes → V → Prop} (h : ∀ (k : Bytes) v, m[k]? = some v → P k v)
    (k : Bytes) : ∀ (k' : Bytes) v', (m.erase k)[k']? = some v' → P k' v' := by
  intro k' v' hget
  rw [get_erase] at hget
  split at hget
  · cases hget
  · exact h k' v' hget

theorem erase_insert (h : m[k]? = none) (v : V) : (m.insert k v).erase k = m := by
  refine Std.ExtTreeMap.ext_getElem? fun k' => ?_
  rw [get_erase, get_insert]
  by_cases hk : k' = k
  · rw [if_pos hk, hk, h]
  · rw [if_neg hk, if_neg hk]

theorem erase_of_none (h : m[k]? = none) : m.erase k = m := by
  refine Std.ExtTreeMap.ext_getElem? fun k' => ?_
  rw [get_erase]
  by_cases hk : k' = k
  · rw [if_pos hk, hk, h]
  · rw [if_neg hk]

theorem size_eq_of_same_keys {W : Type} {m' : ByteMap W}
    (h : ∀ k : Bytes, m[k]?.isSome ↔ m'[k]?.isSome) : m.size = m'.size := by
  have hkeys : m.keys = m'.keys := by
    refine eq_of_sorted Std.ExtTreeMap.ordered_keys Std.ExtTreeMap.ordered_keys fun k => ?_
    rw [Std.ExtTreeMap.mem_keys, Std.ExtTreeMap.mem_keys, Std.ExtTreeMap.mem_iff_isSome_getElem?,
      Std.ExtTreeMap.mem_iff_isSome_getElem?]
    exact h k
  rw [← Std.ExtTreeMap.length_keys, hkeys, Std.ExtTreeMap.length_keys]

/-! ## Maps from lists of entries -/

def insertAll (m : ByteMap V) (entries : List (Bytes × V)) : ByteMap V :=
  entries.foldl (fun m kv => m.insert kv.1 kv.2) m

theorem get_insertAll : ∀ {entries : List (Bytes × V)} {m : ByteMap V},
    (entries.map Prod.fst).Nodup → ∀ v, (m.insertAll entries)[k]? = some v ↔
      (k, v) ∈ entries ∨ k ∉ entries.map Prod.fst ∧ m[k]? = some v
  | [], m, _, v => by simp [insertAll]
  | (k', v') :: entries, m, h, v => by
    rw [List.map_cons, List.nodup_cons] at h
    show (insertAll (m.insert k' v') entries)[k]? = some v ↔ _
    rw [get_insertAll h.2, get_insert, List.map_cons, List.mem_cons, List.mem_cons]
    by_cases hk : k = k'
    · subst hk
      have hnot : (k, v) ∉ entries := fun hmem => h.1 (List.mem_map.mpr ⟨_, hmem, rfl⟩)
      simp [h.1, hnot, eq_comm]
    · simp [hk]

/-- **In whatever order the entries of a map are put into an empty one, the map comes back.** -/
theorem insertAll_of_perm {entries : List (Bytes × V)} (h : entries.Perm m.toList) :
    insertAll ∅ entries = m := by
  have hnodup : (entries.map Prod.fst).Nodup := by
    rw [(h.map Prod.fst).nodup_iff]
    refine List.Pairwise.map _ (fun a b hab he => ?_) (Std.ExtTreeMap.distinct_keys_toList (t := m))
    exact hab (by rw [he, Std.compare_self])
  refine Std.ExtTreeMap.ext_getElem? fun k => Option.ext fun v => ?_
  rw [get_insertAll hnodup, h.mem_iff, Std.ExtTreeMap.mem_toList_iff_getElem?_eq_some]
  simp

theorem size_insertAll_le : ∀ (entries : List (Bytes × V)) (m : ByteMap V),
    (m.insertAll entries).size ≤ m.size + entries.length
  | [], m => by simp [insertAll]
  | (k, v) :: entries, m => by
    have ih := size_insertAll_le entries (m.insert k v)
    have hinsert : (m.insert k v).size ≤ m.size + 1 := Std.ExtTreeMap.size_insert_le
    show (insertAll (m.insert k v) entries).size ≤ _
    rw [List.length_cons]
    omega

theorem mem_of_get_insertAll : ∀ {entries : List (Bytes × V)} {m : ByteMap V},
    (m.insertAll entries)[k]? = some v → (k, v) ∈ entries ∨ m[k]? = some v
  | [], m, h => .inr h
  | (k', v') :: entries, m, h => by
    rcases mem_of_get_insertAll (m := m.insert k' v') h with hmem | hget
    · exact .inl (List.mem_cons_of_mem _ hmem)
    · exact forall_insert (P := fun k v => (k, v) ∈ (k', v') :: entries ∨ m[k]? = some v)
        (fun _ _ h => .inr h) (.inl List.mem_cons_self) k v hget

theorem get_insertAll_of_not_mem : ∀ {entries : List (Bytes × V)},
    k ∉ entries.map Prod.fst → ∀ m : ByteMap V, (m.insertAll entries)[k]? = m[k]?
  | [], _, _ => rfl
  | (k', v) :: entries, h, m => by
    rw [List.map_cons, List.mem_cons, not_or] at h
    show (insertAll (m.insert k' v) entries)[k]? = _
    rw [get_insertAll_of_not_mem h.2, get_insert, if_neg h.1]

/-- What is written does not depend on what was there. -/
theorem get_insertAll_of_mem : ∀ {entries : List (Bytes × V)},
    k ∈ entries.map Prod.fst → ∀ m m' : ByteMap V,
      (m.insertAll entries)[k]? = (m'.insertAll entries)[k]?
  | (k', v) :: entries, h, m, m' => by
    show (insertAll (m.insert k' v) entries)[k]? = (insertAll (m'.insert k' v) entries)[k]?
    by_cases hmem : k ∈ entries.map Prod.fst
    · exact get_insertAll_of_mem hmem _ _
    obtain rfl : k = k' := by simpa [hmem] using h
    rw [get_insertAll_of_not_mem hmem, get_insertAll_of_not_mem hmem, get_insert, get_insert,
      if_pos rfl, if_pos rfl]

theorem isSome_insertAll : ∀ {entries : List (Bytes × V)},
    k ∈ entries.map Prod.fst → ∀ m : ByteMap V, (m.insertAll entries)[k]?.isSome = true
  | (k', v) :: entries, h, m => by
    show (insertAll (m.insert k' v) entries)[k]?.isSome = true
    by_cases hmem : k ∈ entries.map Prod.fst
    · exact isSome_insertAll hmem _
    obtain rfl : k = k' := by simpa [hmem] using h
    rw [get_insertAll_of_not_mem hmem, get_insert, if_pos rfl]
    rfl

/-! ## Write batches -/

/-- One update of a `rocksdb::WriteBatch`. -/
inductive Update where
  | put (key value : Bytes)
  | delete (key : Bytes)
  | deleteRange (lo hi : Bytes)

def update (m : ByteMap Bytes) : Update → ByteMap Bytes
  | .put k v => m.insert k v
  | .delete k => m.erase k
  | .deleteRange lo hi => m.eraseRange lo hi

/-- `Write(batch)`: all the updates, in the order in which they were added. -/
def write (m : ByteMap Bytes) (batch : List Update) : ByteMap Bytes := batch.foldl update m

theorem write_puts (m : ByteMap Bytes) (entries : List (Bytes × Bytes)) :
    m.write (entries.map fun kv => .put kv.1 kv.2) = m.insertAll entries :=
  List.foldl_map

theorem write_append (m : ByteMap Bytes) (b₁ b₂ : List Update) :
    m.write (b₁ ++ b₂) = (m.write b₁).write b₂ := List.foldl_append

end ByteMap

end Hlquery
