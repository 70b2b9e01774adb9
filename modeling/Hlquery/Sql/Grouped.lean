import Hlquery.Search.Grouping

/-!
# Grouped rows

A SELECT with aggregates and GROUP BY has one row for each group of hits. `BuildGroupedSQLResponse`
tells the groups apart by the selected fields, which the parser only requires to be among the fields
of GROUP BY, and without a selected field the whole result is one row. **The rows are those of the
combinations exactly if the selected values settle the others, and some hit is there to be counted**
(`sqlGroups_perm_iff`).
-/

set_option autoImplicit false

namespace Hlquery.Sql

open Bytes Hlquery.Filter Hlquery.Search

/-! ## Classes -/

section Classes

variable {α β : Type} [DecidableEq β] {f : α → β} {l : List α}

def classes (f : α → β) (l : List α) : List (List α) :=
  (l.map f).dedup.map fun v => l.filter (f · = v)

theorem mem_classes {c : List α} : c ∈ classes f l ↔ ∃ a ∈ l, c = l.filter (f · = f a) := by
  simp [classes, eq_comm (a := c)]

theorem nodup_classes : (classes f l).Nodup := by
  refine (List.nodup_dedup _).map_on fun v hv w _ heq => ?_
  obtain ⟨a, ha, rfl⟩ := List.mem_map.mp (List.mem_dedup.mp hv)
  have hmem : a ∈ l.filter (f · = w) := heq ▸ List.mem_filter.mpr ⟨ha, by simp⟩
  simpa using (List.mem_filter.mp hmem).2

/-- **Two ways to tell elements apart give the same classes exactly if the coarser one is as fine.** -/
theorem classes_perm_iff {γ : Type} [DecidableEq γ] {key : α → γ}
    (hf : ∀ a b, f a = f b → key a = key b) : (classes key l).Perm (classes f l) ↔
      ∀ a ∈ l, ∀ b ∈ l, key a = key b → f a = f b := by
  constructor
  · intro hperm a ha b hb hkey
    obtain ⟨c, -, hc⟩ := mem_classes.mp (hperm.mem_iff.mp (mem_classes.mpr ⟨a, ha, rfl⟩))
    have hin : ∀ x ∈ l, key x = key a → f x = f c := by
      intro x hx hxa
      have hmem : x ∈ l.filter (f · = f c) := hc ▸ List.mem_filter.mpr ⟨hx, by simpa using hxa⟩
      simpa using (List.mem_filter.mp hmem).2
    rw [hin a ha rfl, hin b hb hkey.symm]
  · intro h
    have hsame : ∀ a ∈ l, l.filter (key · = key a) = l.filter (f · = f a) := by
      intro a ha
      refine List.filter_congr fun x hx => decide_eq_decide.mpr ⟨h x hx a ha, hf x a⟩
    refine (List.perm_ext_iff_of_nodup nodup_classes nodup_classes).mpr fun c => ?_
    rw [mem_classes, mem_classes]
    exact exists_congr fun a => and_congr_right fun ha => by rw [hsame a ha]

end Classes

/-! ## The statement and its rows -/

structure SelectField where
  sourceName : Bytes
  outputName : Bytes

inductive AggregateFunction
  | count | avg | sum | min | max | stats
  deriving DecidableEq

structure AggregateSpec where
  function : AggregateFunction
  fieldName : Bytes
  outputName : Bytes
  countAll : Bool := false
  distinct : Bool := false

/-- A SELECT with aggregates and GROUP BY, as far as the parser accepts it. -/
structure GroupedSelect where
  fields : List SelectField
  aggregates : List AggregateSpec
  groupBy : List Bytes
  aggregated : aggregates ≠ []
  grouped : groupBy ≠ []
  selected : ∀ field ∈ fields, field.sourceName ∈ groupBy

inductive SQLValue (Number : Type)
  | null
  | number (n : Number)
  | boolean (b : Bool)
  | text (s : Bytes)

structure RowRuntime where
  Number : Type
  ofNat : Nat → Number
  add : Number → Number → Number
  div : Number → Number → Number
  min : Number → Number → Number
  max : Number → Number → Number
  tryParseNumericValue : Bytes → Option Number
  parseScalarJSONValue : Bytes → SQLValue Number

/-- `ComputeSQLAggregateMetric`. -/
def computeSQLAggregateMetric (rt : RowRuntime) (spec : AggregateSpec) (hits : List SearchHit) :
    rt.Number :=
  let values := hits.filterMap fun hit => hit.document[spec.fieldName]?
  let once := if spec.distinct then values.eraseDups else values
  let numbers := once.filterMap rt.tryParseNumericValue
  match spec.function with
  | .count =>
      if spec.countAll ∨ spec.fieldName = [] then rt.ofNat hits.length
      else rt.ofNat (once.filter fun value => value ≠ [] ∧ value ≠ lit "null").length
  | .avg =>
      if numbers = [] then rt.ofNat 0
      else rt.div (numbers.foldl rt.add (rt.ofNat 0)) (rt.ofNat numbers.length)
  | .sum => numbers.foldl rt.add (rt.ofNat 0)
  | .min => (numbers.tail.foldl rt.min <$> numbers.head?).getD (rt.ofNat 0)
  | .max => (numbers.tail.foldl rt.max <$> numbers.head?).getD (rt.ofNat 0)
  | .stats => rt.ofNat 0

structure GroupState where
  hits : List SearchHit := []
  rowValues : ByteMap Bytes := ∅
  firstSeen : Nat := 0

def selectKey (fields : List SelectField) (hit : SearchHit) : Bytes :=
  fields.flatMap fun field =>
    field.sourceName ++ chr '=' :: (hit.document[field.sourceName]?).getD [] ++ [0x1f]

def outputValues (fields : List SelectField) (hit : SearchHit) : ByteMap Bytes :=
  fields.foldl (fun values field =>
    values.insert field.outputName ((hit.document[field.sourceName]?).getD [])) ∅

def joinGroup (fields : List SelectField) (groups : ByteMap GroupState) (hit : SearchHit × Nat) :
    ByteMap GroupState :=
  let state := (groups[selectKey fields hit.1]?).getD
    { rowValues := outputValues fields hit.1, firstSeen := hit.2 }
  groups.insert (selectKey fields hit.1) { state with hits := state.hits ++ [hit.1] }

/-- The groups that the rows are built from. Without a selected field `BuildAggregateOnlySQLResponse`
takes all the hits together. -/
def sqlGroups (stmt : GroupedSelect) (hits : List SearchHit) : List GroupState :=
  if stmt.fields = [] then [{ hits }]
  else (hits.zipIdx.foldl (joinGroup stmt.fields) ∅).toList.map Prod.snd

structure SQLRow (rt : RowRuntime) where
  firstSeen : Nat
  values : ByteMap (SQLValue rt.Number)

def GroupState.row (rt : RowRuntime) (stmt : GroupedSelect) (state : GroupState) : SQLRow rt where
  firstSeen := state.firstSeen
  values :=
    let selected := stmt.fields.foldl (fun values field =>
      values.insert field.outputName
        (rt.parseScalarJSONValue ((state.rowValues[field.outputName]?).getD []))) ∅
    stmt.aggregates.foldl (fun values spec =>
      values.insert spec.outputName (.number (computeSQLAggregateMetric rt spec state.hits))) selected

/-- The rows of `BuildGroupedSQLResponse` and `BuildAggregateOnlySQLResponse`, before HAVING, ORDER BY
and LIMIT. -/
def sqlRows (rt : RowRuntime) (stmt : GroupedSelect) (hits : List SearchHit) : List (SQLRow rt) :=
  (sqlGroups stmt hits).map (GroupState.row rt stmt)

/-! ## The groups are classes -/

theorem get_joinGroup (fields : List SelectField) (hits : List (SearchHit × Nat)) (k : Bytes) :
    ((hits.foldl (joinGroup fields) ∅)[k]?).map GroupState.hits =
      if (hits.map Prod.fst).filter (selectKey fields · = k) = [] then none
      else some ((hits.map Prod.fst).filter (selectKey fields · = k)) := by
  induction hits using List.reverseRecOn with
  | nil => simp
  | append_singleton hits hit ih =>
    rw [List.foldl_append, List.foldl_cons, List.foldl_nil, joinGroup, ByteMap.get_insert,
      List.map_append, List.filter_append]
    by_cases hk : k = selectKey fields hit.1
    · subst hk
      have hbefore : ((((hits.foldl (joinGroup fields) ∅)[selectKey fields hit.1]?).getD
          { rowValues := outputValues fields hit.1, firstSeen := hit.2 }).hits) =
          (hits.map Prod.fst).filter (selectKey fields · = selectKey fields hit.1) := by
        cases hstate : (hits.foldl (joinGroup fields) ∅)[selectKey fields hit.1]? with
        | none =>
          rw [hstate, Option.map_none] at ih
          by_contra hne
          rw [if_neg (fun h => hne h.symm)] at ih
          cases ih
        | some state =>
          rw [hstate, Option.map_some] at ih
          split at ih
          · cases ih
          · exact Option.some.inj ih
      rw [if_pos rfl, Option.map_some, hbefore]
      simp
    · have hnone : ([hit].map Prod.fst).filter (selectKey fields · = k) = [] := by
        simp [Ne.symm hk]
      rw [if_neg hk, ih, hnone, List.append_nil]

theorem perm_sqlGroups {stmt : GroupedSelect} (h : stmt.fields ≠ []) (hits : List SearchHit) :
    ((sqlGroups stmt hits).map GroupState.hits).Perm (classes (selectKey stmt.fields) hits) := by
  rw [sqlGroups, if_neg h, List.map_map]
  have hget := get_joinGroup stmt.fields hits.zipIdx
  rw [List.zipIdx_map_fst] at hget
  generalize hits.zipIdx.foldl (joinGroup stmt.fields) ∅ = groups at hget
  have hentry : ∀ entry ∈ groups.toList, ∃ a ∈ hits, selectKey stmt.fields a = entry.1 ∧
      entry.2.hits = hits.filter (selectKey stmt.fields · = entry.1) := by
    intro entry hmem
    have hk := hget entry.1
    rw [Std.ExtTreeMap.mem_toList_iff_getElem?_eq_some.mp hmem, Option.map_some] at hk
    split at hk
    · cases hk
    rename_i hne
    obtain ⟨a, ha⟩ := List.exists_mem_of_ne_nil _ hne
    exact ⟨a, (List.mem_filter.mp ha).1, by simpa using (List.mem_filter.mp ha).2,
      Option.some.inj hk⟩
  refine (List.perm_ext_iff_of_nodup ?_ nodup_classes).mpr fun c => ?_
  · refine List.pairwise_map.mpr (Std.ExtTreeMap.distinct_keys_toList.imp_of_mem ?_)
    intro x y hx hy hdistinct heq
    obtain ⟨a, ha, hax, hxhits⟩ := hentry x hx
    obtain ⟨-, -, -, hyhits⟩ := hentry y hy
    have hmem : a ∈ x.2.hits := hxhits ▸ List.mem_filter.mpr ⟨ha, by simpa using hax⟩
    rw [show x.2.hits = y.2.hits from heq, hyhits] at hmem
    have hay : selectKey stmt.fields a = y.1 := by simpa using (List.mem_filter.mp hmem).2
    exact hdistinct (by rw [← hax, hay, Std.compare_self])
  · rw [mem_classes, List.mem_map]
    constructor
    · rintro ⟨entry, hmem, rfl⟩
      obtain ⟨a, ha, hkey, hhits⟩ := hentry entry hmem
      exact ⟨a, ha, by rw [hkey]; exact hhits⟩
    · rintro ⟨a, ha, rfl⟩
      have hk := hget (selectKey stmt.fields a)
      rw [if_neg (List.ne_nil_of_mem (List.mem_filter.mpr ⟨ha, by simp⟩))] at hk
      obtain ⟨state, hstate, hhits⟩ := Option.map_eq_some_iff.mp hk
      exact ⟨_, Std.ExtTreeMap.mem_toList_iff_getElem?_eq_some.mpr hstate, hhits⟩

/-- **There is one row for each combination of the GROUP BY fields, over its hits, exactly if hits
that agree in the selected fields agree in all of them**, and where none is selected there are
hits. -/
theorem sqlGroups_perm_iff (stmt : GroupedSelect) (hits : List SearchHit) :
    ((sqlGroups stmt hits).map GroupState.hits).Perm (classes (combination stmt.groupBy) hits) ↔
      (∀ a ∈ hits, ∀ b ∈ hits, selectKey stmt.fields a = selectKey stmt.fields b →
        combination stmt.groupBy a = combination stmt.groupBy b) ∧
      (stmt.fields = [] → hits ≠ []) := by
  have hkey : ∀ a b, combination stmt.groupBy a = combination stmt.groupBy b →
      selectKey stmt.fields a = selectKey stmt.fields b := by
    intro a b hab
    refine List.flatMap_congr fun field hfield => ?_
    have hvalue := List.map_inj_left.mp hab field.sourceName (stmt.selected field hfield)
    rw [hvalue]
  by_cases hfields : stmt.fields = []
  · -- all the hits are one group
    rw [sqlGroups, if_pos hfields, List.map_singleton]
    by_cases hhits : hits = []
    · subst hhits
      simp [classes, hfields]
    · have hone : (classes (selectKey stmt.fields) hits).Perm [hits] := by
        refine (List.perm_ext_iff_of_nodup nodup_classes (List.nodup_singleton _)).mpr fun c => ?_
        obtain ⟨a, ha⟩ := List.exists_mem_of_ne_nil _ hhits
        simp only [mem_classes, hfields, selectKey, List.flatMap_nil, decide_true, List.filter_true,
          List.mem_singleton]
        exact ⟨fun ⟨_, _, hc⟩ => hc, fun hc => ⟨a, ha, hc⟩⟩
      rw [← hone.congr_left, classes_perm_iff hkey]
      simp [hhits]
  · rw [(perm_sqlGroups hfields hits).congr_left, classes_perm_iff hkey]
    simp [hfields]

/-- `SELECT brand, COUNT(*) … GROUP BY brand, color`. -/
def brandCounts : GroupedSelect where
  fields := [⟨lit "brand", lit "brand"⟩]
  aggregates := [⟨.count, [], lit "count", true, false⟩]
  groupBy := [lit "brand", lit "color"]
  aggregated := by simp
  grouped := by simp
  selected := by simp

def twoColors : List SearchHit :=
  [⟨lit "1", .ofList [(lit "brand", lit "a"), (lit "color", lit "red")]⟩,
   ⟨lit "2", .ofList [(lit "brand", lit "a"), (lit "color", lit "blue")]⟩]

/-- Two combinations share a row that counts both. -/
theorem colors_share_row :
    ((sqlGroups brandCounts twoColors).map fun state => state.hits.map SearchHit.documentId,
      (classes (combination brandCounts.groupBy) twoColors).map fun c =>
        c.map SearchHit.documentId) =
    ([[lit "1", lit "2"]], [[lit "1"], [lit "2"]]) := by
  decide +kernel

end Hlquery.Sql
