import Std.Data.ExtTreeMap
import Mathlib.Data.List.Basic

/-!
# Joining two maps

Two ways to find the keys that two maps have in common, with a value made from the two values of each.
The first walks through the entries of both in the order of the keys and moves on, at each step, behind
the smaller of the two keys in front. The second goes through the entries of one map in any order and
looks each key up in the other.

**Both give the map that has a key exactly where the two maps have it** (`getElem?_mergeJoin`,
`getElem?_lookupJoin`), **so they give the same map** (`mergeJoin_eq_lookupJoin`).
-/

set_option autoImplicit false

namespace Hlquery.Join

open Std

variable {K A B C : Type} {cmp : K → K → Ordering} (join : A → B → C)

variable (cmp) in
def mergeLoop : List (K × A) → List (K × B) → List (K × C)
  | [], _ => []
  | _ :: _, [] => []
  | a :: as, b :: bs =>
      if cmp a.1 b.1 = .lt then mergeLoop as (b :: bs)
      else if cmp b.1 a.1 = .lt then mergeLoop (a :: as) bs
      else (a.1, join a.2 b.2) :: mergeLoop as bs
termination_by as bs => as.length + bs.length

def InOrder (cmp : K → K → Ordering) {V : Type} (entries : List (K × V)) : Prop :=
  entries.Pairwise fun a b => cmp a.1 b.1 = .lt

theorem not_lt_self [ReflCmp cmp] (k : K) : cmp k k ≠ .lt := by
  have hself : cmp k k = .eq := ReflCmp.compare_self
  rw [hself]
  decide

theorem inOrder_mergeLoop {as : List (K × A)} {bs : List (K × B)} (has : InOrder cmp as) :
    InOrder cmp (mergeLoop cmp join as bs) ∧
      ∀ entry ∈ mergeLoop cmp join as bs, ∃ x, (entry.1, x) ∈ as := by
  induction as, bs using mergeLoop.induct cmp with
  | case1 bs => exact ⟨by rw [mergeLoop]; exact .nil, by simp [mergeLoop]⟩
  | case2 a as => exact ⟨by rw [mergeLoop]; exact .nil, by simp [mergeLoop]⟩
  | case3 a as b bs hlt ih =>
    rw [mergeLoop, if_pos hlt]
    obtain ⟨horder, hkeys⟩ := ih has.of_cons
    exact ⟨horder, fun entry hentry => (hkeys entry hentry).imp fun _ => .tail _⟩
  | case4 a as b bs hge hlt ih =>
    rw [mergeLoop, if_neg hge, if_pos hlt]
    exact ih has
  | case5 a as b bs hge hle ih =>
    rw [mergeLoop, if_neg hge, if_neg hle]
    obtain ⟨horder, hkeys⟩ := ih has.of_cons
    constructor
    · refine List.pairwise_cons.mpr ⟨fun entry hentry => ?_, horder⟩
      obtain ⟨x, hx⟩ := hkeys entry hentry
      exact (List.pairwise_cons.mp has).1 _ hx
    · rintro entry (_ | ⟨_, hentry⟩)
      · exact ⟨a.2, .head _⟩
      · exact (hkeys entry hentry).imp fun _ => .tail _

section Walk

variable [TransCmp cmp] [LawfulEqCmp cmp]

theorem InOrder.ne_of_lt {V : Type} {k : K} {b : K × V} {bs : List (K × V)}
    (h : InOrder cmp (b :: bs)) (hlt : cmp k b.1 = .lt) : ∀ entry ∈ b :: bs, entry.1 ≠ k := by
  rintro entry hentry rfl
  rcases List.mem_cons.mp hentry with rfl | hentry
  · exact not_lt_self _ hlt
  · exact not_lt_self _ (TransCmp.lt_trans hlt ((List.pairwise_cons.mp h).1 entry hentry))

/-- **The walk finds every common key**, and nothing else. -/
theorem mem_mergeLoop {as : List (K × A)} {bs : List (K × B)} (has : InOrder cmp as)
    (hbs : InOrder cmp bs) {k : K} {v : C} :
    (k, v) ∈ mergeLoop cmp join as bs ↔ ∃ x y, (k, x) ∈ as ∧ (k, y) ∈ bs ∧ v = join x y := by
  induction as, bs using mergeLoop.induct cmp with
  | case1 bs => simp [mergeLoop]
  | case2 a as => simp [mergeLoop]
  | case3 a as b bs hlt ih =>
    rw [mergeLoop, if_pos hlt, ih has.of_cons hbs]
    -- the first key on the left is smaller than all on the right
    have hne := hbs.ne_of_lt hlt
    refine exists_congr fun x => exists_congr fun y => ⟨fun ⟨hx, h⟩ => ⟨.tail _ hx, h⟩, ?_⟩
    rintro ⟨hx, hy, hv⟩
    rcases List.mem_cons.mp hx with rfl | hx
    · exact absurd rfl (hne _ hy)
    · exact ⟨hx, hy, hv⟩
  | case4 a as b bs hge hlt ih =>
    rw [mergeLoop, if_neg hge, if_pos hlt, ih has hbs.of_cons]
    have hne := has.ne_of_lt hlt
    refine exists_congr fun x => exists_congr fun y =>
      ⟨fun ⟨hx, hy, hv⟩ => ⟨hx, .tail _ hy, hv⟩, ?_⟩
    rintro ⟨hx, hy, hv⟩
    rcases List.mem_cons.mp hy with rfl | hy
    · exact absurd rfl (hne _ hx)
    · exact ⟨hx, hy, hv⟩
  | case5 a as b bs hge hle ih =>
    have heq : a.1 = b.1 := by
      cases hcmp : cmp a.1 b.1 with
      | lt => exact absurd hcmp hge
      | eq => exact LawfulEqCmp.eq_of_compare hcmp
      | gt => exact absurd (OrientedCmp.lt_of_gt hcmp) hle
    rw [mergeLoop, if_neg hge, if_neg hle, List.mem_cons, ih has.of_cons hbs.of_cons]
    constructor
    · rintro (h | ⟨x, y, hx, hy, hv⟩)
      · cases h
        exact ⟨a.2, b.2, .head _, heq ▸ .head _, rfl⟩
      · exact ⟨x, y, .tail _ hx, .tail _ hy, hv⟩
    · rintro ⟨x, y, hx, hy, rfl⟩
      rcases List.mem_cons.mp hx with hx | hx
      · rcases List.mem_cons.mp hy with hy | hy
        · left
          rw [← hx, ← hy]
        · -- a key of the right list after its head is greater
          have hlt := (List.pairwise_cons.mp hbs).1 _ hy
          rw [← heq, ← hx] at hlt
          exact absurd hlt (not_lt_self k)
      · rcases List.mem_cons.mp hy with hy | hy
        · have hlt := (List.pairwise_cons.mp has).1 _ hx
          rw [heq, ← hy] at hlt
          exact absurd hlt (not_lt_self k)
        · exact .inr ⟨x, y, hx, hy, rfl⟩

end Walk

/-! ## Maps -/

section Maps

variable (m : ExtTreeMap K A cmp) (m' : ExtTreeMap K B cmp) [TransCmp cmp]

def collect (entries : List (K × C)) : ExtTreeMap K C cmp :=
  entries.foldl (fun joined entry => joined.insert entry.1 entry.2) ∅

def mergeJoin : ExtTreeMap K C cmp := collect (mergeLoop cmp join m.toList m'.toList)

def lookupJoin : ExtTreeMap K C cmp :=
  collect (m'.toList.filterMap fun entry => m[entry.1]?.map fun x => (entry.1, join x entry.2))

theorem inOrder_toList {V : Type} (n : ExtTreeMap K V cmp) : InOrder cmp n.toList :=
  ExtTreeMap.ordered_keys_toList

variable [LawfulEqCmp cmp]

theorem getElem?_foldl_insert {k : K} {v : C} :
    ∀ {entries : List (K × C)} {joined : ExtTreeMap K C cmp}, InOrder cmp entries →
      ((entries.foldl (fun joined entry => joined.insert entry.1 entry.2) joined)[k]? = some v ↔
        (k, v) ∈ entries ∨ joined[k]? = some v ∧ ∀ entry ∈ entries, entry.1 ≠ k)
  | [], joined, _ => by simp
  | entry :: entries, joined, h => by
    obtain ⟨hfirst, hrest⟩ := List.pairwise_cons.mp h
    rw [List.foldl_cons, getElem?_foldl_insert hrest, ExtTreeMap.getElem?_insert]
    by_cases hk : entry.1 = k
    · subst hk
      -- the other keys are greater
      have hne : ∀ other ∈ entries, other.1 ≠ entry.1 := by
        intro other hother he
        exact not_lt_self entry.1 (he ▸ hfirst other hother)
      have hself : cmp entry.1 entry.1 = .eq := ReflCmp.compare_self
      rw [if_pos hself]
      constructor
      · rintro (hmem | ⟨hv, -⟩)
        · exact absurd rfl (hne (entry.1, v) hmem)
        · left
          cases hv
          exact .head _
      · rintro (hmem | ⟨-, hall⟩)
        · rcases List.mem_cons.mp hmem with he | hmem
          · exact .inr ⟨by rw [← he], hne⟩
          · exact absurd rfl (hne (entry.1, v) hmem)
        · exact absurd rfl (hall entry (.head _))
    · have hcmp : cmp entry.1 k ≠ .eq := fun he => hk (LawfulEqCmp.eq_of_compare he)
      rw [if_neg hcmp, List.mem_cons, List.forall_mem_cons]
      have hne : (k, v) ≠ entry := fun he => hk (by rw [← he])
      simp [hk, hne]

theorem getElem?_collect {entries : List (K × C)} (h : InOrder cmp entries) {k : K} {v : C} :
    (collect entries : ExtTreeMap K C cmp)[k]? = some v ↔ (k, v) ∈ entries := by
  rw [collect, getElem?_foldl_insert h]
  simp

theorem getElem?_mergeJoin (k : K) :
    (mergeJoin join m m')[k]? = m[k]?.bind fun x => m'[k]?.map (join x) := by
  refine Option.ext fun v => ?_
  rw [mergeJoin, getElem?_collect (inOrder_mergeLoop join (inOrder_toList m)).1,
    mem_mergeLoop join (inOrder_toList m) (inOrder_toList m')]
  simp only [ExtTreeMap.mem_toList_iff_getElem?_eq_some, Option.bind_eq_some_iff,
    Option.map_eq_some_iff]
  constructor
  · rintro ⟨x, y, hx, hy, rfl⟩
    exact ⟨x, hx, y, hy, rfl⟩
  · rintro ⟨x, hx, y, hy, rfl⟩
    exact ⟨x, y, hx, hy, rfl⟩

theorem getElem?_lookupJoin (k : K) :
    (lookupJoin join m m')[k]? = m[k]?.bind fun x => m'[k]?.map (join x) := by
  have horder : InOrder cmp (m'.toList.filterMap fun entry =>
      m[entry.1]?.map fun x => (entry.1, join x entry.2)) := by
    refine (inOrder_toList m').filterMap _ fun a b hab c hc d hd => ?_
    obtain ⟨_, -, rfl⟩ := Option.map_eq_some_iff.mp hc
    obtain ⟨_, -, rfl⟩ := Option.map_eq_some_iff.mp hd
    exact hab
  refine Option.ext fun v => ?_
  rw [lookupJoin, getElem?_collect horder, List.mem_filterMap]
  simp only [Option.bind_eq_some_iff, Option.map_eq_some_iff]
  constructor
  · rintro ⟨⟨k', y⟩, hmem, x, hx, he⟩
    cases he
    exact ⟨x, hx, y, ExtTreeMap.mem_toList_iff_getElem?_eq_some.mp hmem, rfl⟩
  · rintro ⟨x, hx, y, hy, rfl⟩
    exact ⟨(k, y), ExtTreeMap.mem_toList_iff_getElem?_eq_some.mpr hy, x, hx, rfl⟩

/-- **It does not matter which way the common keys are found.** -/
theorem mergeJoin_eq_lookupJoin : mergeJoin join m m' = lookupJoin join m m' :=
  ExtTreeMap.ext_getElem? fun {k} => by rw [getElem?_mergeJoin, getElem?_lookupJoin]

end Maps

end Hlquery.Join
