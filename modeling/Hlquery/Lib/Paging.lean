import Mathlib.Data.List.Nodup
import Mathlib.Data.List.Perm.Basic
import Mathlib.Data.List.Infix
import Mathlib.Data.List.Sort

/-!
# Pages of a list

A result list is handed out in pages of a fixed size. If every page is cut from a list of its own,
because each request gathers and sorts its own candidates, the pages fit together only where the
lists agree as far as the page reaches. This file says when: a page of the elements kept of a list
is the page of the list exactly if everything up to the end of that page is kept
(`page_filter_eq_iff`), and a sorted list of some elements of a sorted list is that list filtered
(`eq_filter_of_sorted`).
-/

set_option autoImplicit false

namespace Hlquery.Paging

variable {α β ι : Type}

/-- Page `p` of a list, counted from one, with `n` elements to a page. -/
def page (n p : Nat) (l : List α) : List α := (l.drop ((p - 1) * n)).take n

theorem page_map (f : α → β) (n p : Nat) (l : List α) : page n p (l.map f) = (page n p l).map f := by
  simp [page]

variable {l : List α} {before : α → α → Bool} {a : α} {n p : Nat} {keep : α → Bool} {b : α}

theorem getElem?_page {r : Nat} (l : List α) (h : r < n) :
    (page n p l)[r]? = l[(p - 1) * n + r]? := by
  simp only [page, List.getElem?_take, if_pos h, List.getElem?_drop]

theorem page_eq_drop_take (hp : 1 ≤ p) (l : List α) :
    page n p l = (l.take (p * n)).drop ((p - 1) * n) := by
  have hn : p * n - (p - 1) * n = n := by
    rw [← Nat.sub_mul, Nat.sub_sub_self hp, Nat.one_mul]
  rw [page, List.drop_take, hn]

theorem page_eq_nil (h : l.length ≤ (p - 1) * n) : page n p l = [] := by
  rw [page, List.drop_eq_nil_of_le h, List.take_nil]

/-! ## Pages of the elements kept -/

/-- An element stays where it is only if everything up to it is kept. -/
theorem kept_of_getElem?_filter (hnodup : l.Nodup) {i : Nat} (hi : i < l.length)
    (h : (l.filter keep)[i]? = some l[i]) : ∀ y ∈ l.take (i + 1), keep y = true := by
  have hx : keep l[i] = true := (List.mem_filter.mp (List.mem_of_getElem? h)).2
  have hsplit : l.filter keep = (l.take i).filter keep ++ l[i] :: (l.drop (i + 1)).filter keep := by
    rw [← List.filter_cons_of_pos hx, ← List.filter_append, ← List.drop_eq_getElem_cons hi,
      List.take_append_drop]
  -- it stands behind what is kept of the elements before it, and nowhere else
  have hplace : (l.filter keep)[((l.take i).filter keep).length]? = some l[i] := by
    rw [hsplit, List.getElem?_append_right (Nat.le_refl _), Nat.sub_self]
    rfl
  obtain ⟨hlt, -⟩ := List.getElem?_eq_some_iff.mp h
  have hi' : i = ((l.take i).filter keep).length :=
    (List.getElem?_inj hlt (hnodup.filter keep)).mp (h.trans hplace.symm)
  have hall : ∀ y ∈ l.take i, keep y = true := by
    refine List.length_filter_eq_length_iff.mp ?_
    rw [← hi', List.length_take, Nat.min_eq_left hi.le]
  intro y hy
  rw [List.take_succ_eq_append_getElem hi, List.mem_append, List.mem_singleton] at hy
  rcases hy with hy | rfl
  · exact hall y hy
  · exact hx

theorem take_filter_of_kept {m : Nat} (h : ∀ y ∈ l.take m, keep y = true) :
    (l.filter keep).take m = l.take m := by
  induction l generalizing m with
  | nil => rfl
  | cons a t ih =>
    cases m with
    | zero => rfl
    | succ m =>
      have ha : keep a = true := h a (by simp)
      rw [List.filter_cons_of_pos ha, List.take_succ_cons, List.take_succ_cons,
        ih fun y hy => h y (by simp [hy])]

/-- **A page of what is kept is the page of the whole list exactly if everything up to the end of
that page is kept**, for a page that the list reaches. -/
theorem page_filter_eq_iff (hnodup : l.Nodup) (hp : 1 ≤ p) : page n p (l.filter keep) = page n p l ↔
      ((p - 1) * n < l.length → ∀ y ∈ l.take (p * n), keep y = true) := by
  constructor
  · intro h hlen y hy
    cases Nat.eq_zero_or_pos n with
    | inl hn => simp [hn] at hy
    | inr hn =>
      -- the last place of the page that the list has
      have hpn : (p - 1) * n + n = p * n := by
        rw [← Nat.succ_mul, Nat.succ_eq_add_one, Nat.sub_add_cancel hp]
      obtain ⟨r, hr, hlast, hreach⟩ : ∃ r < n, (p - 1) * n + r < l.length ∧
          l.take (p * n) = l.take ((p - 1) * n + r + 1) := by
        by_cases hfull : p * n ≤ l.length
        · exact ⟨n - 1, by omega, by omega, by congr 1; omega⟩
        · refine ⟨l.length - 1 - (p - 1) * n, by omega, by omega, ?_⟩
          rw [List.take_of_length_le (by omega), List.take_of_length_le (by omega)]
      have hget := congrArg (fun k => k[r]?) h
      simp only [getElem?_page _ hr, List.getElem?_eq_getElem hlast] at hget
      rw [hreach] at hy
      exact kept_of_getElem?_filter hnodup hlast hget y hy
  · intro h
    by_cases hlen : (p - 1) * n < l.length
    · rw [page_eq_drop_take hp, page_eq_drop_take hp, take_filter_of_kept (h hlen)]
    · have hshort := List.length_filter_le keep l
      rw [page_eq_nil (by omega), page_eq_nil (by omega)]

/-! ## Sorted lists -/

/-- What `std::sort` and `std::stable_sort` ask of a comparison on the elements of a list. -/
structure StrictWeakOn (before : α → α → Bool) (l : List α) : Prop where
  irrefl : ∀ a ∈ l, before a a = false
  trans : ∀ a ∈ l, ∀ b ∈ l, ∀ c ∈ l, before a b = true → before b c = true → before a c = true
  incomparable : ∀ a ∈ l, ∀ b ∈ l, ∀ c ∈ l, before a b = false → before b a = false →
    before b c = false → before c b = false → before a c = false ∧ before c a = false

/-- A library sort. Nothing is known of its result where the comparison is not an order. -/
structure SortFunction (α : Type) where
  run : (α → α → Bool) → List α → List α
  perm : ∀ before l, StrictWeakOn before l → (run before l).Perm l
  sorted : ∀ before l, StrictWeakOn before l →
    (run before l).Pairwise fun a b => before b a = false

section

variable (h : StrictWeakOn before l)
include h

/-- Elements that compare as their images do. -/
theorem StrictWeakOn.comap {s : β → β → Bool} {k : List β} {f : β → α}
    (hf : ∀ b ∈ k, f b ∈ l) (hs : ∀ b ∈ k, ∀ b' ∈ k, s b b' = before (f b) (f b')) :
    StrictWeakOn s k where
  irrefl := fun x hx => by
    rw [hs x hx x hx]
    exact h.irrefl _ (hf x hx)
  trans := fun x hx y hy z hz => by
    rw [hs x hx y hy, hs y hy z hz, hs x hx z hz]
    exact h.trans _ (hf x hx) _ (hf y hy) _ (hf z hz)
  incomparable := fun x hx y hy z hz => by
    rw [hs x hx y hy, hs y hy x hx, hs y hy z hz, hs z hz y hy, hs x hx z hz, hs z hz x hx]
    exact h.incomparable _ (hf x hx) _ (hf y hy) _ (hf z hz)

theorem StrictWeakOn.mono {l' : List α} (hsub : ∀ x ∈ l', x ∈ l) :
    StrictWeakOn before l' :=
  h.comap hsub fun _ _ _ _ => rfl

/-- What does not come before a third element through a second does not come before it. -/
theorem StrictWeakOn.not_before_trans {c : α} (ha : a ∈ l)
    (hb : b ∈ l) (hc : c ∈ l) (hab : before a b = false) (hbc : before b c = false) :
    before a c = false := by
  cases hac : before a c with
  | false => rfl
  | true =>
    -- both pairs would be incomparable
    have hba : before b a = false := by
      cases hba : before b a with
      | false => rfl
      | true => exact absurd (h.trans b hb a ha c hc hba hac) (by simp [hbc])
    have hcb : before c b = false := by
      cases hcb : before c b with
      | false => rfl
      | true => exact absurd (h.trans a ha c hc b hb hac hcb) (by simp [hab])
    exact absurd (h.incomparable a ha b hb c hc hab hba hbc hcb).1 (by simp [hac])

theorem StrictWeakOn.asymm (ha : a ∈ l) (hb : b ∈ l)
    (hab : before a b = true) : before b a = false := by
  cases hba : before b a with
  | false => rfl
  | true => exact absurd (h.trans a ha b hb a ha hab hba) (by simp [h.irrefl a ha])

end

theorem StrictWeakOn.orderedInsert : ∀ {l : List α},
    StrictWeakOn before (a :: l) → (l.Pairwise fun x y => before y x = false) →
    (l.orderedInsert (fun x y => before y x = false) a).Pairwise fun x y => before y x = false := by
  intro l
  induction l with
  | nil => intro _ _; simp
  | cons b t ih =>
    intro h hsorted
    obtain ⟨hb, ht⟩ := List.pairwise_cons.mp hsorted
    by_cases hba : before b a = false
    · rw [List.orderedInsert_cons, if_pos hba, List.pairwise_cons]
      refine ⟨?_, hsorted⟩
      intro y hy
      rcases List.mem_cons.mp hy with rfl | hy'
      · exact hba
      · exact h.not_before_trans (by simp [hy']) (by simp) (by simp) (hb y hy') hba
    · rw [List.orderedInsert_cons, if_neg hba, List.pairwise_cons]
      have hsub : ∀ x ∈ a :: t, x ∈ a :: b :: t := by
        intro x hx
        rcases List.mem_cons.mp hx with rfl | hx
        · simp
        · simp [hx]
      refine ⟨?_, ih (h.mono hsub) ht⟩
      intro y hy
      rcases (List.mem_orderedInsert _).mp hy with rfl | hy'
      · exact h.asymm (by simp) (by simp) (by simpa using hba)
      · exact hb y hy'

/-- Insertion is a library sort. -/
def insertionSorter (α : Type) : SortFunction α where
  run := fun before l => l.insertionSort fun x y => before y x = false
  perm := fun _ l _ => List.perm_insertionSort _ l
  sorted := by
    intro before l
    induction l with
    | nil => intro _; simp
    | cons a t ih =>
      intro h
      have hperm := List.perm_insertionSort (fun x y => before y x = false) t
      have hmem : ∀ x ∈ a :: t.insertionSort (fun x y => before y x = false), x ∈ a :: t :=
        fun x hx => (hperm.cons a).mem_iff.mp hx
      exact (h.mono hmem).orderedInsert (ih (h.mono fun x hx => List.mem_cons_of_mem a hx))

/-- A comparison that orders the elements of a list strictly and totally. -/
structure TotalOn (before : α → α → Bool) (l : List α) : Prop where
  asymm : ∀ a ∈ l, ∀ b ∈ l, before a b = true → before b a = false
  trans : ∀ a ∈ l, ∀ b ∈ l, ∀ c ∈ l, before a b = true → before b c = true → before a c = true
  total : ∀ a ∈ l, ∀ b ∈ l, a ≠ b → before a b = true ∨ before b a = true

theorem TotalOn.irrefl (h : TotalOn before l) (ha : a ∈ l) : before a a = false := by
  cases hself : before a a with
  | false => rfl
  | true => exact absurd (h.asymm a ha a ha hself) (by simp [hself])

theorem TotalOn.eq_of_incomparable (h : TotalOn before l) (ha : a ∈ l) (hb : b ∈ l)
    (hab : before a b = false) (hba : before b a = false) : a = b := by
  by_contra hne
  rcases h.total a ha b hb hne with hlt | hlt
  · simp [hab] at hlt
  · simp [hba] at hlt

theorem TotalOn.strictWeakOn (h : TotalOn before l) : StrictWeakOn before l where
  irrefl := fun _ ha => h.irrefl ha
  trans := h.trans
  incomparable := by
    intro a ha b hb c hc hab hba hbc hcb
    obtain rfl := h.eq_of_incomparable ha hb hab hba
    exact ⟨hbc, hcb⟩

/-- In a list in order, the comparison of two elements is that of their places. -/
theorem before_getElem_iff (hasymm : ∀ a b, before a b = true → before b a = false)
    (h : l.Pairwise fun a b => before a b = true) {i j : Nat} (hi : i < l.length)
    (hj : j < l.length) : before l[i] l[j] = true ↔ i < j := by
  rw [List.pairwise_iff_getElem] at h
  refine ⟨fun hbefore => ?_, h i j hi hj⟩
  rcases Nat.lt_trichotomy i j with hij | hij | hij
  · exact hij
  · subst hij
    exact absurd (hasymm _ _ hbefore) (by simp [hbefore])
  · exact absurd (hasymm _ _ (h j i hj hi hij)) (by simp [hbefore])

/-- A list that an asymmetric comparison puts in order is totally ordered by it. -/
theorem TotalOn.of_pairwise (hasymm : ∀ a b, before a b = true → before b a = false)
    (h : l.Pairwise fun a b => before a b = true) : TotalOn before l := by
  refine ⟨fun a _ b _ => hasymm a b, ?_, ?_⟩
  · intro a ha b hb c hc hab hbc
    obtain ⟨i, hi, rfl⟩ := List.getElem_of_mem ha
    obtain ⟨j, hj, rfl⟩ := List.getElem_of_mem hb
    obtain ⟨k, hk, rfl⟩ := List.getElem_of_mem hc
    rw [before_getElem_iff hasymm h] at hab hbc ⊢
    exact hab.trans hbc
  · intro a ha b hb hne
    obtain ⟨i, hi, rfl⟩ := List.getElem_of_mem ha
    obtain ⟨j, hj, rfl⟩ := List.getElem_of_mem hb
    rw [before_getElem_iff hasymm h, before_getElem_iff hasymm h]
    exact Nat.lt_or_gt_of_ne fun hij => hne (by subst hij; rfl)

theorem TotalOn.of_perm {l' : List α} (h : TotalOn before l) (hperm : l.Perm l') :
    TotalOn before l' := by
  have hmem : ∀ {a}, a ∈ l' → a ∈ l := fun ha => hperm.mem_iff.mpr ha
  exact ⟨fun a ha b hb => h.asymm a (hmem ha) b (hmem hb),
    fun a ha b hb c hc => h.trans a (hmem ha) b (hmem hb) c (hmem hc),
    fun a ha b hb => h.total a (hmem ha) b (hmem hb)⟩

/-- A list in which later elements do not come before earlier ones is in order, where the
comparison is total and nothing stands twice. -/
theorem TotalOn.pairwise (h : TotalOn before l) (hnodup : l.Nodup)
    (hsorted : l.Pairwise fun a b => before b a = false) :
    l.Pairwise fun a b => before a b = true := by
  have hboth := hsorted.and hnodup
  refine hboth.imp_of_mem ?_
  intro a b ha hb hab
  rcases h.total a ha b hb hab.2 with hlt | hlt
  · exact hlt
  · simp [hab.1] at hlt

/-- In a list in order, as many elements come before one as stand before it. -/
theorem countP_before_getElem (hasymm : ∀ a b, before a b = true → before b a = false)
    (h : l.Pairwise fun a b => before a b = true) : ∀ (i : Nat) (hi : i < l.length),
    l.countP (fun b => before b l[i]) = i := by
  induction l with
  | nil => intro i hi; simp at hi
  | cons x t ih =>
    obtain ⟨hx, ht⟩ := List.pairwise_cons.mp h
    intro i hi
    cases i with
    | zero =>
      rw [List.getElem_cons_zero, List.countP_eq_zero]
      intro b hb hbefore
      rcases List.mem_cons.mp hb with rfl | hb
      · exact absurd (hasymm _ _ hbefore) (by simp [hbefore])
      · exact absurd (hasymm _ _ (hx b hb)) (by simp [hbefore])
    | succ i =>
      have hi' : i < t.length := by simpa using hi
      have hfirst : before x t[i] = true := hx _ (List.getElem_mem hi')
      rw [List.getElem_cons_succ, List.countP_cons, ih ht i hi', if_pos hfirst]

/-- The first elements of a list in order are those that few come before. -/
theorem mem_take_iff_countP (hasymm : ∀ a b, before a b = true → before b a = false)
    (h : l.Pairwise fun a b => before a b = true) {m : Nat} :
    a ∈ l.take m ↔ a ∈ l ∧ l.countP (fun b => before b a) < m := by
  constructor
  · intro ha
    obtain ⟨i, hi, rfl⟩ := List.getElem_of_mem ha
    rw [List.length_take] at hi
    rw [List.getElem_take, countP_before_getElem hasymm h i (by omega)]
    exact ⟨List.getElem_mem _, by omega⟩
  · rintro ⟨ha, hcount⟩
    obtain ⟨i, hi, rfl⟩ := List.getElem_of_mem ha
    rw [countP_before_getElem hasymm h i hi] at hcount
    exact List.mem_take_iff_getElem.mpr ⟨i, by omega, rfl⟩

/-! ## Some elements of a sorted list, sorted -/

theorem pairwise_idxOf [DecidableEq ι] {l : List ι} (h : l.Nodup) :
    l.Pairwise fun x y => l.idxOf x < l.idxOf y := by
  rw [List.pairwise_iff_getElem]
  intro i j hi hj hij
  rwa [h.idxOf_getElem i hi, h.idxOf_getElem j hj]

/-- A list of elements of `l` that come in the order of `l` is `l` filtered. -/
theorem eq_filter_of_pairwise_idxOf [DecidableEq ι] {k l : List ι} (hl : l.Nodup) (hk : k.Nodup)
    (hsub : ∀ x ∈ k, x ∈ l) (hord : k.Pairwise fun x y => l.idxOf x < l.idxOf y) :
    k = l.filter fun x => decide (x ∈ k) := by
  have hperm : k.Perm (l.filter fun x => decide (x ∈ k)) := by
    rw [List.perm_ext_iff_of_nodup hk (hl.filter _)]
    intro x
    simp only [List.mem_filter, decide_eq_true_eq]
    exact ⟨fun hx => ⟨hsub x hx, hx⟩, fun hx => hx.2⟩
  refine List.Perm.eq_of_pairwise ?_ hord ((pairwise_idxOf hl).filter _) hperm
  intro a b _ _ hab hba
  exact absurd hab (by omega)

/-- **A sorted list of some elements of a sorted list is that list filtered.** The two lists hold
their elements with different data (`idl`, `idk` name them); only the comparisons have to agree. -/
theorem eq_filter_of_sorted [DecidableEq ι] {idl : α → ι} {idk : β → ι} {r : α → α → Bool}
    {s : β → β → Bool} {k : List β} (hl : (l.map idl).Nodup) (hk : (k.map idk).Nodup)
    (hsub : ∀ b ∈ k, ∃ a ∈ l, idl a = idk b)
    (hagree : ∀ b ∈ k, ∀ b' ∈ k, ∀ a ∈ l, ∀ a' ∈ l, idl a = idk b → idl a' = idk b' →
      s b b' = r a a') (hlsorted : l.Pairwise fun a b => r a b = true)
    (hksorted : k.Pairwise fun a b => s b a = false) :
    k.map idk = (l.map idl).filter fun x => decide (x ∈ k.map idk) := by
  have hmem : ∀ x ∈ k.map idk, x ∈ l.map idl := by
    intro x hx
    obtain ⟨b, hb, rfl⟩ := List.mem_map.mp hx
    obtain ⟨a, ha, heq⟩ := hsub b hb
    exact List.mem_map.mpr ⟨a, ha, heq⟩
  refine eq_filter_of_pairwise_idxOf hl hk hmem ?_
  rw [List.pairwise_map]
  have hboth := hksorted.and (List.pairwise_map.mp hk)
  refine hboth.imp_of_mem ?_
  intro b b' hb hb' hbb
  obtain ⟨a, ha, heq⟩ := hsub b hb
  obtain ⟨a', ha', heq'⟩ := hsub b' hb'
  obtain ⟨i, hi, rfl⟩ := List.getElem_of_mem ha
  obtain ⟨j, hj, rfl⟩ := List.getElem_of_mem ha'
  have hidx : ∀ (m : Nat) (hm : m < l.length), (l.map idl).idxOf (idl l[m]) = m := by
    intro m hm
    have hm' : m < (l.map idl).length := by simpa using hm
    have := hl.idxOf_getElem m hm'
    rwa [List.getElem_map] at this
  rw [← heq, ← heq', hidx i hi, hidx j hj]
  -- the other order, and the same place, contradict the two sorts
  rcases Nat.lt_trichotomy i j with hij | hij | hij
  · exact hij
  · subst hij
    exact absurd (heq.symm.trans heq') hbb.2
  · have hlt := List.pairwise_iff_getElem.mp hlsorted j i hj hi hij
    have := hagree b' hb' b hb _ ha' _ ha heq' heq
    exact absurd hlt (by rw [← this, hbb.1]; simp)

end Hlquery.Paging
