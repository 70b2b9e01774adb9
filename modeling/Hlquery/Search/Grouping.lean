import Hlquery.Filter.Evaluate

/-!
# Grouped hits

`ApplyGrouping` keeps a few hits for each combination of the values of the group-by fields. It finds
the combination of a hit again by the values written one after the other, so that `ab`, `c` and `a`,
`bc` share a group, and an absent value is an empty one. **The result is right exactly if the hits
of a group have one combination, or are few enough to be kept all** (`applyGrouping_iff`).
-/

set_option autoImplicit false

namespace Hlquery.Search

open Bytes Hlquery.Filter

/-! ## The first elements of each kind -/

section Groups

variable {α β : Type} [DecidableEq β] {key : α → Bytes} {f : α → β} {limit : Nat} {l : List α}

/-- The elements of a list, each with those before it; `seen` comes before the list. -/
def places : List α → List α → List (List α × α)
  | _, [] => []
  | seen, a :: l => (seen, a) :: places (seen ++ [a]) l

/-- Fewer than `limit` before the element agree with it in `f`. -/
def isFirst (f : α → β) (limit : Nat) (place : List α × α) : Bool :=
  place.1.countP (f · = f place.2) < limit

/-- The first `limit` elements for each value of `f`. -/
def firsts (f : α → β) (limit : Nat) (l : List α) : List α :=
  ((places [] l).filter (isFirst f limit)).map Prod.snd

theorem mem_places {place : List α × α} : ∀ {l seen : List α}, place ∈ places seen l ↔
    ∃ front back, l = front ++ place.2 :: back ∧ place.1 = seen ++ front
  | [], seen => by simp [places]
  | a :: l, seen => by
    rw [places, List.mem_cons, mem_places]
    constructor
    · rintro (rfl | ⟨front, back, rfl, hseen⟩)
      · exact ⟨[], l, rfl, by simp⟩
      · exact ⟨a :: front, back, rfl, by simp [hseen]⟩
    · rintro ⟨front, back, hl, hseen⟩
      cases front with
      | nil =>
        obtain ⟨rfl, -⟩ := List.cons.inj hl
        exact .inl (Prod.ext (by simpa using hseen) rfl)
      | cons b front =>
        obtain ⟨rfl, hl'⟩ := List.cons.inj hl
        exact .inr ⟨front, back, hl', by simp [hseen]⟩

/-- Where the later elements agree with many before them, the elements agree or are few. -/
theorem length_le_of_later {a b : α} (hlimit : 0 < limit) (ha : a ∈ l) (hb : b ∈ l)
    (hne : f a ≠ f b) (h : ∀ front x back, l = front ++ x :: back → limit ≤ front.length →
      limit ≤ front.countP (f · = f x)) : l.length ≤ limit := by
  by_contra hlong
  -- the first `limit` agree with the one after them
  obtain ⟨x, hx⟩ : ∃ x, ∀ y ∈ l.take limit, f y = f x := by
    refine ⟨l[limit], fun y hy => ?_⟩
    have hmany := h (l.take limit) l[limit] (l.drop (limit + 1)) (by simp) (by simp; omega)
    have hall := List.countP_eq_length.mp (le_antisymm List.countP_le_length
      (le_trans (by simp) hmany))
    simpa using hall y hy
  -- and the first that does not has none before it to agree with
  obtain ⟨y, hy⟩ : ∃ y, l.find? (fun y => decide (f y ≠ f x)) = some y := by
    refine Option.isSome_iff_exists.mp (List.find?_isSome.mpr ?_)
    by_cases hax : f a = f x
    · exact ⟨b, hb, decide_eq_true fun hbx => hne (hax.trans hbx.symm)⟩
    · exact ⟨a, ha, decide_eq_true hax⟩
  obtain ⟨hyx, front, back, hl, hfront⟩ := List.find?_eq_some_iff_append.mp hy
  have hyx : f y ≠ f x := of_decide_eq_true hyx
  have hlen : limit ≤ front.length := by
    by_contra hshort
    obtain ⟨n, hn⟩ : ∃ n, limit - front.length = n + 1 := ⟨limit - front.length - 1, by omega⟩
    refine hyx (hx y ?_)
    rw [hl, List.take_append, hn, List.take_succ_cons]
    simp
  have hmany := h front y back hl hlen
  rw [List.countP_eq_zero.mpr] at hmany
  · omega
  intro z hz hzy
  have hzx : f z = f x := by simpa using hfront z hz
  exact hyx ((of_decide_eq_true hzy).symm.trans hzx)

/-- **The first of each key are the first of each `f` exactly if the elements of a key that differ in
`f` are few**, where `f` tells apart what `key` does. -/
theorem firsts_perm_iff (hlimit : 0 < limit) (hf : ∀ a b, f a = f b → key a = key b) :
    (firsts key limit l).Perm (firsts f limit l) ↔
      ∀ a ∈ l, ∀ b ∈ l, key a = key b → f a ≠ f b → l.countP (key · = key a) ≤ limit := by
  have hmore : ∀ place, isFirst key limit place = true → isFirst f limit place = true := by
    intro place hfirst
    refine decide_eq_true (lt_of_le_of_lt ?_ (of_decide_eq_true hfirst))
    exact List.countP_mono_left fun b _ hb => by simpa using hf b place.2 (by simpa using hb)
  constructor
  · intro hperm a ha b hb hkey hne
    -- none is first in `f` only
    have hsame : ∀ front x back, l = front ++ x :: back → limit ≤ front.countP (key · = key x) →
        limit ≤ front.countP (f · = f x) := by
      have heq : (places [] l).filter (isFirst key limit) = (places [] l).filter (isFirst f limit) := by
        refine (List.monotone_filter_right _ hmore).eq_of_length ?_
        simpa [firsts] using hperm.length_eq
      intro front x back hl hmany
      by_contra hfew
      have hmem : (front, x) ∈ (places [] l).filter (isFirst f limit) :=
        List.mem_filter.mpr ⟨mem_places.mpr ⟨front, back, hl, rfl⟩, by simpa [isFirst] using hfew⟩
      rw [← heq, List.mem_filter] at hmem
      exact absurd hmem.2 (by simpa [isFirst] using hmany)
    rw [List.countP_eq_length_filter]
    refine length_le_of_later hlimit (List.mem_filter.mpr ⟨ha, by simp⟩)
      (List.mem_filter.mpr ⟨hb, by simp [hkey]⟩) hne fun front x back hl hlen => ?_
    obtain ⟨l₁, l₂, hl₁, rfl, hrest⟩ := List.filter_eq_append_iff.mp hl
    obtain ⟨l₃, l₄, rfl, hl₃, hx, -⟩ := List.filter_eq_cons_iff.mp hrest
    have hx : key x = key a := of_decide_eq_true hx
    have hmany := hsame (l₁ ++ l₃) x l₄ (by simp [hl₁]) (by
      rw [List.countP_append, hx, List.countP_eq_length_filter]
      omega)
    rw [List.countP_filter]
    refine le_trans hmany ?_
    have hnone : l₃.countP (f · = f x) = 0 := List.countP_eq_zero.mpr fun y hy hyx =>
      hl₃ y hy (decide_eq_true ((hf y x (of_decide_eq_true hyx)).trans hx))
    rw [List.countP_append, hnone, Nat.add_zero]
    refine List.countP_mono_left fun y _ hyx => ?_
    have hyx : f y = f x := of_decide_eq_true hyx
    simp [hyx, (hf y x hyx).trans hx]
  · intro h
    refine List.Perm.of_eq (congrArg (List.map Prod.snd) (List.filter_congr fun place hplace => ?_))
    refine Bool.eq_iff_iff.mpr ⟨hmore place, fun hfirst => ?_⟩
    obtain ⟨front, back, hl, hfront⟩ := mem_places.mp hplace
    rw [List.nil_append] at hfront
    unfold isFirst at hfirst ⊢
    rw [hfront, decide_eq_true_eq] at hfirst ⊢
    by_contra hmany
    -- one of them has another value of `f`, so that they are few
    obtain ⟨b, hb, hba, hne⟩ : ∃ b ∈ front, key b = key place.2 ∧ f b ≠ f place.2 := by
      by_contra hall
      push Not at hall
      have hle := List.countP_mono_left (l := front) (p := (key · = key place.2))
        (q := (f · = f place.2)) fun b hb hba => by simpa using hall b hb (by simpa using hba)
      omega
    have hfew := h place.2 (by simp [hl]) b (by simp [hl, hb]) hba.symm hne.symm
    rw [hl, List.countP_append, List.countP_cons] at hfew
    simp at hfew
    omega

/-! ## The map of groups -/

/-- A hit goes to the group of its key while that has room. -/
def addToGroup (key : α → Bytes) (limit : Nat) (groups : ByteMap (List α)) (a : α) :
    ByteMap (List α) :=
  let group := (groups[key a]?).getD []
  groups.insert (key a) (if group.length < limit then group ++ [a] else group)

def listing (groups : ByteMap (List α)) : List α := groups.toList.flatMap Prod.snd

theorem listing_perm (groups : ByteMap (List α)) (k : Bytes) :
    (listing groups).Perm ((groups[k]?).getD [] ++ listing (groups.erase k)) := by
  cases hk : groups[k]? with
  | none => rw [ByteMap.erase_of_none hk]; rfl
  | some group => exact (ByteMap.toList_perm_erase hk).flatMap_right _

theorem listing_addToGroup (groups : ByteMap (List α)) (a : α) :
    (listing (addToGroup key limit groups a)).Perm (listing groups ++
      if ((groups[key a]?).getD []).length < limit then [a] else []) := by
  have herase : (addToGroup key limit groups a).erase (key a) = groups.erase (key a) := by
    refine Std.ExtTreeMap.ext_getElem? fun k => ?_
    rw [addToGroup, ByteMap.get_erase, ByteMap.get_erase, ByteMap.get_insert]
    split <;> rfl
  have hnew := listing_perm (addToGroup key limit groups a) (key a)
  rw [herase, addToGroup, ByteMap.get_insert, if_pos rfl, Option.getD_some] at hnew
  refine hnew.trans ?_
  have hold := listing_perm groups (key a)
  split
  · rw [List.append_assoc]
    exact (List.perm_append_comm.append_left _).trans
      ((List.append_assoc ..).symm ▸ hold.symm.append_right [a])
  · simpa using hold.symm

/-- **The groups hold the first elements of each key.** -/
theorem listing_groups : ∀ {l seen : List α} {groups : ByteMap (List α)},
    (∀ k, ((groups[k]?).getD []).length = min limit (seen.countP (key · = k))) →
    (listing (l.foldl (addToGroup key limit) groups)).Perm
      (listing groups ++ ((places seen l).filter (isFirst key limit)).map Prod.snd)
  | [], seen, groups, _ => by simp [places]
  | a :: l, seen, groups, hroom => by
    have hroom' : ∀ k, (((addToGroup key limit groups a)[k]?).getD []).length =
        min limit ((seen ++ [a]).countP (key · = k)) := by
      intro k
      have hk := hroom k
      rw [addToGroup, ByteMap.get_insert, List.countP_append, List.countP_singleton]
      by_cases hak : k = key a
      · subst hak
        simp only [if_true, Option.getD_some, decide_true]
        split
        · rw [List.length_append, List.length_singleton]
          omega
        · omega
      · rw [if_neg hak, if_neg (by simpa using Ne.symm hak)]
        simpa using hk
    refine (listing_groups hroom').trans (((listing_addToGroup groups a).append_right _).trans ?_)
    rw [places, List.filter_cons, List.append_assoc, hroom (key a)]
    by_cases hfirst : seen.countP (key · = key a) < limit
    · rw [if_pos (by omega), if_pos (by simpa [isFirst] using hfirst)]
      rfl
    · rw [if_neg (by omega), if_neg (by simpa [isFirst] using hfirst)]
      rfl

end Groups

/-! ## `ApplyGrouping` -/

/-- The key of a hit: the values of the group-by fields, written one after the other. -/
def groupKey (groupBy : List Bytes) (hit : SearchHit) : Bytes :=
  groupBy.flatMap fun field => (hit.document[field]?).getD []

/-- `ApplyGrouping`; the groups hold the hits, where the source's hold their positions. -/
def applyGrouping (hits : List SearchHit) (groupBy : List Bytes) (groupLimit : Int) :
    List SearchHit :=
  if groupLimit ≤ 0 then []
  else listing (hits.foldl (addToGroup (groupKey groupBy) groupLimit.toNat) ∅)

/-- The combination of the group-by fields' values in a hit; a field can be absent. -/
def combination (groupBy : List Bytes) (hit : SearchHit) : List (Option Bytes) :=
  groupBy.map fun field => hit.document[field]?

theorem groupKey_eq (groupBy : List Bytes) (hit : SearchHit) :
    groupKey groupBy hit = (combination groupBy hit).flatMap fun value => value.getD [] := by
  rw [groupKey, combination, List.flatMap_map]

/-- **`ApplyGrouping` keeps the first hits of each combination exactly if the hits whose values give
one key have one combination, or are no more than the limit.** -/
theorem applyGrouping_iff (hits : List SearchHit) (groupBy : List Bytes) (groupLimit : Int) :
    (applyGrouping hits groupBy groupLimit).Perm
        (firsts (combination groupBy) groupLimit.toNat hits) ↔
      (0 < groupLimit → ∀ a ∈ hits, ∀ b ∈ hits, groupKey groupBy a = groupKey groupBy b →
        combination groupBy a ≠ combination groupBy b →
        hits.countP (groupKey groupBy · = groupKey groupBy a) ≤ groupLimit.toNat) := by
  by_cases hlimit : groupLimit ≤ 0
  · have hnone : firsts (combination groupBy) groupLimit.toNat hits = [] := by
      simp [firsts, isFirst, Int.toNat_of_nonpos hlimit]
    rw [applyGrouping, if_pos hlimit, hnone]
    exact ⟨fun _ hpos => absurd hpos (by omega), fun _ => .refl _⟩
  · have hgroups : (applyGrouping hits groupBy groupLimit).Perm
        (firsts (groupKey groupBy) groupLimit.toNat hits) := by
      have hempty : ∀ k : Bytes, (((∅ : ByteMap (List SearchHit))[k]?).getD []).length =
          min groupLimit.toNat ([].countP (groupKey groupBy · = k)) := by simp
      have hlisting : listing (∅ : ByteMap (List SearchHit)) = [] := rfl
      rw [applyGrouping, if_neg hlimit]
      simpa only [hlisting, List.nil_append, firsts] using listing_groups (l := hits) hempty
    rw [hgroups.congr_left]
    refine (firsts_perm_iff (by omega) fun a b hab => ?_).trans ⟨fun h _ => h, fun h => h (by omega)⟩
    rw [groupKey_eq, groupKey_eq, hab]

def splitHits : List SearchHit :=
  [⟨lit "1", .ofList [(lit "brand", lit "ab"), (lit "color", lit "c")]⟩,
   ⟨lit "2", .ofList [(lit "brand", lit "a"), (lit "color", lit "bc")]⟩]

/-- The second hit is dropped, though it is the first of its combination. -/
theorem split_hit_dropped :
    ((applyGrouping splitHits [lit "brand", lit "color"] 1).map SearchHit.documentId,
      (firsts (combination [lit "brand", lit "color"]) 1 splitHits).map SearchHit.documentId) =
    ([lit "1"], [lit "1", lit "2"]) := by
  decide

end Hlquery.Search
