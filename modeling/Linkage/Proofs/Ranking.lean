import Linkage.Ranking
import Mathlib.Data.List.Basic
import Mathlib.Data.List.Nodup
import Mathlib.Data.Multiset.Bind
import Mathlib.Data.Sym.Sym2
import Mathlib.Tactic.Abel
import Mathlib.Tactic.Ring

/-!
# Rankings and pairs of positions

A sorted list holds what the list holds. What stands at a position of a list, and which pairs of
positions the lists of pairs hold, in which order, and how many.
-/

namespace Linkage

variable {α β : Type}

theorem insertBy_perm (before : α → α → Bool) (x : α) (l : List α) :
    (insertBy before x l).Perm (x :: l) := by
  induction l with
  | nil => exact .refl _
  | cons y l ih =>
    rw [insertBy]
    split_ifs
    · exact .refl _
    · exact (ih.cons y).trans (.swap x y l)

theorem sortBy_perm (before : α → α → Bool) (l : List α) : (sortBy before l).Perm l := by
  induction l with
  | nil => exact .refl _
  | cons x l ih => exact (insertBy_perm before x _).trans (ih.cons x)

/-- The first element of a sorted list is the first one of those that may stand before all. -/
theorem head?_sortBy {before : α → α → Bool} {x : α} {earlier later : List α}
    (hearlier : ∀ y ∈ earlier, before y x = false) (hlater : ∀ y ∈ later, before x y = true) :
    (sortBy before (earlier ++ x :: later)).head? = some x := by
  induction earlier with
  | nil =>
    show (insertBy before x (sortBy before later)).head? = some x
    cases hsorted : sortBy before later with
    | nil => rfl
    | cons y ys =>
      have hy : y ∈ later := (sortBy_perm before later).mem_iff.mp (by simp [hsorted])
      rw [insertBy, if_pos (hlater y hy), List.head?_cons]
  | cons y earlier ih =>
    obtain ⟨hy, hearlier⟩ := List.forall_mem_cons.mp hearlier
    obtain ⟨rest, hrest⟩ := List.head?_eq_some_iff.mp (ih hearlier)
    show (insertBy before y (sortBy before (earlier ++ x :: later))).head? = some x
    rw [hrest, insertBy, if_neg (by simp [hy]), List.head?_cons]

theorem split_getElem? {l : List α} {i : Nat} {x : α} (h : l[i]? = some x) :
    ∃ before after, l = before ++ x :: after ∧ before.length = i := by
  obtain ⟨hi, rfl⟩ := List.getElem?_eq_some_iff.mp h
  refine ⟨l.take i, l.drop (i + 1), ?_, List.length_take_of_le (Nat.le_of_lt hi)⟩
  rw [← List.drop_eq_getElem_cons, List.take_append_drop]

theorem modify_eq_set_of_getElem? {l : List α} {i : Nat} {x : α} (f : α → α)
    (hx : l[i]? = some x) : l.modify i f = l.set i (f x) := by
  refine List.ext_getElem? fun j => ?_
  rw [List.getElem?_modify, List.getElem?_set]
  split
  · rename_i hij
    subst hij
    rw [if_pos (List.getElem?_eq_some_iff.mp hx).1, hx]
    rfl
  · exact Option.map_id_apply

/-- Replacing the first of two elements and erasing the second keeps the parts of the list around
them. -/
theorem set_eraseIdx_split {l : List α} {i j : Nat} {x y : α} (hij : i < j)
    (hx : l[i]? = some x) (hy : l[j]? = some y) (z : α) : ∃ before between after,
      l = before ++ x :: (between ++ y :: after) ∧
        (l.set i z).eraseIdx j = before ++ z :: (between ++ after) := by
  obtain ⟨before, rest, rfl, rfl⟩ := split_getElem? hx
  obtain ⟨k, rfl⟩ := Nat.exists_eq_add_of_lt hij
  have hrest : rest[k]? = some y := by
    rwa [Nat.add_assoc, List.getElem?_append_right (Nat.le_add_right ..),
      Nat.add_sub_cancel_left] at hy
  obtain ⟨between, after, rfl, rfl⟩ := split_getElem? hrest
  refine ⟨before, between, after, rfl, ?_⟩
  simp [Nat.add_assoc, List.eraseIdx_append_of_length_le]

theorem set_eraseIdx_perm {l : List α} {i j : Nat} {x y : α} (hij : i < j)
    (hx : l[i]? = some x) (hy : l[j]? = some y) (z : α) : ∃ others,
      l.Perm (x :: y :: others) ∧ ((l.set i z).eraseIdx j).Perm (z :: others) := by
  obtain ⟨before, between, after, rfl, hset⟩ := set_eraseIdx_split hij hx hy z
  refine ⟨before ++ (between ++ after), ?_, ?_⟩
  · refine List.perm_middle.trans (List.Perm.cons x ?_)
    rw [← List.append_assoc, ← List.append_assoc]
    exact List.perm_middle
  · rw [hset]
    exact List.perm_middle

section merged

variable [DecidableEq α] {l : List α} {i j : Nat} {x y z u : α} {p : α → Bool}

/-- What becomes of an element where `x` is replaced with `z` and `y` is erased. -/
def merged (x y z u : α) : Option α := if u = x then some z else if u = y then none else some u

theorem merged_first (x y z : α) : merged x y z x = some z := if_pos rfl

theorem merged_second (hxy : x ≠ y) : merged x y z y = none := by
  rw [merged, if_neg hxy.symm, if_pos rfl]

theorem merged_other (hx : u ≠ x) (hy : u ≠ y) : merged x y z u = some u := by
  rw [merged, if_neg hx, if_neg hy]

theorem filterMap_merged_of_not_mem (hx : x ∉ l) (hy : y ∉ l) :
    l.filterMap (merged x y z) = l := by
  refine (List.filterMap_congr fun u hu => ?_).trans List.filterMap_some
  exact merged_other (fun h => hx (h ▸ hu)) (fun h => hy (h ▸ hu))

/-- Where no element is there twice, the values tell which one is replaced and which one erased. -/
theorem set_eraseIdx_eq_filterMap (hl : l.Nodup) (hij : i < j) (hx : l[i]? = some x)
    (hy : l[j]? = some y) (z : α) : (l.set i z).eraseIdx j = l.filterMap (merged x y z) := by
  obtain ⟨before, between, after, rfl, hset⟩ := set_eraseIdx_split hij hx hy z
  simp only [List.nodup_append, List.nodup_cons, List.mem_append, List.mem_cons] at hl
  have hxy : x ≠ y := by grind
  rw [hset, List.filterMap_append, List.filterMap_cons_some (merged_first x y z),
    List.filterMap_append, List.filterMap_cons_none (merged_second hxy),
    filterMap_merged_of_not_mem, filterMap_merged_of_not_mem, filterMap_merged_of_not_mem]
  all_goals grind

/-- Among selected elements, a merge of selected ones is a merge. -/
theorem filter_filterMap_merged (hx : p x) (hy : p y) (hz : p z) (l : List α) :
    (l.filterMap (merged x y z)).filter p = (l.filter p).filterMap (merged x y z) := by
  rw [List.filter_filterMap, List.filterMap_filter]
  refine List.filterMap_congr fun u _ => ?_
  by_cases hux : u = x
  · rw [hux, merged_first, if_pos hx, Option.filter_some_pos hz]
  by_cases huy : u = y
  · rw [huy, merged_second (Ne.symm (huy ▸ hux)), if_pos hy]
    rfl
  · rw [merged_other hux huy]
    rfl

/-- Among selected elements, a merge of others is not seen. -/
theorem filter_filterMap_merged_of_not (hx : ¬ p x) (hy : ¬ p y) (hz : ¬ p z) (l : List α) :
    (l.filterMap (merged x y z)).filter p = l.filter p := by
  rw [List.filter_filterMap, ← List.filterMap_eq_filter]
  refine List.filterMap_congr fun u _ => ?_
  by_cases hux : u = x
  · rw [hux, merged_first, Option.filter_some_neg (Bool.eq_false_iff.mpr hz), Option.guard,
      if_neg hx]
  by_cases huy : u = y
  · rw [huy, merged_second (Ne.symm (huy ▸ hux)), Option.guard, if_neg hy]
    rfl
  · rw [merged_other hux huy]
    rfl

end merged

/-- The pairs of a list are those of its elements at two positions. -/
theorem mem_pairsOf {l : List α} {x y : α} :
    (x, y) ∈ pairsOf l ↔ ∃ i j : Nat, i < j ∧ l[i]? = some x ∧ l[j]? = some y := by
  induction l with
  | nil => simp [pairsOf]
  | cons z l ih =>
    rw [pairsOf, List.mem_append, ih, List.mem_map]
    constructor
    · intro hex
      rcases hex with ⟨y, hy, heq⟩ | ⟨i, j, hij, hi, hj⟩
      · obtain ⟨rfl, rfl⟩ := Prod.mk.inj heq
        obtain ⟨j, hj⟩ := List.mem_iff_getElem?.mp hy
        exact ⟨0, j + 1, Nat.succ_pos j, rfl, hj⟩
      · exact ⟨i + 1, j + 1, Nat.succ_lt_succ hij, hi, hj⟩
    · intro hex
      obtain ⟨i, j, hij, hi, hj⟩ := hex
      obtain ⟨j, rfl⟩ := Nat.exists_eq_succ_of_ne_zero (Nat.ne_of_gt (Nat.zero_lt_of_lt hij))
      cases i with
      | zero =>
        rw [List.getElem?_cons_zero, Option.some.injEq] at hi
        exact Or.inl ⟨y, List.mem_of_getElem? hj, by rw [hi]⟩
      | succ i => exact Or.inr ⟨i, j, Nat.lt_of_succ_lt_succ hij, hi, hj⟩

theorem mem_of_mem_pairsOf {l : List α} {p : α × α} (hp : p ∈ pairsOf l) : p.1 ∈ l ∧ p.2 ∈ l := by
  obtain ⟨i, j, -, hi, hj⟩ := mem_pairsOf.mp hp
  exact ⟨List.mem_of_getElem? hi, List.mem_of_getElem? hj⟩

theorem mem_pairsOf_or_swap {l : List α} {x y : α} (hx : x ∈ l) (hy : y ∈ l) (hxy : x ≠ y) :
    (x, y) ∈ pairsOf l ∨ (y, x) ∈ pairsOf l := by
  obtain ⟨i, hi⟩ := List.mem_iff_getElem?.mp hx
  obtain ⟨j, hj⟩ := List.mem_iff_getElem?.mp hy
  have hij : i ≠ j := by
    rintro rfl
    exact hxy (Option.some.inj (hi.symm.trans hj))
  rcases Nat.lt_or_gt_of_ne hij with hlt | hlt
  · exact Or.inl (mem_pairsOf.mpr ⟨i, j, hlt, hi, hj⟩)
  · exact Or.inr (mem_pairsOf.mpr ⟨j, i, hlt, hj, hi⟩)

/-- A pair without its order. -/
def unordered (p : α × α) : Sym2 α := s(p.1, p.2)

theorem nodup_unordered_pairsOf {l : List α} (h : l.Nodup) :
    ((pairsOf l).map unordered).Nodup := by
  induction l with
  | nil => exact List.nodup_nil
  | cons x l ih =>
    obtain ⟨hx, hl⟩ := List.nodup_cons.mp h
    rw [pairsOf, List.map_append, List.map_map, List.nodup_append']
    refine ⟨hl.map fun y z hyz => Sym2.congr_right.mp hyz, ih hl, fun z hz hz' => ?_⟩
    obtain ⟨y, -, rfl⟩ := List.mem_map.mp hz
    obtain ⟨p, hp, heq⟩ := List.mem_map.mp hz'
    obtain ⟨hfirst, hsecond⟩ := mem_of_mem_pairsOf hp
    rcases Sym2.eq_iff.mp heq with ⟨rfl, -⟩ | ⟨-, rfl⟩
    · exact hx hfirst
    · exact hx hsecond

/-- In an ordered list the pairs are in lexicographic order. -/
theorem pairsOf_pairwise {r : α → α → Prop} {l : List α} (h : l.Pairwise r) :
    (pairsOf l).Pairwise fun p q => r p.1 q.1 ∨ p.1 = q.1 ∧ r p.2 q.2 := by
  induction l with
  | nil => exact List.Pairwise.nil
  | cons x l ih =>
    obtain ⟨hx, hl⟩ := List.pairwise_cons.mp h
    rw [pairsOf, List.pairwise_append]
    refine ⟨List.pairwise_map.mpr (hl.imp fun hr => Or.inr ⟨rfl, hr⟩), ih hl, ?_⟩
    intro p hp q hq
    obtain ⟨y, -, rfl⟩ := List.mem_map.mp hp
    obtain ⟨i, -, -, hi, -⟩ := mem_pairsOf.mp hq
    exact Or.inl (hx q.1 (List.mem_of_getElem? hi))

theorem length_pairsOf_le (l : List α) : (pairsOf l).length ≤ l.length ^ 2 := by
  induction l with
  | nil => exact Nat.le_refl _
  | cons x l ih =>
    rw [pairsOf, List.length_append, List.length_map, List.length_cons]
    calc l.length + (pairsOf l).length
        ≤ l.length + l.length ^ 2 := Nat.add_le_add_left ih _
      _ ≤ (l.length + 1) ^ 2 := by ring_nf; omega

theorem mem_pairsOf_zipIdx {l : List α} {x y : α} {i j : Nat} :
    ((x, i), (y, j)) ∈ pairsOf l.zipIdx ↔ i < j ∧ l[i]? = some x ∧ l[j]? = some y := by
  rw [mem_pairsOf]
  simp only [List.getElem?_zipIdx, Nat.zero_add, Option.map_eq_some_iff, Prod.mk.injEq]
  constructor
  · intro hex
    obtain ⟨_, _, hij, ⟨_, hi, rfl, rfl⟩, ⟨_, hj, rfl, rfl⟩⟩ := hex
    exact ⟨hij, hi, hj⟩
  · intro hex
    obtain ⟨hij, hi, hj⟩ := hex
    exact ⟨i, j, hij, ⟨x, hi, rfl, rfl⟩, ⟨y, hj, rfl, rfl⟩⟩

/-- Pairs of positions come by the first position and then by the second. -/
theorem pairsOf_zipIdx_pairwise (l : List α) :
    (pairsOf l.zipIdx).Pairwise fun p q => p.1.2 < q.1.2 ∨ p.1.2 = q.1.2 ∧ p.2.2 < q.2.2 := by
  have hzip : l.zipIdx.Pairwise fun p q => p.2 < q.2 := by
    have hrange : (List.range' 0 l.length).Pairwise (· < ·) := List.pairwise_lt_range' 1
    rw [← List.zipIdx_map_snd, List.pairwise_map] at hrange
    exact hrange
  exact (pairsOf_pairwise hzip).imp fun h => h.imp_right fun h => ⟨by rw [h.1], h.2⟩

theorem mem_crossPairs {xs : List α} {ys : List β} {x : α} {y : β} :
    (x, y) ∈ crossPairs xs ys ↔ x ∈ xs ∧ y ∈ ys := by
  simp [crossPairs, and_comm]

theorem length_crossPairs (xs : List α) (ys : List β) :
    (crossPairs xs ys).length = xs.length * ys.length := by
  simp [crossPairs]

theorem crossPairs_append (xs xs' : List α) (ys : List β) :
    crossPairs (xs ++ xs') ys = crossPairs xs ys ++ crossPairs xs' ys :=
  List.flatMap_append

theorem crossPairs_perm {xs xs' : List α} {ys ys' : List β} (hxs : xs.Perm xs')
    (hys : ys.Perm ys') : (crossPairs xs ys).Perm (crossPairs xs' ys') :=
  hxs.product hys

/-- In the other order of the lists the pairs are the same, but turned round. -/
theorem crossPairs_swap_perm (xs : List α) (ys : List β) :
    ((crossPairs xs ys).map Prod.swap).Perm (crossPairs ys xs) := by
  have hswap := Multiset.map_swap_product (xs : Multiset α) (ys : Multiset β)
  rw [Multiset.coe_product, Multiset.coe_product, Multiset.map_coe, Multiset.coe_eq_coe] at hswap
  exact hswap

/-- The pairs of two lists together are those of either list and those across. -/
theorem pairsOf_append_perm (xs ys : List α) :
    (pairsOf (xs ++ ys)).Perm (pairsOf xs ++ pairsOf ys ++ crossPairs xs ys) := by
  induction xs with
  | nil => simp [pairsOf, crossPairs]
  | cons x xs ih =>
    have hcross : crossPairs (x :: xs) ys = ys.map (fun y => (x, y)) ++ crossPairs xs ys :=
      List.flatMap_cons
    rw [← Multiset.coe_eq_coe] at ih ⊢
    simp only [List.cons_append, pairsOf, List.map_append, hcross, ← Multiset.coe_add] at ih ⊢
    rw [ih]
    abel

/-- The pair of what is found for either element, if both are. -/
def findBoth (f : α → Option β) (p : α × α) : Option (β × β) := do
  return (← f p.1, ← f p.2)

theorem filterMap_findBoth_map (f : α → Option β) (x : α) (ys : List α) :
    (ys.map fun y => (x, y)).filterMap (findBoth f) =
      (f x).toList.flatMap fun x' => (ys.filterMap f).map fun y' => (x', y') := by
  induction ys with
  | nil => cases f x <;> rfl
  | cons y ys ih => cases hx : f x <;> cases hy : f y <;> simp_all [findBoth]

theorem crossPairs_filterMap (f : α → Option β) (xs ys : List α) :
    crossPairs (xs.filterMap f) (ys.filterMap f) =
      (crossPairs xs ys).filterMap (findBoth f) := by
  induction xs with
  | nil => rfl
  | cons x xs ih =>
    have hcross : crossPairs (x :: xs) ys = ys.map (fun y => (x, y)) ++ crossPairs xs ys :=
      List.flatMap_cons
    rw [hcross, List.filterMap_append, filterMap_findBoth_map, ← ih]
    cases hx : f x <;> simp [crossPairs, hx]

theorem pairsOf_filterMap (f : α → Option β) (xs : List α) :
    pairsOf (xs.filterMap f) = (pairsOf xs).filterMap (findBoth f) := by
  induction xs with
  | nil => rfl
  | cons x xs ih =>
    rw [pairsOf, List.filterMap_append, filterMap_findBoth_map, ← ih]
    cases hx : f x <;> simp [pairsOf, hx]

end Linkage
