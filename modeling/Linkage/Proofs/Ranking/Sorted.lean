import Linkage.Proofs.Ranking
import Mathlib.Data.List.Sort
import Mathlib.Order.Defs.Unbundled

/-!
# Sorted lists

Sorting by a ranking, in which several elements may share a rank, puts every element where its rank
belongs and leaves elements of one rank in the order in which they stood. What is taken from the
front of a sorted list ranks before what is left.
-/

namespace Linkage

variable {α β : Type} {before : α → α → Bool}

theorem sortBy_eq_insertionSort (before : α → α → Bool) (l : List α) :
    sortBy before l = l.insertionSort fun x y => before x y := by
  have hinsert (x : α) (l : List α) :
      insertBy before x l = l.orderedInsert (fun x y => before x y) x := by
    induction l with
    | nil => rfl
    | cons y l ih => rw [insertBy, List.orderedInsert_cons, ih]
  induction l with
  | nil => rfl
  | cons x l ih =>
    rw [List.insertionSort_cons, ← ih]
    exact hinsert x _

/-- Elements can be sorted by what is known of them. -/
theorem sortBy_map (f : α → β) (before : β → β → Bool) (l : List α) :
    sortBy before (l.map f) = (sortBy (fun x y => before (f x) (f y)) l).map f := by
  rw [sortBy_eq_insertionSort, sortBy_eq_insertionSort]
  exact (List.map_insertionSort _ _ f l fun _ _ _ _ => Iff.rfl).symm

theorem length_take_sortBy (before : α → α → Bool) (l : List α) (n : Nat) :
    ((sortBy before l).take n).length = min n l.length := by
  rw [List.length_take, (sortBy_perm before l).length_eq]

/-- Elements of one rank keep their order. -/
theorem filter_sortBy {p : α → Bool} (hp : ∀ x y, p x → p y → before x y) (l : List α) :
    (sortBy before l).filter p = l.filter p := by
  have hrank : (l.filter p).Pairwise fun x y => before x y := by
    refine List.pairwise_of_forall_mem_list fun x hx y hy => ?_
    exact hp x y (List.of_mem_filter hx) (List.of_mem_filter hy)
  have hsub : (l.filter p).Sublist (sortBy before l) := by
    rw [sortBy_eq_insertionSort]
    exact List.sublist_insertionSort hrank List.filter_sublist
  have hsub' : (l.filter p).Sublist ((sortBy before l).filter p) := by
    simpa using hsub.filter p
  exact (hsub'.eq_of_length ((sortBy_perm before l).filter p).length_eq.symm).symm

/-- Any two elements can be ranked, also two of the same rank. -/
structure IsRanking (before : α → α → Bool) : Prop where
  total : ∀ x y, before x y ∨ before y x
  trans : ∀ x y z, before x y → before y z → before x z

namespace IsRanking

variable (h : IsRanking before)
include h

theorem sortBy_pairwise (l : List α) : (sortBy before l).Pairwise fun x y => before x y := by
  have : Std.Total fun x y => before x y = true := ⟨h.total⟩
  have : IsTrans α fun x y => before x y = true := ⟨h.trans⟩
  rw [sortBy_eq_insertionSort]
  exact List.pairwise_insertionSort _ l

/-- In a list that was in some order, elements of one rank are still in this order. -/
theorem sortBy_pairwise_of_pairwise {r : α → α → Prop} {l : List α} (hl : l.Pairwise r) :
    (sortBy before l).Pairwise fun x y => before x y ∧ (before y x → r x y) := by
  rw [List.pairwise_iff_forall_sublist] at hl ⊢
  intro x y hxy
  have hbefore := List.pairwise_iff_forall_sublist.mp (h.sortBy_pairwise l) hxy
  refine ⟨hbefore, fun hback => hl ?_⟩
  let tied (z : α) : Bool := before x z && before z x
  have hrefl : before x x := (h.total x x).elim id id
  have htied : tied x ∧ tied y := by simp [tied, hrefl, hbefore, hback]
  have hfilter : (sortBy before l).filter tied = l.filter tied := by
    refine filter_sortBy (fun a b ha hb => ?_) l
    simp only [tied, Bool.and_eq_true] at ha hb
    exact h.trans a x b ha.2 hb.1
  have hpair := hxy.filter tied
  rw [hfilter, List.filter_cons_of_pos htied.1, List.filter_cons_of_pos htied.2] at hpair
  exact hpair.trans List.filter_sublist

end IsRanking

/-- What is related in the order of a list is related across every cut of it. -/
theorem pairwise_take_drop {r : α → α → Prop} {l : List α} (hl : l.Pairwise r) (n : Nat) :
    ∀ x ∈ l.take n, ∀ y ∈ l.drop n, r x y := by
  rw [← List.take_append_drop n l, List.pairwise_append] at hl
  exact hl.2.2

end Linkage
