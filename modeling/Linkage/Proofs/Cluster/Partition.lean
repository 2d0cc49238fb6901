import Linkage.Proofs.Cluster.Choice
import Mathlib.Data.List.Nodup
import Mathlib.Data.List.Perm.Basic

/-!
# Partitions

The groups of a clustering are always a partition of the indexes: every index is in one group, and
no group is empty. Joining the groups of a candidate makes one group of two and keeps the others.
-/

namespace Linkage

/-- Every index below `n` is in one of the groups, at one place, and no group is empty. -/
structure Partition (n : Nat) (groups : List Group) : Prop where
  perm : groups.flatten.Perm (List.range n)
  ne_nil : ∀ g ∈ groups, g ≠ []

variable {R : Type} [Scale R] {w : Weights R} {groups : List Group} {c : Candidate R} {n : Nat}

section parts

variable {α β : Type} {f : β → List α} {parts : List β} {x : α}

theorem eq_of_mem_of_nodup_flatMap (h : (parts.flatMap f).Nodup) {b b' : β} (hb : b ∈ parts)
    (hb' : b' ∈ parts) (hx : x ∈ f b) (hx' : x ∈ f b') : b = b' := by
  have : Std.Symm (Function.onFun List.Disjoint f) :=
    ⟨fun _ _ hdisjoint _ hy hy' => hdisjoint hy' hy⟩
  by_contra hne
  exact (List.nodup_flatMap.mp h).2.forall hb hb' hne hx hx'

/-- An element is in exactly one of the parts. -/
theorem countP_mem_of_nodup_flatMap [DecidableEq α] (h : (parts.flatMap f).Nodup)
    (hx : x ∈ parts.flatMap f) : (parts.countP fun b => x ∈ f b) = 1 := by
  induction parts with
  | nil => cases hx
  | cons b parts ih =>
    rw [List.flatMap_cons, List.nodup_append'] at h
    obtain ⟨-, hparts, hdisjoint⟩ := h
    rw [List.countP_cons]
    by_cases hb : x ∈ f b
    · have hrest : (parts.countP fun b => x ∈ f b) = 0 := by
        refine List.countP_eq_zero.mpr fun b' hb' hmem => ?_
        exact hdisjoint hb (List.mem_flatMap.mpr ⟨b', hb', of_decide_eq_true hmem⟩)
      rw [hrest, if_pos (decide_eq_true hb)]
    · rw [List.flatMap_cons, List.mem_append] at hx
      rw [ih hparts (hx.resolve_left hb), if_neg (fun hmem => hb (of_decide_eq_true hmem))]

end parts

namespace Candidate

theorem Of.split_join (h : c.Of w groups) : ∃ before between after,
    groups = before ++ c.into :: (between ++ c.absorbed :: after) ∧
      c.join groups = before ++ (c.into ++ c.absorbed) :: (between ++ after) := by
  rw [join, modify_eq_set_of_getElem? _ h.into_at]
  exact set_eraseIdx_split h.lt h.into_at h.absorbed_at _

/-- In any order, joining replaces the groups of the candidate by one group. -/
theorem Of.join_perm (h : c.Of w groups) : ∃ others,
    groups.Perm (c.into :: c.absorbed :: others) ∧
      (c.join groups).Perm ((c.into ++ c.absorbed) :: others) := by
  rw [join, modify_eq_set_of_getElem? _ h.into_at]
  exact set_eraseIdx_perm h.lt h.into_at h.absorbed_at _

theorem Of.length_join (h : c.Of w groups) : (c.join groups).length + 1 = groups.length := by
  obtain ⟨others, hgroups, hjoin⟩ := h.join_perm
  rw [hjoin.length_eq, hgroups.length_eq]
  rfl

theorem Of.mem_join (h : c.Of w groups) {g : Group} (hg : g ∈ c.join groups) :
    g = c.into ++ c.absorbed ∨ g ∈ groups := by
  obtain ⟨others, hgroups, hjoin⟩ := h.join_perm
  rcases List.mem_cons.mp (hjoin.mem_iff.mp hg) with hg | hg
  · exact Or.inl hg
  · exact Or.inr (hgroups.mem_iff.mpr (List.mem_cons_of_mem _ (List.mem_cons_of_mem _ hg)))

/-- No group is torn apart. -/
theorem Of.subset_join (h : c.Of w groups) {g : Group} (hg : g ∈ groups) :
    ∃ g' ∈ c.join groups, g ⊆ g' := by
  obtain ⟨others, hgroups, hjoin⟩ := h.join_perm
  have hjoined : c.into ++ c.absorbed ∈ c.join groups :=
    hjoin.mem_iff.mpr (List.mem_cons_self ..)
  rcases List.mem_cons.mp (hgroups.mem_iff.mp hg) with rfl | hg
  · exact ⟨_, hjoined, List.subset_append_left ..⟩
  rcases List.mem_cons.mp hg with rfl | hg
  · exact ⟨_, hjoined, List.subset_append_right ..⟩
  · exact ⟨g, hjoin.mem_iff.mpr (List.mem_cons_of_mem _ hg), List.Subset.refl g⟩

theorem Of.flatten_join (h : c.Of w groups) : (c.join groups).flatten.Perm groups.flatten := by
  obtain ⟨others, hgroups, hjoin⟩ := h.join_perm
  refine hjoin.flatten.trans ?_
  rw [List.flatten_cons, List.append_assoc]
  exact hgroups.symm.flatten

end Candidate

namespace Partition

variable {g g' : Group} {i : Nat}

theorem singletons (m : Matrix) : Partition m.classCount m.singletons where
  perm := by
    have hflatten : m.singletons.flatten = List.range m.classCount :=
      (List.flatMap_def ..).symm.trans (List.flatMap_singleton' _)
    rw [hflatten]
  ne_nil g hg := by
    obtain ⟨i, -, rfl⟩ := List.mem_map.mp hg
    exact List.cons_ne_nil i []

theorem two_mul_length_le (htwo : ∀ g ∈ groups, 2 ≤ g.length) :
    2 * groups.length ≤ groups.flatten.length := by
  induction groups with
  | nil => exact Nat.le_refl 0
  | cons g groups ih =>
    have hg := htwo g (List.mem_cons_self ..)
    have hrest := ih fun g' hg' => htwo g' (List.mem_cons_of_mem g hg')
    rw [List.flatten_cons, List.length_append, List.length_cons]
    omega

variable (h : Partition n groups)
include h

theorem lt (hg : g ∈ groups) (hi : i ∈ g) : i < n :=
  List.mem_range.mp (h.perm.mem_iff.mp (List.mem_flatten.mpr ⟨g, hg, hi⟩))

theorem exists_mem (hi : i < n) : ∃ g ∈ groups, i ∈ g :=
  List.mem_flatten.mp (h.perm.mem_iff.mpr (List.mem_range.mpr hi))

theorem length_pos (hn : 0 < n) : 0 < groups.length := by
  obtain ⟨g, hg, -⟩ := h.exists_mem hn
  exact List.length_pos_of_mem hg

theorem nodup_flatten : groups.flatten.Nodup := h.perm.nodup_iff.mpr List.nodup_range

theorem length_le (hg : g ∈ groups) : g.length ≤ n := by
  have hle := (List.sublist_flatten_of_mem hg).length_le
  rwa [h.perm.length_eq, List.length_range] at hle

/-- There are at most half as many groups of two indexes or more as indexes. -/
theorem length_le_half (htwo : ∀ g ∈ groups, 2 ≤ g.length) : groups.length ≤ n / 2 := by
  have hlength := h.perm.length_eq
  rw [List.length_range] at hlength
  have hle := two_mul_length_le htwo
  omega

theorem join (hc : c.Of w groups) : Partition n (c.join groups) where
  perm := hc.flatten_join.trans h.perm
  ne_nil g hg := by
    rcases hc.mem_join hg with rfl | hg
    · have hne := h.ne_nil _ (List.mem_of_getElem? hc.into_at)
      exact fun hnil => hne (List.append_eq_nil_iff.mp hnil).1
    · exact h.ne_nil g hg

end Partition

end Linkage
