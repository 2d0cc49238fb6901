import Linkage.Proofs.Cluster.History

/-!
# The steps that build a group

Of the steps of a history those build a group whose classes are members of it. Any two members are
parted by exactly one of them: it is the step that brought them together. So the pairs of members
are, over all those steps, the pairs of a class on the one side and a class on the other.
-/

namespace Linkage

section sides

variable {R : Type} {s : MergeStep R} {g a b : List String}

/-- The step has joined only members of the group. -/
def MergeStep.builds (s : MergeStep R) (members : List String) : Bool :=
  (s.into ++ s.absorbed).all fun x => members.contains x

/-- The two classes are on different sides of the step. -/
def MergeStep.splits (s : MergeStep R) (x y : String) : Bool :=
  s.into.contains x && s.absorbed.contains y || s.into.contains y && s.absorbed.contains x

theorem builds_iff : s.builds g ↔ s.into ++ s.absorbed ⊆ g := by
  simp only [MergeStep.builds, List.all_eq_true, List.contains_iff_mem]
  rfl

theorem mem_sides_iff {x y : String} :
    s(x, y) ∈ (crossPairs s.into s.absorbed).map unordered ↔ s.splits x y := by
  rw [List.mem_map, MergeStep.splits]
  simp only [Bool.or_eq_true, Bool.and_eq_true, List.contains_iff_mem]
  constructor
  · rintro ⟨⟨p, q⟩, hmem, heq⟩
    obtain ⟨hp, hq⟩ := mem_crossPairs.mp hmem
    rcases Sym2.eq_iff.mp heq with ⟨rfl, rfl⟩ | ⟨rfl, rfl⟩
    · exact Or.inl ⟨hp, hq⟩
    · exact Or.inr ⟨hp, hq⟩
  · rintro (⟨hx, hy⟩ | ⟨hy, hx⟩)
    · exact ⟨(x, y), mem_crossPairs.mpr ⟨hx, hy⟩, rfl⟩
    · exact ⟨(y, x), mem_crossPairs.mpr ⟨hy, hx⟩, Sym2.eq_swap⟩

end sides

/-- The steps have built the groups from one class each. -/
structure Built {R : Type} (steps : List (MergeStep R)) (groups : List (List String)) : Prop where
  nodup : groups.flatten.Nodup
  ne_nil : ∀ g ∈ groups, g ≠ []
  within : ∀ s ∈ steps, s.into ≠ [] ∧ ∃ g ∈ groups, s.into ++ s.absorbed ⊆ g
  length_eq : ∀ g ∈ groups, (steps.filter fun s => s.builds g).length + 1 = g.length
  pairs_perm : ∀ g ∈ groups, (pairsOf g).Perm
    ((steps.filter fun s => s.builds g).flatMap fun s => crossPairs s.into s.absorbed)

namespace Built

variable {R : Type} {steps : List (MergeStep R)} {s : MergeStep R}
  {groups groups' others : List (List String)} {a b g : List String}

theorem singletons {names : List String} (h : names.Nodup) :
    Built ([] : List (MergeStep R)) (names.map fun name => [name]) := by
  have hflatten : (names.map fun name => [name]).flatten = names := by
    rw [← List.flatMap_def, List.flatMap_singleton']
  have hsingle : ∀ g ∈ names.map fun name => [name], ∃ name, g = [name] := by
    intro g hg
    obtain ⟨name, -, rfl⟩ := List.mem_map.mp hg
    exact ⟨name, rfl⟩
  refine ⟨by rwa [hflatten], fun g hg => ?_, nofun, fun g hg => ?_, fun g hg => ?_⟩
  · obtain ⟨name, rfl⟩ := hsingle g hg
    exact List.cons_ne_nil name []
  · obtain ⟨name, rfl⟩ := hsingle g hg
    rfl
  · obtain ⟨name, rfl⟩ := hsingle g hg
    exact List.Perm.refl _

theorem perm (h : Built steps groups) (hperm : groups.Perm groups') : Built steps groups' where
  nodup := hperm.flatten.nodup_iff.mp h.nodup
  ne_nil g hg := h.ne_nil g (hperm.mem_iff.mpr hg)
  within s hs := by
    obtain ⟨hne, g, hg, hsub⟩ := h.within s hs
    exact ⟨hne, g, hperm.mem_iff.mp hg, hsub⟩
  length_eq g hg := h.length_eq g (hperm.mem_iff.mpr hg)
  pairs_perm g hg := h.pairs_perm g (hperm.mem_iff.mpr hg)

/-- Which groups a step builds is seen from a single class. -/
theorem builds_iff_mem (h : Built steps groups) (hs : s ∈ steps) {x : String} (hx : x ∈ s.into)
    (hg : g ∈ groups) : s.builds g ↔ x ∈ g := by
  obtain ⟨-, g', hg', hsub⟩ := h.within s hs
  rw [builds_iff]
  constructor
  · intro hsub
    exact hsub (List.mem_append_left _ hx)
  · intro hmem
    -- The step lies within one group, and the class is in no other one.
    have hnodup : (groups.flatMap id).Nodup := by
      rw [List.flatMap_id]
      exact h.nodup
    rwa [eq_of_mem_of_nodup_flatMap hnodup hg hg' hmem (hsub (List.mem_append_left _ hx))]

theorem disjoint (h : Built steps (a :: groups)) (hg : g ∈ groups) : a.Disjoint g := by
  have hnodup := h.nodup
  rw [List.flatten_cons, List.nodup_append'] at hnodup
  exact fun x hx hx' => hnodup.2.2 hx (List.mem_flatten.mpr ⟨g, hg, hx'⟩)

/-- What builds one of two groups builds the two together, and nothing else does so far. -/
theorem builds_append_iff (h : Built steps (a :: b :: others)) (hs : s ∈ steps) :
    s.builds (a ++ b) ↔ s.builds a ∨ s.builds b := by
  constructor
  · intro hab
    obtain ⟨x, hx⟩ := List.exists_mem_of_ne_nil _ (h.within s hs).1
    rw [h.builds_iff_mem hs hx (List.mem_cons_self ..),
      h.builds_iff_mem hs hx (List.mem_cons_of_mem a (List.mem_cons_self ..))]
    exact List.mem_append.mp (builds_iff.mp hab (List.mem_append_left _ hx))
  · rintro (ha | hb)
    · exact builds_iff.mpr fun x hx => List.mem_append_left b (builds_iff.mp ha hx)
    · exact builds_iff.mpr fun x hx => List.mem_append_right a (builds_iff.mp hb hx)

theorem not_builds_both (h : Built steps (a :: b :: others)) (hs : s ∈ steps) (ha : s.builds a) :
    ¬ s.builds b := by
  intro hb
  obtain ⟨x, hx⟩ := List.exists_mem_of_ne_nil _ (h.within s hs).1
  have hdisjoint := h.disjoint (List.mem_cons_self ..)
  exact hdisjoint (builds_iff.mp ha (List.mem_append_left _ hx))
    (builds_iff.mp hb (List.mem_append_left _ hx))

theorem filter_builds_append (h : Built steps (a :: b :: others)) :
    (steps.filter fun s => s.builds (a ++ b)).Perm
      ((steps.filter fun s => s.builds a) ++ steps.filter fun s => s.builds b) := by
  refine (List.filter_append_perm (fun s => s.builds a) _).symm.trans ?_
  rw [List.filter_filter, List.filter_filter]
  refine List.Perm.of_eq (congrArg₂ _ ?_ ?_)
  · refine List.filter_congr fun s hs => ?_
    have hiff := h.builds_append_iff hs
    grind
  · refine List.filter_congr fun s hs => ?_
    have hiff := h.builds_append_iff hs
    have hnot := h.not_builds_both hs
    grind

theorem not_builds_others (h : Built steps (s.into :: s.absorbed :: others)) (hg : g ∈ others) :
    ¬ s.builds g := by
  intro hbuilds
  obtain ⟨x, hx⟩ := List.exists_mem_of_ne_nil _ (h.ne_nil s.into (List.mem_cons_self ..))
  have hdisjoint := h.disjoint (List.mem_cons_of_mem s.absorbed hg)
  exact hdisjoint hx (builds_iff.mp hbuilds (List.mem_append_left _ hx))

theorem filter_builds_join (h : Built steps (s.into :: s.absorbed :: others)) :
    ((steps ++ [s]).filter fun t => t.builds (s.into ++ s.absorbed)).Perm
      ((steps.filter fun t => t.builds s.into) ++ (steps.filter fun t => t.builds s.absorbed) ++
        [s]) := by
  have hself : s.builds (s.into ++ s.absorbed) := builds_iff.mpr (List.Subset.refl _)
  rw [List.filter_append, List.filter_singleton, hself, cond_true]
  exact h.filter_builds_append.append_right [s]

theorem filter_builds_others (h : Built steps (s.into :: s.absorbed :: others)) (hg : g ∈ others) :
    ((steps ++ [s]).filter fun t => t.builds g) = steps.filter fun t => t.builds g := by
  rw [List.filter_append, List.filter_singleton, Bool.eq_false_iff.mpr (h.not_builds_others hg),
    cond_false, List.append_nil]

theorem join (h : Built steps (s.into :: s.absorbed :: others)) :
    Built (steps ++ [s]) ((s.into ++ s.absorbed) :: others) where
  nodup := by
    have hnodup := h.nodup
    rwa [List.flatten_cons, List.flatten_cons, ← List.append_assoc] at hnodup
  ne_nil g hg := by
    rcases List.mem_cons.mp hg with rfl | hg
    · have hne := h.ne_nil s.into (List.mem_cons_self ..)
      exact fun hnil => hne (List.append_eq_nil_iff.mp hnil).1
    · exact h.ne_nil g (List.mem_cons_of_mem _ (List.mem_cons_of_mem _ hg))
  within t ht := by
    rcases List.mem_append.mp ht with ht | ht
    · obtain ⟨hne, g, hg, hsub⟩ := h.within t ht
      refine ⟨hne, ?_⟩
      rcases List.mem_cons.mp hg with rfl | hg
      · exact ⟨_, List.mem_cons_self .., fun y hy => List.mem_append_left _ (hsub hy)⟩
      rcases List.mem_cons.mp hg with rfl | hg
      · exact ⟨_, List.mem_cons_self .., fun y hy => List.mem_append_right _ (hsub hy)⟩
      · exact ⟨g, List.mem_cons_of_mem _ hg, hsub⟩
    · rw [List.mem_singleton.mp ht]
      exact ⟨h.ne_nil s.into (List.mem_cons_self ..), _, List.mem_cons_self .., List.Subset.refl _⟩
  length_eq g hg := by
    rcases List.mem_cons.mp hg with rfl | hg
    · have hinto := h.length_eq s.into (List.mem_cons_self ..)
      have habsorbed := h.length_eq s.absorbed (List.mem_cons_of_mem _ (List.mem_cons_self ..))
      rw [h.filter_builds_join.length_eq]
      simp only [List.length_append, List.length_singleton]
      omega
    · rw [h.filter_builds_others hg]
      exact h.length_eq g (List.mem_cons_of_mem _ (List.mem_cons_of_mem _ hg))
  pairs_perm g hg := by
    rcases List.mem_cons.mp hg with rfl | hg
    · have hinto := h.pairs_perm s.into (List.mem_cons_self ..)
      have habsorbed := h.pairs_perm s.absorbed (List.mem_cons_of_mem _ (List.mem_cons_self ..))
      refine (pairsOf_append_perm _ _).trans ?_
      refine List.Perm.trans ?_ (h.filter_builds_join.flatMap_right _).symm
      rw [List.flatMap_append, List.flatMap_append, List.flatMap_singleton]
      exact (hinto.append habsorbed).append_right _
    · rw [h.filter_builds_others hg]
      exact h.pairs_perm g (List.mem_cons_of_mem _ (List.mem_cons_of_mem _ hg))

end Built

theorem History.built {R : Type} [Scale R] {m : Matrix}
    {allowed : List (List String) → MergeStep R → Prop} {k : Nat}
    {groups last : List (List String)} {steps earlier : List (MergeStep R)}
    (h : History m allowed k groups steps last) (hbuilt : Built earlier groups) :
    Built (earlier ++ steps) last := by
  induction h generalizing earlier with
  | done k groups => rwa [List.append_nil]
  | step greedy _ _ _ ih =>
    obtain ⟨hlt, hi, hj⟩ := greedy.pair
    obtain ⟨others, hgroups, hjoin⟩ := set_eraseIdx_perm hlt hi hj _
    have hnext := ih ((hbuilt.perm hgroups).join.perm hjoin.symm)
    rwa [List.append_assoc] at hnext

theorem Built.countP_splits {R : Type} {steps : List (MergeStep R)} {groups : List (List String)}
    {g : List String} (h : Built steps groups) (hg : g ∈ groups) {x y : String} (hx : x ∈ g)
    (hy : y ∈ g) (hxy : x ≠ y) :
    (steps.filter fun s => s.builds g).countP (fun s => s.splits x y) = 1 := by
  have hperm := (h.pairs_perm g hg).map unordered
  rw [List.map_flatMap] at hperm
  have hnodup := nodup_unordered_pairsOf ((List.nodup_flatten.mp h.nodup).1 g hg)
  have hmem : s(x, y) ∈ (pairsOf g).map unordered := by
    rcases mem_pairsOf_or_swap hx hy hxy with hp | hp
    · exact List.mem_map.mpr ⟨(x, y), hp, rfl⟩
    · exact List.mem_map.mpr ⟨(y, x), hp, Sym2.eq_swap⟩
  have hone := countP_mem_of_nodup_flatMap (hperm.nodup_iff.mp hnodup) (hperm.mem_iff.mp hmem)
  rw [← hone]
  exact List.countP_congr fun s _ => by rw [decide_eq_true_iff, mem_sides_iff]

end Linkage
