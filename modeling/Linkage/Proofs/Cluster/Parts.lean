import Linkage.Proofs.Cluster.Cohesion
import Linkage.Proofs.Matrix.Part
import Mathlib.Data.List.NodupEquivFin

/-!
# Clustering unrelated parts

A merge above a threshold of zero or more joins coupled groups, so it never crosses the border
between two unrelated parts of a matrix. Seen from the one part, a merge in the other changes
nothing, and a merge in this part is the one that this part alone would make next: its groups are
all there, in the same order, and their couplings are the same up to a constant factor. So the steps
of the whole are those of the parts, mixed.
-/

namespace Linkage
open Scale

/-- Two steps join the same classes, and the coupling of the first is a share of that of the
second. -/
structure MergeStep.Shares (ratio : Rat) (s t : MergeStep Rat) : Prop where
  into_eq : s.into = t.into
  absorbed_eq : s.absorbed = t.absorbed
  coupling_eq : s.coupling = t.coupling * ratio

/-- The steps of a phase, in their order. -/
def Outcome.stepsIn {R : Type} (o : Outcome R) (phase : Phase) : List (MergeStep R) :=
  o.steps.filter fun s => s.phase == phase

namespace Matrix

variable {p m : Matrix} {ratio : Rat} {groups : List (List String)} {a b g : List String}
  {i j : Nat} {s : MergeStep Rat}

def within (p : Matrix) (g : List String) : Bool := g.all fun x => p.classes.contains x

theorem within_iff : p.within g ↔ g ⊆ p.classes := by
  simp only [within, List.all_eq_true, List.contains_iff_mem]
  rfl

/-- No class is in two of the groups, and each group lies on one side of the border of `p`. -/
structure Separated (p : Matrix) (groups : List (List String)) : Prop where
  nodup : groups.flatten.Nodup
  ne_nil : ∀ g ∈ groups, g ≠ []
  apart : ∀ g ∈ groups, g ⊆ p.classes ∨ g.Disjoint p.classes

theorem separated_singletons (p : Matrix) {names : List String} (h : names.Nodup) :
    p.Separated (names.map fun name => [name]) where
  nodup := by rwa [← List.flatMap_def, List.flatMap_singleton']
  ne_nil g hg := by
    obtain ⟨name, -, rfl⟩ := List.mem_map.mp hg
    exact List.cons_ne_nil name []
  apart g hg := by
    obtain ⟨name, -, rfl⟩ := List.mem_map.mp hg
    by_cases hmem : name ∈ p.classes
    · exact Or.inl (by simpa using hmem)
    · exact Or.inr (by simpa using hmem)

theorem filter_singletons (h : p.PartOf m ratio) :
    (m.classes.map fun name => [name]).filter p.within = p.classes.map fun name => [name] := by
  rw [List.filter_map]
  refine congrArg (List.map _) (Eq.trans ?_ h.classes_eq)
  exact List.filter_congr fun name _ => by simp [within]

theorem Separated.nodup_groups (h : p.Separated groups) : groups.Nodup := by
  refine (List.nodup_flatten.mp h.nodup).2.imp_of_mem fun {a b} ha _ hab heq => ?_
  obtain ⟨x, hx⟩ := List.exists_mem_of_ne_nil a (h.ne_nil a ha)
  exact hab hx (heq ▸ hx)

theorem not_within_of_disjoint (hne : g ≠ []) (hg : g.Disjoint p.classes) : ¬ p.within g := by
  intro hwithin
  obtain ⟨x, hx⟩ := List.exists_mem_of_ne_nil g hne
  exact hg hx (within_iff.mp hwithin hx)

/-- The step joins groups on the same side of the border of `p`. -/
def OneSided (p : Matrix) (s : MergeStep Rat) : Prop :=
  s.into ⊆ p.classes ∧ s.absorbed ⊆ p.classes ∨
    s.into.Disjoint p.classes ∧ s.absorbed.Disjoint p.classes

section step

variable (hsep : p.Separated groups) (hs : GreedyStep m groups i j s)
include hsep hs

theorem Separated.oneSided (h : p.PartOf m ratio) (hpos : 0 < s.coupling) : p.OneSided s := by
  rw [hs.coupling_eq] at hpos
  have hinto := hsep.apart _ (List.mem_of_getElem? hs.pair.first)
  have habsorbed := hsep.apart _ (List.mem_of_getElem? hs.pair.second)
  rcases hinto with hinto | hinto <;> rcases habsorbed with habsorbed | habsorbed
  · exact Or.inl ⟨hinto, habsorbed⟩
  · rw [h.averageCoupling_eq_zero (Or.inl ⟨hinto, habsorbed⟩)] at hpos
    exact absurd hpos (lt_irrefl 0)
  · rw [h.averageCoupling_eq_zero (Or.inr ⟨hinto, habsorbed⟩)] at hpos
    exact absurd hpos (lt_irrefl 0)
  · exact Or.inr ⟨hinto, habsorbed⟩

theorem Separated.join (hsides : p.OneSided s) :
    p.Separated ((groups.set i (s.into ++ s.absorbed)).eraseIdx j) := by
  obtain ⟨others, hgroups, hjoin⟩ := set_eraseIdx_perm hs.pair.lt hs.pair.first hs.pair.second
    (s.into ++ s.absorbed)
  have hold (g : List String) (hg : g ∈ others) : g ∈ groups :=
    hgroups.mem_iff.mpr (List.mem_cons_of_mem _ (List.mem_cons_of_mem _ hg))
  refine ⟨?_, fun g hg => ?_, fun g hg => ?_⟩
  · rw [hjoin.flatten.nodup_iff, List.flatten_cons, List.append_assoc]
    exact hgroups.flatten.nodup_iff.mp hsep.nodup
  · rcases List.mem_cons.mp (hjoin.mem_iff.mp hg) with rfl | hg
    · have hne := hsep.ne_nil _ (List.mem_of_getElem? hs.pair.first)
      exact fun hnil => hne (List.append_eq_nil_iff.mp hnil).1
    · exact hsep.ne_nil g (hold g hg)
  · rcases List.mem_cons.mp (hjoin.mem_iff.mp hg) with rfl | hg
    · rcases hsides with ⟨hinto, habsorbed⟩ | ⟨hinto, habsorbed⟩
      · exact Or.inl (List.append_subset.mpr ⟨hinto, habsorbed⟩)
      · exact Or.inr (List.disjoint_append_left.mpr ⟨hinto, habsorbed⟩)
    · exact hsep.apart g (hold g hg)

theorem filter_join_of_disjoint (hinto : s.into.Disjoint p.classes)
    (habsorbed : s.absorbed.Disjoint p.classes) :
    ((groups.set i (s.into ++ s.absorbed)).eraseIdx j).filter p.within =
      groups.filter p.within := by
  have hne := hsep.ne_nil _ (List.mem_of_getElem? hs.pair.first)
  have hne' := hsep.ne_nil _ (List.mem_of_getElem? hs.pair.second)
  rw [set_eraseIdx_eq_filterMap hsep.nodup_groups hs.pair.lt hs.pair.first hs.pair.second]
  refine filter_filterMap_merged_of_not (not_within_of_disjoint hne hinto)
    (not_within_of_disjoint hne' habsorbed) (not_within_of_disjoint ?_ ?_) groups
  · exact fun hnil => hne (List.append_eq_nil_iff.mp hnil).1
  · exact List.disjoint_append_left.mpr ⟨hinto, habsorbed⟩

end step

section places

variable {f : Nat ↪o Nat} (hf : ∀ k, (groups.filter p.within)[k]? = groups[f k]?) {k l : Nat}
include hf

theorem pairAt_of_filter (hpair : PairAt (groups.filter p.within) k l a b) :
    PairAt groups (f k) (f l) a b ∧ a ⊆ p.classes ∧ b ⊆ p.classes := by
  refine ⟨⟨f.lt_iff_lt.mpr hpair.lt, hf k ▸ hpair.first, hf l ▸ hpair.second⟩, ?_, ?_⟩
  · exact within_iff.mp (List.mem_filter.mp (List.mem_of_getElem? hpair.first)).2
  · exact within_iff.mp (List.mem_filter.mp (List.mem_of_getElem? hpair.second)).2

theorem pairAt_filter (hsep : p.Separated groups) (hpair : PairAt groups i j a b)
    (ha : a ⊆ p.classes) (hb : b ⊆ p.classes) :
    ∃ i' j', PairAt (groups.filter p.within) i' j' a b ∧ f i' = i ∧ f j' = j := by
  have hplace {n : Nat} {g : List String} (hn : groups[n]? = some g) (hg : g ⊆ p.classes) :
      ∃ n', (groups.filter p.within)[n']? = some g ∧ f n' = n := by
    obtain ⟨n', hn'⟩ := List.mem_iff_getElem?.mp
      (List.mem_filter.mpr ⟨List.mem_of_getElem? hn, within_iff.mpr hg⟩)
    refine ⟨n', hn', ?_⟩
    -- No group is there twice, so there is only one place where it can be.
    rw [hf] at hn'
    exact (List.getElem?_inj (List.getElem?_eq_some_iff.mp hn').1 hsep.nodup_groups).mp
      (hn'.trans hn.symm)
  obtain ⟨i', hi', rfl⟩ := hplace hpair.first ha
  obtain ⟨j', hj', rfl⟩ := hplace hpair.second hb
  exact ⟨i', j', ⟨f.lt_iff_lt.mp hpair.lt, hi', hj'⟩, rfl, rfl⟩

end places

theorem exists_places (p : Matrix) (groups : List (List String)) :
    ∃ f : Nat ↪o Nat, ∀ k, (groups.filter p.within)[k]? = groups[f k]? :=
  List.sublist_iff_exists_orderEmbedding_getElem?_eq.mp List.filter_sublist

/-- A step within the part is a step of the part alone. -/
theorem greedyStep_filter (hsep : p.Separated groups) (h : p.PartOf m ratio)
    (hs : GreedyStep m groups i j s) (hinto : s.into ⊆ p.classes)
    (habsorbed : s.absorbed ⊆ p.classes) :
    ∃ i' j', GreedyStep p (groups.filter p.within) i' j' { s with coupling := s.coupling / ratio } ∧
      ((groups.filter p.within).set i' (s.into ++ s.absorbed)).eraseIdx j' =
        ((groups.set i (s.into ++ s.absorbed)).eraseIdx j).filter p.within := by
  obtain ⟨f, hf⟩ := exists_places p groups
  obtain ⟨i', j', hpair, rfl, rfl⟩ := pairAt_filter hf hsep hs.pair hinto habsorbed
  have hnodup := hsep.nodup_groups
  refine ⟨i', j', ⟨hpair, ?_, fun k l a b hother => ?_, fun k l a b hother hbefore => ?_⟩, ?_⟩
  · rw [h.averageCoupling_div hinto habsorbed, ← hs.coupling_eq]
  · obtain ⟨hwhole, ha, hb⟩ := pairAt_of_filter hf hother
    have hle := of_decide_eq_true (hs.greatest _ _ a b hwhole)
    rw [h.averageCoupling_div ha hb]
    exact decide_eq_true (div_le_div_of_nonneg_right hle h.ratio_pos.le)
  · obtain ⟨hwhole, ha, hb⟩ := pairAt_of_filter hf hother
    -- The places keep the order, so what comes before in the part does so in the whole.
    have hbefore := hbefore.imp f.lt_iff_lt.mpr (And.imp (congrArg f) f.lt_iff_lt.mpr)
    have hlt := of_decide_eq_true (hs.before _ _ a b hwhole hbefore)
    rw [h.averageCoupling_div ha hb]
    exact decide_eq_true (div_lt_div_of_pos_right hlt h.ratio_pos)
  · rw [set_eraseIdx_eq_filterMap (hnodup.filter _) hpair.lt hpair.first hpair.second,
      set_eraseIdx_eq_filterMap hnodup hs.pair.lt hs.pair.first hs.pair.second,
      filter_filterMap_merged (within_iff.mpr hinto) (within_iff.mpr habsorbed)
        (within_iff.mpr (List.append_subset.mpr ⟨hinto, habsorbed⟩))]

/-! ### All steps above a threshold -/

section threshold

variable {threshold : Rat} {k k' : Nat} {last last' : List (List String)}
  {steps steps' : List (MergeStep Rat)}

/-- No two of the groups are coupled more strongly than the threshold. -/
def Settled (m : Matrix) (threshold : Rat) (groups : List (List String)) : Prop :=
  ∀ i j a b, PairAt groups i j a b → atMost (m.averageCoupling a b) threshold

theorem Settled.filter (hsettled : m.Settled threshold groups) (h : p.PartOf m ratio) :
    p.Settled (threshold / ratio) (groups.filter p.within) := by
  obtain ⟨f, hf⟩ := exists_places p groups
  intro i j a b hpair
  obtain ⟨hwhole, ha, hb⟩ := pairAt_of_filter hf hpair
  have hle := of_decide_eq_true (hsettled _ _ a b hwhole)
  rw [h.averageCoupling_div ha hb]
  exact decide_eq_true (div_le_div_of_nonneg_right hle h.ratio_pos.le)

variable (h : p.PartOf m ratio) (hthreshold : 0 ≤ threshold)
  (hwhole : History m (fun _ s => ¬ atMost s.coupling threshold) k groups steps last)
  (hsep : p.Separated groups)
include h hthreshold hwhole hsep

theorem oneSided_of_history (hs : s ∈ steps) : p.OneSided s := by
  induction hwhole with
  | done => cases hs
  | step greedy _ guard _ ih =>
    have hexceeds := hthreshold.trans_lt (Fraction.lt_of_not_atMost guard)
    have hsides := hsep.oneSided greedy h hexceeds
    rcases List.mem_cons.mp hs with rfl | hs
    · exact hsides
    · exact ih (hsep.join greedy hsides) hs

/-- Of a history of the whole, the steps within the part are the history of the part. -/
theorem forall₂_shares (hlast : m.Settled threshold last)
    (hpart : History p (fun _ s => ¬ atMost s.coupling (threshold / ratio)) k'
      (groups.filter p.within) steps' last')
    (hlast' : p.Settled (threshold / ratio) last') :
    List.Forall₂ (MergeStep.Shares ratio) (steps.filter fun s => s.builds p.classes) steps' := by
  -- Both histories are followed at once; that of the part waits while the whole steps elsewhere.
  induction hwhole generalizing k' steps' with
  | done k groups =>
    cases hpart with
    | done => exact List.Forall₂.nil
    | step greedy _ guard _ =>
      rw [greedy.coupling_eq] at guard
      exact absurd (hlast.filter h _ _ _ _ greedy.pair) guard
  | @step _ _ _ _ _ s _ greedy _ guard _ ih =>
    have hexceeds := Fraction.lt_of_not_atMost guard
    have hsides := hsep.oneSided greedy h (hthreshold.trans_lt hexceeds)
    have hjoin := hsep.join greedy hsides
    rcases hsides with ⟨hinto, habsorbed⟩ | ⟨hinto, habsorbed⟩
    · obtain ⟨i', j', hgreedy, hgroups⟩ := greedyStep_filter hsep h greedy hinto habsorbed
      have hbuilds : s.builds p.classes :=
        builds_iff.mpr (List.append_subset.mpr ⟨hinto, habsorbed⟩)
      rw [List.filter_cons, if_pos hbuilds]
      cases hpart with
      | done =>
        -- The part alone would not have stopped here.
        have hle := hlast' _ _ _ _ hgreedy.pair
        rw [← hgreedy.coupling_eq] at hle
        exact absurd (of_decide_eq_true hle)
          (not_le.mpr (div_lt_div_of_pos_right hexceeds h.ratio_pos))
      | step hgreedy' _ _ hpart =>
        obtain ⟨rfl, rfl, hinto, habsorbed, hcoupling⟩ := hgreedy.unique hgreedy'
        rw [← hinto, ← habsorbed, hgroups] at hpart
        refine List.Forall₂.cons ⟨hinto, habsorbed, ?_⟩ (ih hjoin hlast hpart)
        rw [← hcoupling, div_mul_cancel₀ _ h.ratio_pos.ne']
    · have hbuilds : ¬ s.builds p.classes := by
        obtain ⟨x, hx⟩ := List.exists_mem_of_ne_nil _
          (hsep.ne_nil _ (List.mem_of_getElem? greedy.pair.first))
        exact fun hbuilds => hinto hx (builds_iff.mp hbuilds (List.mem_append_left _ hx))
      rw [← filter_join_of_disjoint hsep greedy hinto habsorbed] at hpart
      rw [List.filter_cons, if_neg hbuilds]
      exact ih hjoin hlast hpart

end threshold

theorem stepsIn_threshold {R : Type} [Scale R] (h : m.WellFormed) (threshold : R)
    (centralCount : Nat) : (m.cluster threshold centralCount).stepsIn .threshold =
      m.stepsOf .threshold 0 (m.thresholdPhase threshold).made := by
  rw [Outcome.stepsIn, cluster_steps threshold h, List.filter_append,
    List.filter_eq_self.mpr fun s hs => beq_iff_eq.mpr (phase_of_mem_stepsOf hs),
    List.filter_eq_nil_iff.mpr fun s hs => ?_, List.append_nil]
  rw [phase_of_mem_stepsOf hs]
  exact nofun

section clustering

variable (h : p.PartOf m ratio) {threshold : Rat} (hthreshold : 0 ≤ threshold)
  (centralCount : Nat)
include h hthreshold

theorem PartOf.oneSided (hs : s ∈ (m.cluster threshold centralCount).stepsIn .threshold) :
    p.OneSided s := by
  rw [stepsIn_threshold h.whole] at hs
  exact oneSided_of_history h hthreshold
    (threshold_history h.whole m.meansPositive_rat threshold)
    (separated_singletons p h.whole.nodup) hs

theorem PartOf.forall₂_shares : List.Forall₂ (MergeStep.Shares ratio)
    (((m.cluster threshold centralCount).stepsIn .threshold).filter fun s => s.builds p.classes)
    ((p.cluster (threshold / ratio) centralCount).stepsIn .threshold) := by
  rw [stepsIn_threshold h.whole, stepsIn_threshold h.part]
  have hpart := threshold_history h.part p.meansPositive_rat (threshold / ratio)
  rw [← filter_singletons h] at hpart
  exact Matrix.forall₂_shares h hthreshold
    (threshold_history h.whole m.meansPositive_rat threshold)
    (separated_singletons p h.whole.nodup)
    (fun _ _ _ _ => atMost_of_thresholdPhase h.whole m.meansPositive_rat threshold) hpart
    (fun _ _ _ _ => atMost_of_thresholdPhase h.part p.meansPositive_rat (threshold / ratio))

end clustering

/-- Unrelated classes do not influence each other's merges above a threshold. Where two kinds of
events have no class in common, and whatever their order is among all events, each of these merges
is within the classes of the one kind or of the other. Those within the classes of one kind are, in
order, the merges that its events alone would lead to, at couplings and a threshold that do not
count the other events. -/
theorem threshold_steps_of_unrelated {left right events : List Event}
    (hdisjoint : (ofEvents left).classes.Disjoint (ofEvents right).classes)
    (hleft : 0 < (ofEvents left).total) (hright : 0 < (ofEvents right).total)
    (hperm : events.Perm (left ++ right)) {threshold : Rat} (hthreshold : 0 ≤ threshold)
    (centralCount : Nat) :
    let n₁ : Rat := (ofEvents left).total
    let n₂ : Rat := (ofEvents right).total
    let steps := ((ofEvents events).cluster threshold centralCount).stepsIn .threshold
    (∀ s ∈ steps, s.builds (ofEvents left).classes ∨ s.builds (ofEvents right).classes) ∧
    List.Forall₂ (MergeStep.Shares (n₁ / (n₁ + n₂)))
      (steps.filter fun s => s.builds (ofEvents left).classes)
      (((ofEvents left).cluster (threshold * (n₁ + n₂) / n₁) centralCount).stepsIn .threshold) ∧
    List.Forall₂ (MergeStep.Shares (n₂ / (n₁ + n₂)))
      (steps.filter fun s => s.builds (ofEvents right).classes)
      (((ofEvents right).cluster (threshold * (n₁ + n₂) / n₂) centralCount).stepsIn
        .threshold) := by
  intro n₁ n₂ steps
  have hpart := ofEvents_partOf hdisjoint hperm hleft
  have hpart' := ofEvents_partOf hdisjoint.symm (hperm.trans List.perm_append_comm) hright
  refine ⟨fun s hs => ?_, ?_, ?_⟩
  · obtain ⟨hinto, habsorbed⟩ := sides_subset threshold centralCount hpart.whole
      (List.mem_of_mem_filter hs)
    have hright {g : List String} (hg : g ⊆ (ofEvents events).classes)
        (hg' : g.Disjoint (ofEvents left).classes) : g ⊆ (ofEvents right).classes :=
      fun x hx => ((mem_classes_union hperm x).mp (hg hx)).resolve_left (hg' hx)
    rw [builds_iff, builds_iff, List.append_subset, List.append_subset]
    exact (hpart.oneSided hthreshold centralCount hs).imp_right
      (And.imp (hright hinto) (hright habsorbed))
  · rw [← div_div_eq_mul_div]
    exact hpart.forall₂_shares hthreshold centralCount
  · rw [← div_div_eq_mul_div, add_comm n₁ n₂]
    exact hpart'.forall₂_shares hthreshold centralCount

theorem threshold_steps_of_unrelated_mixed :
    let left : List Event := [⟨"A", "C"⟩, ⟨"E", "C"⟩, ⟨"A", "C"⟩]
    let right : List Event := [⟨"B", "D"⟩, ⟨"D", "B"⟩, ⟨"D", "F"⟩, ⟨"B", "D"⟩]
    let events : List Event := [⟨"B", "D"⟩, ⟨"A", "C"⟩, ⟨"E", "C"⟩, ⟨"D", "B"⟩, ⟨"D", "F"⟩,
      ⟨"A", "C"⟩, ⟨"B", "D"⟩]
    let steps := ((ofEvents events).cluster (1 / 14 : Rat) 5).stepsIn .threshold
    events.Perm (left ++ right) ∧
    steps.map (fun s => (s.into, s.absorbed)) =
      [(["B"], ["D"]), (["A"], ["C"]), (["A", "C"], ["E"]), (["B", "D"], ["F"])] ∧
    List.Forall₂ (MergeStep.Shares (3 / (3 + 4)))
      (steps.filter fun s => s.builds (ofEvents left).classes)
      (((ofEvents left).cluster ((1 / 14 : Rat) * (3 + 4) / 3) 5).stepsIn .threshold) := by
  intro left right events steps
  have hdisjoint : ∀ x ∈ (ofEvents left).classes, x ∉ (ofEvents right).classes := by
    decide +kernel
  have hperm : events.Perm (left ++ right) := by decide +kernel
  have hshares := (threshold_steps_of_unrelated hdisjoint (by decide +kernel) (by decide +kernel)
    hperm (show (0 : Rat) ≤ 1 / 14 by decide +kernel) 5).2.1
  have htotal : (ofEvents left).total = 3 := by decide +kernel
  have htotal' : (ofEvents right).total = 4 := by decide +kernel
  rw [htotal, htotal'] at hshares
  exact ⟨hperm, by decide +kernel, hshares⟩

end Matrix

end Linkage
