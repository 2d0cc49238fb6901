import Linkage.Proofs.Cluster.Connected
import Linkage.Proofs.Cluster.Weighted
import Linkage.Proofs.Matrix.Events

/-!
# Clusters at the ends of the range of thresholds

At a threshold of zero the merges stop only where no two groups are coupled, so the groups are then
the connected components of the graph of recorded pairs; as each class has a recorded pair, there
are few enough of them and nothing is forced. Below zero every coupling exceeds the threshold, and
one cluster is left. From one on none does, and all merges are forced.
-/

namespace Linkage
open Scale

/-- The clusters as sets. -/
def Outcome.parts {R : Type} (o : Outcome R) : Set (Set String) :=
  {s | ∃ c ∈ o.clusters, s = {x | x ∈ c.members}}

namespace Matrix

/-- The connected components of the graph of recorded pairs that hold a class. -/
def components (m : Matrix) : Set (Set String) :=
  {s | ∃ x ∈ m.classes, s = (m.graph.connectedComponentMk x).supp}

variable {m : Matrix} {groups : List Group}

section uncoupled

variable (h : m.WellFormed) (hp : Partition m.classCount groups)
  (huncoupled : groups.Pairwise fun a b => ¬ m.Coupled a b)
include h hp huncoupled

theorem mem_of_adj {g : Group} (hg : g ∈ groups) {x y : String} (hx : x ∈ m.namesOf g)
    (hadj : m.graph.Adj x y) : y ∈ m.namesOf g := by
  obtain ⟨i, j, hi, hj, hpair⟩ := (pairCount_pos_iff h).mp hadj
  obtain ⟨i', hi', hx'⟩ := mem_namesOf.mp hx
  obtain rfl := class?_inj h hi hx'
  obtain ⟨g', hg', hj'⟩ := hp.exists_mem (hpair.lt h).2
  have hsymm : Std.Symm fun a b => ¬ m.Coupled a b :=
    ⟨fun a b hab ⟨j, hj, i, hi, hji⟩ => hab ⟨i, hi, j, hj, hji.symm⟩⟩
  have heq : g = g' := by
    by_contra hne
    exact huncoupled.forall hg hg' hne ⟨i, hi', j, hj', hpair⟩
  exact mem_namesOf.mpr ⟨j, heq ▸ hj', hj⟩

theorem mem_of_reachable {g : Group} (hg : g ∈ groups) {x y : String} (hx : x ∈ m.namesOf g)
    (hreach : m.graph.Reachable x y) : y ∈ m.namesOf g := by
  obtain ⟨walk⟩ := hreach
  induction walk with
  | nil => exact hx
  | cons hadj _ ih => exact ih (mem_of_adj h hp huncoupled hg hx hadj)

/-- Connected groups that are not coupled to one another are the components of their members. -/
theorem component_eq {g : Group} (hg : g ∈ groups) (hconnected : m.IsConnected (m.namesOf g))
    {x : String} (hx : x ∈ m.namesOf g) :
    {y | y ∈ m.namesOf g} = (m.graph.connectedComponentMk x).supp := by
  ext y
  rw [SimpleGraph.ConnectedComponent.mem_supp_iff, SimpleGraph.ConnectedComponent.eq]
  exact ⟨fun hy => hconnected.reachable hy hx,
    fun hreach => mem_of_reachable h hp huncoupled hg hx hreach.symm⟩

end uncoupled

section phases

variable {R : Type} [Scale R] {threshold : R} (hclasses : 2 ≤ m.classCount)
include hclasses

/-- If the first phase leaves few enough groups, the second one changes nothing. -/
theorem cardinalityPhase_idle
    (hfew : (m.thresholdPhase threshold).groups.length ≤ m.classCount / 2) :
    (m.cardinalityPhase threshold).made = [] ∧
      (m.cardinalityPhase threshold).groups = (m.thresholdPhase threshold).groups := by
  have hrun := m.cardinalityPhase_run threshold
  have hlength := m.length_cardinalityPhase threshold hclasses
  have hadd := hrun.length_add
  have hmade : (m.cardinalityPhase threshold).made = [] :=
    List.length_eq_zero_iff.mp (by omega)
  rw [hmade] at hrun
  exact ⟨hmade, hrun.eq_of_no_merges⟩

variable [LawfulScale R] (h : m.WellFormed) (hmeans : m.MeansPositive R)
include h hmeans

omit hclasses in
theorem uncoupled_thresholdPhase (hle : atMost threshold zero) :
    (m.thresholdPhase threshold).groups.Pairwise fun a b => ¬ m.Coupled a b := by
  have hp := m.thresholdPhase_partition threshold
  have hends := thresholdPhase_pairwise h hmeans threshold
  refine hends.imp_of_mem fun {a b} ha hb hab hcoupled => ?_
  have hpos := average_pos (R := R) h hmeans (hp.length_le ha) (hp.length_le hb) hcoupled
  exact not_atMost_of_less hpos (LawfulScale.atMost_trans hab hle)

theorem length_thresholdPhase_le_half (hle : atMost threshold zero) :
    (m.thresholdPhase threshold).groups.length ≤ m.classCount / 2 := by
  by_contra hmore
  -- With more groups than that the choice would be coupled, though the phase has ended.
  have htwo : 2 ≤ (m.thresholdPhase threshold).groups.length := by omega
  obtain ⟨c, hc⟩ := exists_mostCoupled? (w := (m.weightAt : Weights R)) htwo
  have hcoupled := coupled_of_outnumbers h hmeans (m.thresholdPhase_partition threshold) hc
    (Nat.lt_of_not_le hmore)
  obtain ⟨hlt, hinto, habsorbed, -⟩ := mostCoupled?_of hc
  obtain ⟨hi, hinto⟩ := List.getElem?_eq_some_iff.mp hinto
  obtain ⟨hj, habsorbed⟩ := List.getElem?_eq_some_iff.mp habsorbed
  rw [← hinto, ← habsorbed] at hcoupled
  exact List.pairwise_iff_getElem.mp (uncoupled_thresholdPhase h hmeans hle) _ _ hi hj hlt hcoupled

theorem parts_eq_components (hge : atMost zero threshold) (hle : atMost threshold zero)
    (centralCount : Nat) : (m.cluster threshold centralCount).parts = m.components := by
  obtain ⟨-, hgroups⟩ :=
    cardinalityPhase_idle hclasses (length_thresholdPhase_le_half hclasses h hmeans hle)
  have hp := connected_clusters h hmeans hge
  have huncoupled := uncoupled_thresholdPhase h hmeans hle
  rw [← hgroups] at huncoupled
  have hperm := flatMap_members_perm threshold centralCount h
  have hcomponent : ∀ c ∈ (m.cluster threshold centralCount).clusters, ∀ x ∈ c.members,
      {y | y ∈ c.members} = (m.graph.connectedComponentMk x).supp := by
    intro c hc x hx
    obtain ⟨members, hmem, id, rfl⟩ := mem_cluster_clusters threshold centralCount h hc
    exact component_eq h hp.partition huncoupled hmem (hp.connected members hmem) hx
  refine Set.ext fun s => ⟨?_, ?_⟩
  · rintro ⟨c, hc, rfl⟩
    obtain ⟨x, hx⟩ :=
      List.exists_mem_of_ne_nil _ (cluster_nonempty threshold centralCount h hc).1
    exact ⟨x, hperm.mem_iff.mp (List.mem_flatMap.mpr ⟨c, hc, hx⟩), hcomponent c hc x hx⟩
  · rintro ⟨x, hx, rfl⟩
    obtain ⟨c, hc, hmem⟩ := List.mem_flatMap.mp (hperm.mem_iff.mpr hx)
    exact ⟨c, hc, (hcomponent c hc x hmem).symm⟩

omit hclasses in
theorem atMost_zero_average {a b : Group} (ha : a.length ≤ m.classCount)
    (hb : b.length ≤ m.classCount) : atMost zero (average (m.weightAt : Weights R) a b) := by
  by_cases hab : m.Coupled a b
  · exact atMost_of_less (average_pos h hmeans ha hb hab)
  · rw [average_of_not_coupled h hab]
    exact LawfulScale.isNumber_zero

theorem length_thresholdPhase_of_not_atMost (hnot : ¬ atMost zero threshold) :
    (m.thresholdPhase threshold).groups.length = 1 := by
  have hp := m.thresholdPhase_partition threshold
  refine Nat.le_antisymm ?_ (hp.length_pos (by omega))
  by_contra hmore
  have htwo : 2 ≤ (m.thresholdPhase threshold).groups.length := Nat.lt_of_not_le hmore
  obtain ⟨c, hc⟩ := exists_mostCoupled? (w := (m.weightAt : Weights R)) htwo
  have hof := mostCoupled?_of hc
  have hended := m.thresholdPhase_ended threshold c hc
  rw [exceeds, Bool.not_eq_false', hof.coupling_eq] at hended
  refine hnot (LawfulScale.atMost_trans (atMost_zero_average h hmeans ?_ ?_) hended)
  · exact hp.length_le (List.mem_of_getElem? hof.into_at)
  · exact hp.length_le (List.mem_of_getElem? hof.absorbed_at)

theorem one_cluster_of_not_atMost (hnot : ¬ atMost zero threshold) (centralCount : Nat) :
    (m.cluster threshold centralCount).clusters.length = 1 ∧
      (m.cluster threshold centralCount).mergesIn .threshold = m.classCount - 1 ∧
      (m.cluster threshold centralCount).steps.length = m.classCount - 1 := by
  have hone := length_thresholdPhase_of_not_atMost hclasses h hmeans hnot
  have hadd := m.length_thresholdPhase threshold
  have hfew : (m.thresholdPhase threshold).groups.length ≤ m.classCount / 2 := by omega
  obtain ⟨hmade, hgroups⟩ := cardinalityPhase_idle hclasses hfew
  rw [length_clusters threshold centralCount h, mergesIn_threshold threshold h,
    length_steps threshold centralCount h, hgroups, hmade, List.length_nil]
  omega

end phases

theorem thresholdPhase_of_one_le (h : m.WellFormed)
    (hcounts : ∀ e ∈ m.pairCounts, e.2 ≤ m.total) {threshold : Rat} (hone : 1 ≤ threshold) :
    (m.thresholdPhase threshold).made = [] := by
  refine List.eq_nil_iff_forall_not_mem.mpr fun c hmem => ?_
  obtain ⟨gs, -, hc, hgo⟩ := ((m.thresholdPhase_run threshold).invariant (P := fun _ => True)
    (fun _ _ _ _ _ => trivial) trivial).2 c hmem
  have hle := average_le_one h hcounts c.into c.absorbed
  rw [← (mostCoupled?_of hc).coupling_eq] at hle
  rw [exceeds, Bool.not_eq_true', Bool.eq_false_iff] at hgo
  exact hgo (decide_eq_true (hle.trans hone))

/-- At a threshold of zero the clusters are the connected components of the recorded pairs, and no
merge is forced. At one that is negative or no number a single cluster is left, all of whose merges
are of the first phase. In fractions, from one on all merges are forced, down to half as many
clusters as classes. The invocations fit a counter of 64 bits. -/
theorem clusters_at_extremes (events : List Event) (hclasses : 2 ≤ (ofEvents events).classCount)
    (htotal : (ofEvents events).total < 2 ^ 64) (centralCount : Nat) :
    let m := ofEvents events
    (∀ threshold : Float, 0.0 ≤ threshold → threshold ≤ 0.0 →
      let o := m.cluster threshold centralCount
      o.parts = m.components ∧ o.mergesIn .cardinality = 0) ∧
    (∀ threshold : Float, threshold < 0.0 ∨ threshold.isNaN = true →
      let o := m.cluster threshold centralCount
      (∃ c, o.clusters = [c] ∧ c.members.Perm m.classes) ∧
        o.mergesIn .threshold = m.classCount - 1 ∧ o.steps.length = m.classCount - 1) ∧
    ∀ threshold : Rat, 1 ≤ threshold →
      let o := m.cluster threshold centralCount
      o.mergesIn .threshold = 0 ∧ o.clusters.length = m.classCount / 2 := by
  intro m
  have h : m.WellFormed := ofEvents_wellFormed events
  have hmeans : m.MeansPositive Float := meansPositive_of_total_lt h htotal
  refine ⟨fun threshold hge hle => ⟨?_, ?_⟩, fun threshold hbelow => ?_, fun threshold hone => ?_⟩
  · exact parts_eq_components hclasses h hmeans (decide_eq_true hge) (decide_eq_true hle)
      centralCount
  · obtain ⟨hmade, -⟩ := cardinalityPhase_idle hclasses
      (length_thresholdPhase_le_half hclasses h hmeans (decide_eq_true hle))
    rw [mergesIn_cardinality threshold h, hmade, List.length_nil]
  · have hnot : ¬ atMost (zero : Float) threshold := by
      intro hle
      rcases hbelow with hneg | hnan
      · exact not_atMost_of_less (decide_eq_true hneg) hle
      · have hnumber := (Double.isNumber_iff_isNaN threshold).mp
          (LawfulScale.isNumber_of_atMost hle).2
        rw [hnan] at hnumber
        cases hnumber
    obtain ⟨hlength, hmerges⟩ := one_cluster_of_not_atMost hclasses h hmeans hnot centralCount
    obtain ⟨c, hc⟩ := List.length_eq_one_iff.mp hlength
    have hperm := flatMap_members_perm threshold centralCount h
    rw [hc, List.flatMap_singleton] at hperm
    exact ⟨⟨c, hc, hperm⟩, hmerges⟩
  · intro o
    have hmade := thresholdPhase_of_one_le h (pairCounts_le_total events) hone
    have hadd := m.length_thresholdPhase threshold
    have hlength := m.length_cardinalityPhase threshold hclasses
    rw [hmade, List.length_nil] at hadd
    rw [mergesIn_threshold threshold h, length_clusters threshold centralCount h, hmade]
    have hclasses : 2 ≤ m.classCount := hclasses
    exact ⟨rfl, by omega⟩

theorem clusters_at_extremes_of_chain :
    let m := ofEvents [⟨"A", "B"⟩, ⟨"B", "C"⟩, ⟨"C", "D"⟩]
    2 ≤ m.classCount ∧ m.total < 2 ^ 64 ∧ (0.0 : Float) ≤ -0.0 ∧ (-0.0 : Float) ≤ 0.0 ∧
      (m.cluster (-0.0 : Float) 5).parts = m.components ∧
      (m.cluster (-1.0 : Float) 5).mergesIn .threshold = 3 ∧
      (m.cluster (1 : Rat) 5).clusters.length = 2 := by
  obtain ⟨hzero, hbelow, hone⟩ :=
    clusters_at_extremes [⟨"A", "B"⟩, ⟨"B", "C"⟩, ⟨"C", "D"⟩] (by decide) (by decide) 5
  exact ⟨by decide, by decide, by decide, by decide,
    (hzero (-0.0) (by decide) (by decide)).1, (hbelow (-1.0) (Or.inl (by decide))).2.1,
    (hone 1 le_rfl).2⟩

end Matrix

end Linkage
