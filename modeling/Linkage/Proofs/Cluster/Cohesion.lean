import Linkage.Proofs.Cluster.Building
import Linkage.Proofs.Cluster.Descent
import Linkage.Proofs.Matrix.Named

/-!
# Cohesion and couplings

The cohesion of a cluster is the mean of the couplings of the steps that built it, each weighted
with the number of recorded pairs between its sides: every recorded pair of members counts in the
coupling of one step. As couplings descend, the cohesion is at least the coupling of the last step,
and it exceeds the threshold where nothing was forced.
-/

namespace Linkage
open Scale

/-- The steps that built a cluster, in their order. -/
def Outcome.buildSteps {R : Type} (o : Outcome R) (c : Cluster R) : List (MergeStep R) :=
  o.steps.filter fun s => s.builds c.members

theorem History.exists_greedyStep {R : Type} [Scale R] {m : Matrix}
    {allowed : List (List String) → MergeStep R → Prop} {k : Nat}
    {groups last : List (List String)} {steps : List (MergeStep R)}
    (h : History m allowed k groups steps last) {s : MergeStep R} (hs : s ∈ steps) :
    ∃ gs i j, GreedyStep m gs i j s ∧ allowed gs s := by
  induction h with
  | done k groups => cases hs
  | step greedy _ guard _ ih =>
    rcases List.mem_cons.mp hs with rfl | hs
    · exact ⟨_, _, _, greedy, guard⟩
    · exact ih hs

namespace Matrix

section clusters

variable {R : Type} [Scale R] [LawfulScale R] {m : Matrix} (h : m.WellFormed)
  (hmeans : m.MeansPositive R) (threshold : R) (centralCount : Nat)
include h hmeans

theorem phases_history : ∃ middle,
    History m (fun _ s => ¬ atMost s.coupling threshold) 0 (m.classes.map fun name => [name])
      (m.stepsOf .threshold 0 (m.thresholdPhase threshold).made) middle ∧
    History m (fun _ s => s.phase = .cardinality) (m.thresholdPhase threshold).made.length middle
      (m.stepsOf .cardinality (m.thresholdPhase threshold).made.length
        (m.cardinalityPhase threshold).made)
      ((m.cluster threshold centralCount).clusters.map Cluster.members) := by
  refine ⟨(m.thresholdPhase threshold).groups.map m.namesOf,
    threshold_history h hmeans threshold, ?_⟩
  rw [map_members_clusters threshold h]
  exact history_of_run h hmeans (m.thresholdPhase_partition threshold)
    (fun gs c k hp hc hgo => rfl) (m.cardinalityPhase_run threshold) _

theorem built_clusters : Built (m.cluster threshold centralCount).steps
    ((m.cluster threshold centralCount).clusters.map Cluster.members) := by
  obtain ⟨middle, hfirst, hsecond⟩ := phases_history h hmeans threshold centralCount
  rw [cluster_steps threshold h]
  exact hsecond.built (hfirst.built (Built.singletons h.nodup))

theorem coupling_eq_average {s : MergeStep R}
    (hs : s ∈ (m.cluster threshold centralCount).steps) :
    s.coupling = m.averageCoupling s.into s.absorbed := by
  obtain ⟨middle, hfirst, hsecond⟩ := phases_history h hmeans threshold centralCount
  rw [cluster_steps threshold h] at hs
  rcases List.mem_append.mp hs with hs | hs
  · obtain ⟨_, _, _, hgreedy, -⟩ := hfirst.exists_greedyStep hs
    exact hgreedy.coupling_eq
  · obtain ⟨_, _, _, hgreedy, -⟩ := hsecond.exists_greedyStep hs
    exact hgreedy.coupling_eq

theorem not_atMost_of_threshold {s : MergeStep R}
    (hs : s ∈ (m.cluster threshold centralCount).steps) (hphase : s.phase = .threshold) :
    ¬ atMost s.coupling threshold := by
  obtain ⟨middle, hfirst, -⟩ := phases_history h hmeans threshold centralCount
  rw [cluster_steps threshold h] at hs
  rcases List.mem_append.mp hs with hs | hs
  · obtain ⟨_, _, _, -, hguard⟩ := hfirst.exists_greedyStep hs
    exact hguard
  · rw [phase_of_mem_stepsOf hs] at hphase
    cases hphase

omit [LawfulScale R] hmeans in
theorem cohesion_cluster {c : Cluster R} (hc : c ∈ (m.cluster threshold centralCount).clusters) :
    c.cohesion = mean (m.weightsOf (pairsOf c.members)) := by
  obtain ⟨members, hmem, id, rfl⟩ := mem_cluster_clusters threshold centralCount h hc
  have hlt := fun i hi => (m.cardinalityPhase_partition threshold).lt (i := i) hmem hi
  rw [← cohesion_eq_mean]
  simp only [clusterOf, indexesOf_namesOf h hlt]

end clusters

section fractions

variable {m : Matrix} (h : m.WellFormed) (threshold : Rat) (centralCount : Nat) {c : Cluster Rat}
  (hc : c ∈ (m.cluster threshold centralCount).clusters)
include h hc

theorem weights_perm : (m.weightsOf (pairsOf c.members) : List Rat).Perm
    (((m.cluster threshold centralCount).buildSteps c).map fun s =>
      m.weightsOf (crossPairs s.into s.absorbed)).flatten := by
  have hbuilt := built_clusters h m.meansPositive_rat threshold centralCount
  have hperm := hbuilt.pairs_perm c.members (List.mem_map_of_mem hc)
  rw [← weightsOf_flatMap]
  exact hperm.filterMap _

omit hc in
theorem mean_weights_eq_coupling {s : MergeStep Rat}
    (hs : s ∈ (m.cluster threshold centralCount).buildSteps c) :
    mean (m.weightsOf (crossPairs s.into s.absorbed)) = s.coupling := by
  rw [← averageCoupling_eq_mean]
  exact (coupling_eq_average h m.meansPositive_rat threshold centralCount
    (List.mem_of_mem_filter hs)).symm

theorem cohesion_mul_recordedCount : c.cohesion * m.recordedCount (pairsOf c.members) =
    (((m.cluster threshold centralCount).buildSteps c).map fun s =>
      s.coupling * (m.recordedCount (crossPairs s.into s.absorbed) : Rat)).sum := by
  rw [cohesion_cluster h threshold centralCount hc, ← length_weightsOf (R := Rat) h,
    Fraction.mean_mul_length, (weights_perm h threshold centralCount hc).sum_eq, List.sum_flatten,
    List.map_map]
  refine congrArg List.sum (List.map_congr_left fun s hs => ?_)
  rw [← mean_weights_eq_coupling h threshold centralCount hs, ← length_weightsOf (R := Rat) h,
    Fraction.mean_mul_length]
  rfl

theorem cohesion_mem {interval : Set Rat} (hinterval : interval.OrdConnected)
    (hne : (m.cluster threshold centralCount).buildSteps c ≠ [])
    (hmem : ∀ s ∈ (m.cluster threshold centralCount).buildSteps c, s.coupling ∈ interval) :
    c.cohesion ∈ interval := by
  rw [cohesion_cluster h threshold centralCount hc,
    Fraction.mean_perm (weights_perm h threshold centralCount hc)]
  refine Fraction.mean_flatten_mem hinterval (by simpa using hne) fun xs hxs => ?_
  obtain ⟨s, hs, rfl⟩ := List.mem_map.mp hxs
  rw [mean_weights_eq_coupling h threshold centralCount hs]
  exact hmem s hs

theorem length_buildSteps :
    ((m.cluster threshold centralCount).buildSteps c).length + 1 = c.members.length :=
  (built_clusters h m.meansPositive_rat threshold centralCount).length_eq c.members
    (List.mem_map_of_mem hc)

theorem lt_cohesion (htwo : 2 ≤ c.members.length)
    (hphase : ∀ s ∈ (m.cluster threshold centralCount).buildSteps c, s.phase = .threshold) :
    threshold < c.cohesion := by
  have hlength := length_buildSteps h threshold centralCount hc
  refine cohesion_mem h threshold centralCount hc Set.ordConnected_Ioi ?_ fun s hs => ?_
  · rintro hnil
    rw [hnil, List.length_nil] at hlength
    omega
  · have hnot := not_atMost_of_threshold h m.meansPositive_rat threshold centralCount
      (List.mem_of_mem_filter hs) (hphase s hs)
    exact Fraction.lt_of_not_atMost hnot

theorem last_coupling_le_cohesion {s : MergeStep Rat}
    (hlast : ((m.cluster threshold centralCount).buildSteps c).getLast? = some s) :
    s.coupling ≤ c.cohesion := by
  obtain ⟨earlier, hsteps⟩ := List.getLast?_eq_some_iff.mp hlast
  have hdescend := (List.pairwise_map.mp (steps_descend h threshold centralCount)).filter
    fun s => s.builds c.members
  refine cohesion_mem h threshold centralCount hc Set.ordConnected_Ici ?_ fun t ht => ?_
  · rw [hsteps]
    simp
  · rw [Outcome.buildSteps] at hsteps ht
    rw [hsteps] at hdescend ht
    rcases List.mem_append.mp ht with ht | ht
    · exact (List.pairwise_append.mp hdescend).2.2 t ht s (List.mem_singleton_self s)
    · rw [List.mem_singleton.mp ht]
      exact Set.self_mem_Ici

end fractions

/-- Of the steps that built a cluster, one less than it has members, exactly one parts each recorded
pair of members. So the cohesion is the mean of their couplings, weighted with the recorded pairs
between the sides. It exceeds the threshold if there was a merge and none of them was forced, and it
is at least the coupling of the last one. -/
theorem cohesion_of_buildSteps (events : List Event) (threshold : Rat) (centralCount : Nat) :
    let m := ofEvents events
    let o := m.cluster threshold centralCount
    ∀ c ∈ o.clusters,
      (o.buildSteps c).length + 1 = c.members.length ∧
      (∀ x ∈ c.members, ∀ y ∈ c.members, 0 < m.pairCount x y →
        (o.buildSteps c).countP (fun s => s.splits x y) = 1) ∧
      c.cohesion * m.recordedCount (pairsOf c.members) = ((o.buildSteps c).map fun s =>
        s.coupling * (m.recordedCount (crossPairs s.into s.absorbed) : Rat)).sum ∧
      (2 ≤ c.members.length → (∀ s ∈ o.buildSteps c, s.phase = .threshold) →
        threshold < c.cohesion) ∧
      ∀ s, (o.buildSteps c).getLast? = some s → s.coupling ≤ c.cohesion := by
  intro m o c hc
  have h : m.WellFormed := ofEvents_wellFormed events
  refine ⟨length_buildSteps h threshold centralCount hc, fun x hx y hy hpair => ?_,
    cohesion_mul_recordedCount h threshold centralCount hc,
    fun htwo hphase => lt_cohesion h threshold centralCount hc htwo hphase,
    fun s hlast => last_coupling_le_cohesion h threshold centralCount hc hlast⟩
  have hxy : x ≠ y := by
    rintro rfl
    rw [pairCount_self] at hpair
    exact Nat.lt_irrefl 0 hpair
  exact (built_clusters h m.meansPositive_rat threshold centralCount).countP_splits
    (List.mem_map_of_mem hc) hx hy hxy

theorem cohesion_of_chain_steps :
    let m := ofEvents [⟨"A", "B"⟩, ⟨"A", "B"⟩, ⟨"B", "C"⟩, ⟨"C", "D"⟩]
    let o := m.cluster (1 / 5 : Rat) 5
    let c : Cluster Rat := ⟨0, ["A", "B", "C", "D"], 4, 1 / 3, ["B", "A", "C", "D"]⟩
    c ∈ o.clusters ∧ 0 < m.pairCount "C" "B" ∧
      (o.buildSteps c).countP (fun s => s.splits "C" "B") = 1 ∧
      (∀ s ∈ o.buildSteps c, s.phase = .threshold) ∧ 1 / 5 < c.cohesion := by
  intro m o c
  have hc : c ∈ o.clusters := by decide +kernel
  have hpair : 0 < m.pairCount "C" "B" := by decide +kernel
  have hphase : ∀ s ∈ o.buildSteps c, s.phase = .threshold := by decide +kernel
  obtain ⟨-, hsplits, -, hcohesion, -⟩ := cohesion_of_buildSteps
    [⟨"A", "B"⟩, ⟨"A", "B"⟩, ⟨"B", "C"⟩, ⟨"C", "D"⟩] (1 / 5) 5 c hc
  exact ⟨hc, hpair, hsplits "C" (by decide) "B" (by decide) hpair, hphase,
    hcohesion (by decide) hphase⟩

end Matrix

end Linkage
