import Linkage.Proofs.Cluster.Phases
import Linkage.Proofs.Tally
import Mathlib.Data.List.Pairwise

/-!
# The clusters are a partition

Every class of the matrix is in one cluster, whatever the threshold, and the number of clusters is
what the merges leave.
-/

namespace Linkage
open Scale

theorem Outcome.clusterOf?_eq_some {R : Type} {o : Outcome R} {name : String} {c : Cluster R}
    (hc : o.clusterOf? name = some c) : c ∈ o.clusters ∧ name ∈ c.members := by
  rw [clusterOf?] at hc
  have hfound := List.find?_some hc
  exact ⟨List.mem_of_find?_eq_some hc, List.contains_iff_mem.mp hfound⟩

theorem Outcome.mergesIn_add {R : Type} (o : Outcome R) :
    o.mergesIn .threshold + o.mergesIn .cardinality = o.steps.length := by
  rw [mergesIn, mergesIn, List.length_eq_countP_add_countP fun s => s.phase == .threshold]
  congr 1
  refine List.countP_congr fun s _ => ?_
  cases s.phase <;> decide

variable {R : Type} [Scale R]

namespace Matrix

variable {m : Matrix} (threshold : R) (centralCount : Nat)

theorem namesOf_flatten (groups : List Group) :
    m.namesOf groups.flatten = (groups.map m.namesOf).flatten := List.filterMap_flatten ..

theorem flatten_names_perm {groups : List Group} (hp : Partition m.classCount groups) :
    (groups.map m.namesOf).flatten.Perm m.classes := by
  rw [← namesOf_flatten, ← m.namesOf_range]
  exact hp.perm.filterMap _

section outcome

variable (h : m.WellFormed)
include h

theorem mem_cluster_clusters {c : Cluster R}
    (hc : c ∈ (m.cluster threshold centralCount).clusters) :
    ∃ members ∈ (m.cardinalityPhase threshold).groups, ∃ id,
      c = m.clusterOf m.weightAt centralCount id members := by
  rw [cluster_clusters threshold h] at hc
  obtain ⟨⟨members, id⟩, hmem, rfl⟩ := List.mem_map.mp hc
  exact ⟨members, List.fst_mem_of_mem_zipIdx hmem, id, rfl⟩

theorem length_clusters : (m.cluster threshold centralCount).clusters.length =
    (m.cardinalityPhase threshold).groups.length := by
  rw [cluster_clusters threshold h, List.length_map, List.length_zipIdx]

theorem flatMap_members_perm :
    ((m.cluster threshold centralCount).clusters.flatMap Cluster.members).Perm m.classes := by
  rw [List.flatMap_def, map_members_clusters threshold h]
  exact flatten_names_perm (m.cardinalityPhase_partition threshold)

theorem cluster_nonempty {c : Cluster R} (hc : c ∈ (m.cluster threshold centralCount).clusters) :
    c.members ≠ [] ∧ c.size = c.members.length := by
  obtain ⟨members, hmem, id, rfl⟩ := mem_cluster_clusters threshold centralCount h hc
  have hp := m.cardinalityPhase_partition threshold
  have hlength : (m.namesOf members).length = members.length :=
    length_namesOf fun i hi => hp.lt hmem hi
  refine ⟨fun hnil => hp.ne_nil members hmem ?_, hlength.symm⟩
  exact List.length_eq_zero_iff.mp (hlength.symm.trans (congrArg List.length hnil))

theorem map_id_clusters : (m.cluster threshold centralCount).clusters.map Cluster.id =
    List.range (m.cluster threshold centralCount).clusters.length := by
  rw [length_clusters threshold centralCount h, cluster_clusters threshold h, List.map_map,
    List.range_eq_range']
  exact List.zipIdx_map_snd 0 (m.cardinalityPhase threshold).groups

theorem length_steps : (m.cluster threshold centralCount).steps.length =
    (m.thresholdPhase threshold).made.length + (m.cardinalityPhase threshold).made.length := by
  rw [cluster_steps threshold h]
  simp [stepsOf]

/-- The sides of a step are the groups of a merge, by name. -/
theorem exists_of_mem_steps {s : MergeStep R}
    (hs : s ∈ (m.cluster threshold centralCount).steps) :
    ∃ c ∈ (m.thresholdPhase threshold).made ++ (m.cardinalityPhase threshold).made,
      s.into = m.namesOf c.into ∧ s.absorbed = m.namesOf c.absorbed := by
  rw [cluster_steps threshold h] at hs
  rcases List.mem_append.mp hs with hs | hs
  · obtain ⟨⟨c, k⟩, hc, rfl⟩ := List.mem_map.mp hs
    exact ⟨c, List.mem_append_left _ (List.fst_mem_of_mem_zipIdx hc), rfl, rfl⟩
  · obtain ⟨⟨c, k⟩, hc, rfl⟩ := List.mem_map.mp hs
    exact ⟨c, List.mem_append_right _ (List.fst_mem_of_mem_zipIdx hc), rfl, rfl⟩

theorem sides_subset {s : MergeStep R} (hs : s ∈ (m.cluster threshold centralCount).steps) :
    s.into ⊆ m.classes ∧ s.absorbed ⊆ m.classes := by
  obtain ⟨c, -, hinto, habsorbed⟩ := exists_of_mem_steps threshold centralCount h hs
  exact ⟨hinto ▸ m.namesOf_subset c.into, habsorbed ▸ m.namesOf_subset c.absorbed⟩

/-- No two clusters have a member in common. -/
theorem eq_of_common_member {c c' : Cluster R}
    (hc : c ∈ (m.cluster threshold centralCount).clusters)
    (hc' : c' ∈ (m.cluster threshold centralCount).clusters) {name : String}
    (hmem : name ∈ c.members) (hmem' : name ∈ c'.members) : c = c' := by
  have hnodup := (flatMap_members_perm threshold centralCount h).nodup_iff.mpr h.nodup
  exact eq_of_mem_of_nodup_flatMap hnodup hc hc' hmem hmem'

theorem clusterOf?_isSome_iff (name : String) :
    ((m.cluster threshold centralCount).clusterOf? name).isSome ↔ name ∈ m.classes := by
  rw [← (flatMap_members_perm threshold centralCount h).mem_iff, List.mem_flatMap,
    Outcome.clusterOf?, List.find?_isSome]
  simp only [Cluster.contains, List.contains_iff_mem]

theorem mem_cardinality_steps {s : MergeStep R}
    (hs : s ∈ (m.cluster threshold centralCount).steps) (hphase : s.phase = .cardinality) :
    s ∈ m.stepsOf .cardinality (m.thresholdPhase threshold).made.length
      (m.cardinalityPhase threshold).made := by
  rw [cluster_steps threshold h] at hs
  rcases List.mem_append.mp hs with hs | hs
  · rw [phase_of_mem_stepsOf hs] at hphase
    cases hphase
  · exact hs

theorem length_clusters_add_steps : (m.cluster threshold centralCount).clusters.length +
    (m.cluster threshold centralCount).steps.length = m.classCount := by
  rw [length_clusters threshold centralCount h, length_steps threshold centralCount h]
  exact m.length_whole_run threshold

/-- With two classes or more there are clusters, but at most half as many as classes. -/
theorem length_clusters_bounds (hclasses : 2 ≤ m.classCount) :
    1 ≤ (m.cluster threshold centralCount).clusters.length ∧
      (m.cluster threshold centralCount).clusters.length ≤ m.classCount / 2 := by
  have hlength := m.length_cardinalityPhase threshold hclasses
  rw [length_clusters threshold centralCount h]
  have hpos := (m.cardinalityPhase_partition threshold).length_pos (by omega)
  omega

/-- A merge of the second phase is only made on the way to half as many clusters as classes. -/
theorem length_clusters_of_cardinality (hclasses : 2 ≤ m.classCount) {s : MergeStep R}
    (hs : s ∈ (m.cluster threshold centralCount).steps) (hphase : s.phase = .cardinality) :
    (m.cluster threshold centralCount).clusters.length = m.classCount / 2 := by
  have hs := mem_cardinality_steps threshold centralCount h hs hphase
  have hmade : 0 < (m.cardinalityPhase threshold).made.length := by
    have hpos := List.length_pos_of_mem hs
    rwa [stepsOf, List.length_map, List.length_zipIdx] at hpos
  have hlength := m.length_cardinalityPhase threshold hclasses
  have hadd := (m.cardinalityPhase_run threshold).length_add
  rw [length_clusters threshold centralCount h]
  omega

theorem id_lt {c : Cluster R} (hc : c ∈ (m.cluster threshold centralCount).clusters) :
    c.id < m.classCount := by
  have hid : c.id ∈ List.range (m.cluster threshold centralCount).clusters.length :=
    map_id_clusters threshold centralCount h ▸ List.mem_map_of_mem hc
  have hadd := length_clusters_add_steps threshold centralCount h
  have := List.mem_range.mp hid
  omega

theorem length_members_le {c : Cluster R}
    (hc : c ∈ (m.cluster threshold centralCount).clusters) : c.members.length ≤ m.classCount := by
  have hperm := flatMap_members_perm threshold centralCount h
  have hsub : c.members.Sublist
      ((m.cluster threshold centralCount).clusters.flatMap Cluster.members) :=
    List.sublist_flatten_of_mem (List.mem_map_of_mem hc)
  exact hsub.length_le.trans hperm.length_eq.le

theorem size_le {c : Cluster R} (hc : c ∈ (m.cluster threshold centralCount).clusters) :
    c.size ≤ m.classCount := by
  rw [(cluster_nonempty threshold centralCount h hc).2]
  exact length_members_le threshold centralCount h hc

theorem sum_size : ((m.cluster threshold centralCount).clusters.map Cluster.size).sum =
    m.classCount := by
  have hsizes : (m.cluster threshold centralCount).clusters.map Cluster.size =
      (m.cluster threshold centralCount).clusters.map fun c => c.members.length :=
    List.map_congr_left fun c hc => (cluster_nonempty threshold centralCount h hc).2
  rw [hsizes, ← List.length_flatMap]
  exact (flatMap_members_perm threshold centralCount h).length_eq

theorem step_le {s : MergeStep R} (hs : s ∈ (m.cluster threshold centralCount).steps) :
    s.step ≤ m.classCount := by
  have hadd := length_clusters_add_steps threshold centralCount h
  have hlength := length_steps threshold centralCount h
  have hstep {phase : Phase} {done : Nat} {made : List (Candidate R)}
      (hs : s ∈ m.stepsOf phase done made) : s.step ≤ done + made.length := by
    obtain ⟨⟨c, k⟩, hk, rfl⟩ := List.mem_map.mp hs
    have := List.snd_lt_of_mem_zipIdx hk
    show k ≤ _
    omega
  rw [cluster_steps threshold h] at hs
  rcases List.mem_append.mp hs with hs | hs
  · have := hstep hs
    omega
  · have := hstep hs
    omega

end outcome

/-- Clustering partitions the classes of the matrix of any events, at any threshold. -/
theorem cluster_partitions (events : List Event) :
    let m := ofEvents events
    let o := m.cluster threshold centralCount
    (o.clusters.flatMap Cluster.members).Perm m.classes ∧ m.classes.Nodup ∧
      (∀ c ∈ o.clusters, c.members ≠ [] ∧ c.size = c.members.length) ∧
      o.clusters.map Cluster.id = List.range o.clusters.length ∧
      o.clusters.length + o.steps.length = m.classCount ∧
      (m.classCount = 0 → o.clusters = []) ∧
      (2 ≤ m.classCount → 1 ≤ o.clusters.length ∧ o.clusters.length ≤ m.classCount / 2 ∧
        ((∃ s ∈ o.steps, s.phase = .cardinality) → o.clusters.length = m.classCount / 2)) ∧
      ∀ name, ((o.clusterOf? name).isSome ↔ name ∈ m.classes) ∧
        ∀ c, o.clusterOf? name = some c → c ∈ o.clusters ∧ name ∈ c.members ∧
          ∀ c' ∈ o.clusters, name ∈ c'.members → c' = c := by
  intro m o
  have h : m.WellFormed := ofEvents_wellFormed events
  have hadd := length_clusters_add_steps threshold centralCount h
  refine ⟨flatMap_members_perm threshold centralCount h, h.nodup,
    fun c hc => cluster_nonempty threshold centralCount h hc,
    map_id_clusters threshold centralCount h, hadd, fun hnone => ?_, fun hclasses => ?_,
    fun name => ⟨clusterOf?_isSome_iff threshold centralCount h name, fun c hc => ?_⟩⟩
  · exact List.length_eq_zero_iff.mp (Nat.eq_zero_of_add_eq_zero_right (hadd.trans hnone))
  · obtain ⟨hpos, hle⟩ := length_clusters_bounds threshold centralCount h hclasses
    exact ⟨hpos, hle, fun ⟨s, hs, hphase⟩ =>
      length_clusters_of_cardinality threshold centralCount h hclasses hs hphase⟩
  · obtain ⟨hmem, hname⟩ := Outcome.clusterOf?_eq_some hc
    exact ⟨hmem, hname, fun c' hc' hname' =>
      eq_of_common_member threshold centralCount h hc' hmem hname' hname⟩

end Matrix

end Linkage
