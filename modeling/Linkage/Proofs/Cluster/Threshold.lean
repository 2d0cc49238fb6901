import Linkage.Proofs.Cluster.Outcome
import Linkage.Proofs.Scale.Order

/-!
# How the threshold matters

The threshold decides when the merges stop and which of them are forced, but not which groups they
join. With a lower threshold clustering makes the same merges and possibly some more.
-/

namespace Linkage
open Scale

/-- A step without its phase. -/
def MergeStep.untagged {R : Type} (s : MergeStep R) : Nat × List String × List String × R :=
  (s.step, s.into, s.absorbed, s.coupling)

namespace Matrix

section generic

variable {R : Type} [Scale R] {m : Matrix} (h : m.WellFormed)

include h in
/-- The steps are those above the threshold, or as many as leave half as many groups as classes. -/
theorem length_steps_eq_max (threshold : R) (centralCount : Nat) (hclasses : 2 ≤ m.classCount) :
    (m.cluster threshold centralCount).steps.length =
      max ((m.cluster threshold centralCount).mergesIn .threshold)
        (m.classCount - m.classCount / 2) := by
  have hfirst := m.length_thresholdPhase threshold
  have hwhole := m.length_whole_run threshold
  have hlength := m.length_cardinalityPhase threshold hclasses
  rw [mergesIn_threshold threshold h, length_steps threshold centralCount h]
  omega

include h in
theorem untagged_steps (threshold : R) (centralCount : Nat) :
    (m.cluster threshold centralCount).steps.map MergeStep.untagged =
      (((m.thresholdPhase threshold).made ++ (m.cardinalityPhase threshold).made).zipIdx 1).map
        fun e => (e.2, m.namesOf e.1.into, m.namesOf e.1.absorbed, e.1.coupling) := by
  rw [cluster_steps threshold h, List.zipIdx_append, List.map_append, List.map_append,
    stepsOf, stepsOf, List.map_map, List.map_map, Nat.zero_add, Nat.add_comm 1]
  rfl

variable [LawfulScale R] {low high : R} (hle : atMost low high)
include hle

theorem exceeds_of_exceeds (groups : List Group) (x : R) (hx : exceeds high groups x) :
    exceeds low groups x := by
  simp only [exceeds, Bool.not_eq_true', Bool.eq_false_iff] at hx ⊢
  exact fun hlow => hx (LawfulScale.atMost_trans hlow hle)

theorem length_thresholdPhase_le (m : Matrix) : (m.thresholdPhase high).made.length ≤
    (m.thresholdPhase low).made.length :=
  (m.thresholdPhase_run low).length_le_of_ended (m.thresholdPhase_ended low)
    (m.thresholdPhase_run high) fun gs x hx => exceeds_of_exceeds hle gs x hx

/-- The merges at the lower threshold begin with all those at the higher one. -/
theorem whole_run_continues (m : Matrix) : ∃ rest,
    (m.thresholdPhase low).made ++ (m.cardinalityPhase low).made =
      (m.thresholdPhase high).made ++ (m.cardinalityPhase high).made ++ rest ∧
    MergeRun m.weightAt (fun _ _ => true) (m.cardinalityPhase high).groups rest
      (m.cardinalityPhase low).groups := by
  refine (m.whole_run low).continues_of_length_le (m.whole_run high) ?_
  have hfirst := length_thresholdPhase_le hle m
  have hwhole := m.length_whole_run low
  have hwhole' := m.length_whole_run high
  have hphase := m.length_thresholdPhase low
  have hphase' := m.length_thresholdPhase high
  rw [List.length_append, List.length_append]
  by_cases hclasses : 2 ≤ m.classCount
  · have hlength := m.length_cardinalityPhase low hclasses
    have hlength' := m.length_cardinalityPhase high hclasses
    omega
  · rw [made_cardinalityPhase m low (Nat.lt_of_not_le hclasses),
      made_cardinalityPhase m high (Nat.lt_of_not_le hclasses)]
    exact Nat.add_le_add_right hfirst 0

theorem steps_continue_of_atMost (h : m.WellFormed) (centralCount : Nat) :
    (m.cluster high centralCount).steps.map MergeStep.untagged <+:
      (m.cluster low centralCount).steps.map MergeStep.untagged := by
  obtain ⟨rest, hmade, -⟩ := whole_run_continues hle m
  rw [untagged_steps h, untagged_steps h, hmade]
  generalize (m.thresholdPhase high).made ++ (m.cardinalityPhase high).made = shorter
  rw [List.zipIdx_append, List.map_append]
  exact List.prefix_append _ _

theorem cluster_subset_of_atMost (h : m.WellFormed) (centralCount : Nat) {c : Cluster R}
    (hc : c ∈ (m.cluster high centralCount).clusters) :
    ∃ c' ∈ (m.cluster low centralCount).clusters, c.members ⊆ c'.members := by
  obtain ⟨rest, -, hrun⟩ := whole_run_continues hle m
  obtain ⟨members, hmem, id, rfl⟩ := mem_cluster_clusters high centralCount h hc
  obtain ⟨members', hmem', hsub⟩ := hrun.subset hmem
  have hnames : m.namesOf members' ∈
      (m.cluster low centralCount).clusters.map Cluster.members := by
    rw [map_members_clusters low h]
    exact List.mem_map_of_mem hmem'
  obtain ⟨c', hc', heq⟩ := List.mem_map.mp hnames
  exact ⟨c', hc', heq ▸ List.filterMap_subset _ hsub⟩

end generic

/-- At a lower threshold clustering makes the merges of a higher one and goes on from there: its
steps begin with the same steps, perhaps in an earlier phase, no fewer of them exceed the threshold,
and its clusters contain the others. How many steps there are follows from those that exceed the
threshold. -/
theorem lower_threshold_continues (events : List Event) (centralCount : Nat) {low high : Float}
    (hle : low ≤ high) :
    let m := ofEvents events
    let outcome (threshold : Float) := m.cluster threshold centralCount
    ((outcome high).steps.map MergeStep.untagged <+:
        (outcome low).steps.map MergeStep.untagged) ∧
      (outcome high).mergesIn .threshold ≤ (outcome low).mergesIn .threshold ∧
      (∀ c ∈ (outcome high).clusters, ∃ c' ∈ (outcome low).clusters, c.members ⊆ c'.members) ∧
      ∀ threshold : Float,
        (2 ≤ m.classCount → (outcome threshold).steps.length =
          max ((outcome threshold).mergesIn .threshold) (m.classCount - m.classCount / 2)) ∧
        (m.classCount = 0 → (outcome threshold).steps.length = 0) := by
  intro m outcome
  have h : m.WellFormed := ofEvents_wellFormed events
  have hle : atMost low high := decide_eq_true hle
  refine ⟨steps_continue_of_atMost hle h centralCount, ?_,
    fun c hc => cluster_subset_of_atMost hle h centralCount hc,
    fun threshold => ⟨length_steps_eq_max h threshold centralCount, fun hnone => ?_⟩⟩
  · simp only [outcome, mergesIn_threshold _ h]
    exact length_thresholdPhase_le hle m
  · have hlength := length_clusters_add_steps threshold centralCount h
    exact Nat.eq_zero_of_add_eq_zero_left (hlength.trans hnone)

theorem lower_threshold_continues_half :
    let m := ofEvents [⟨"A", "B"⟩, ⟨"B", "C"⟩, ⟨"C", "D"⟩]
    (0.0 : Float) ≤ 0.5 ∧ (m.cluster (0.5 : Float) 5).steps.map MergeStep.untagged <+:
      (m.cluster (0.0 : Float) 5).steps.map MergeStep.untagged :=
  ⟨by decide, (lower_threshold_continues _ 5 (by decide)).1⟩

end Matrix

end Linkage
