import Linkage.Proofs.Cluster.Run
import Linkage.Proofs.Matrix

/-!
# The two phases

Clustering makes two runs, one for each phase, and names what they found. The first run ends where
no coupling exceeds the threshold, and the second where there are few enough groups.
-/

namespace Linkage
open Scale

variable {R : Type} [Scale R] {w : Weights R}

/-- The guard of the first phase. -/
def exceeds (threshold : R) : Guard R := fun _ coupling => !atMost coupling threshold

/-- The guard of the second phase. -/
def outnumbers (limit : Nat) : Guard R :=
  fun groups _ => decide (0 < limit ∧ limit < groups.length)

theorem mergeDownTo_run (w : Weights R) (limit : Nat) (groups : List Group) :
    MergeRun w (outnumbers limit) groups (mergeDownTo w limit groups).made
      (mergeDownTo w limit groups).groups := by
  rw [mergeDownTo]
  split
  · exact MergeRun.stop groups
  · rename_i hlimit
    refine (mergeWhile_run w _ groups.length groups).mono fun gs _ hgo => ?_
    exact decide_eq_true ⟨Nat.pos_of_ne_zero hlimit, of_decide_eq_true hgo⟩

/-- There are few enough groups in the end. -/
theorem length_mergeDownTo_le (w : Weights R) {limit : Nat} (hlimit : 0 < limit)
    (groups : List Group) : (mergeDownTo w limit groups).groups.length ≤ limit := by
  rw [mergeDownTo, if_neg (Nat.ne_of_gt hlimit)]
  by_contra hmore
  have hended := mergeWhile_ended w (fun gs _ => limit < gs.length) (Nat.le_refl groups.length)
  obtain ⟨c, hc⟩ := exists_mostCoupled? (w := w)
    (Nat.le_trans (Nat.succ_le_succ hlimit) (Nat.lt_of_not_le hmore))
  have hended := hended c hc
  exact hmore (Nat.le_of_not_lt (of_decide_eq_false hended))

/-- A run of the second phase never goes below its limit. -/
theorem le_length_of_outnumbers {limit : Nat} {groups last : List Group} {made : List (Candidate R)}
    (h : MergeRun w (outnumbers limit) groups made last) :
    min groups.length limit ≤ last.length := by
  refine (h.invariant (P := fun gs => min groups.length limit ≤ gs.length) ?_ (by omega)).1
  intro gs c _ hc hgo
  have hlength := (mostCoupled?_of hc).length_join
  have hmore := (of_decide_eq_true hgo).2
  omega

namespace Matrix

/-- The merges above the threshold. -/
def thresholdPhase (m : Matrix) (threshold : R) : Merges R :=
  mergeAbove m.weightAt threshold m.singletons

/-- The merges for the number of groups. -/
def cardinalityPhase (m : Matrix) (threshold : R) : Merges R :=
  mergeDownTo m.weightAt (m.classCount / 2) (m.thresholdPhase threshold).groups

variable (m : Matrix) (threshold : R)

theorem thresholdPhase_run : MergeRun m.weightAt (exceeds threshold) m.singletons
    (m.thresholdPhase threshold).made (m.thresholdPhase threshold).groups :=
  mergeWhile_run ..

theorem thresholdPhase_ended :
    Ended m.weightAt (exceeds threshold) (m.thresholdPhase threshold).groups :=
  mergeWhile_ended m.weightAt (exceeds threshold) (Nat.le_refl m.singletons.length)

theorem cardinalityPhase_run : MergeRun m.weightAt (outnumbers (m.classCount / 2))
    (m.thresholdPhase threshold).groups (m.cardinalityPhase threshold).made
    (m.cardinalityPhase threshold).groups :=
  mergeDownTo_run ..

/-- Both runs as one. -/
theorem whole_run : MergeRun m.weightAt (fun _ _ => true) m.singletons
    ((m.thresholdPhase threshold).made ++ (m.cardinalityPhase threshold).made)
    (m.cardinalityPhase threshold).groups :=
  ((m.thresholdPhase_run threshold).mono fun _ _ _ => rfl).append
    ((m.cardinalityPhase_run threshold).mono fun _ _ _ => rfl)

theorem thresholdPhase_partition : Partition m.classCount (m.thresholdPhase threshold).groups :=
  (m.thresholdPhase_run threshold).partition (Partition.singletons m)

theorem cardinalityPhase_partition :
    Partition m.classCount (m.cardinalityPhase threshold).groups :=
  (m.whole_run threshold).partition (Partition.singletons m)

theorem length_singletons : m.singletons.length = m.classCount := by
  rw [singletons, List.length_map, List.length_range]

theorem length_thresholdPhase : (m.thresholdPhase threshold).groups.length +
    (m.thresholdPhase threshold).made.length = m.classCount :=
  (m.thresholdPhase_run threshold).length_add.trans m.length_singletons

theorem length_whole_run : (m.cardinalityPhase threshold).groups.length +
    ((m.thresholdPhase threshold).made.length + (m.cardinalityPhase threshold).made.length) =
      m.classCount := by
  rw [← List.length_append]
  exact (m.whole_run threshold).length_add.trans m.length_singletons

/-- With two classes or more, the second phase leaves no more groups than half of them, and no
fewer unless the first one did. -/
theorem length_cardinalityPhase (hclasses : 2 ≤ m.classCount) :
    (m.cardinalityPhase threshold).groups.length =
      min (m.thresholdPhase threshold).groups.length (m.classCount / 2) := by
  have hrun := m.cardinalityPhase_run threshold
  have hge := le_length_of_outnumbers hrun
  have hle := hrun.length_add
  have hlimit : (m.cardinalityPhase threshold).groups.length ≤ m.classCount / 2 :=
    length_mergeDownTo_le _ (by omega) _
  omega

theorem made_cardinalityPhase (hclasses : m.classCount < 2) :
    (m.cardinalityPhase threshold).made = [] := by
  rw [cardinalityPhase, mergeDownTo, if_pos (Nat.div_eq_of_lt hclasses)]

variable {m}

omit [Scale R] in
theorem phase_of_mem_stepsOf {phase : Phase} {done : Nat} {made : List (Candidate R)}
    {s : MergeStep R} (hs : s ∈ m.stepsOf phase done made) : s.phase = phase := by
  obtain ⟨e, -, rfl⟩ := List.mem_map.mp hs
  rfl

omit [Scale R] in
theorem countP_phase_stepsOf (phase phase' : Phase) (done : Nat) (made : List (Candidate R)) :
    (m.stepsOf phase done made).countP (fun s => s.phase == phase') =
      if phase = phase' then made.length else 0 := by
  have hlength : made.length = (made.zipIdx (done + 1)).length := by rw [List.length_zipIdx]
  rw [stepsOf, List.countP_map, hlength]
  split
  · rename_i heq
    exact List.countP_eq_length.mpr fun _ _ => beq_iff_eq.mpr heq
  · rename_i hne
    exact List.countP_eq_zero.mpr fun _ _ heq => hne (beq_iff_eq.mp heq)

variable (h : m.WellFormed) (centralCount : Nat)
include h

theorem cluster_clusters : (m.cluster threshold centralCount).clusters =
    (m.cardinalityPhase threshold).groups.zipIdx.map fun (members, id) =>
      m.clusterOf m.weightAt centralCount id members := by
  simp only [cluster, weightTable_get h]
  rfl

theorem cluster_steps : (m.cluster threshold centralCount).steps =
    m.stepsOf .threshold 0 (m.thresholdPhase threshold).made ++
      m.stepsOf .cardinality (m.thresholdPhase threshold).made.length
        (m.cardinalityPhase threshold).made := by
  simp only [cluster, weightTable_get h]
  rfl

theorem mergesIn_threshold : (m.cluster threshold centralCount).mergesIn .threshold =
    (m.thresholdPhase threshold).made.length := by
  rw [Outcome.mergesIn, cluster_steps threshold h, List.countP_append, countP_phase_stepsOf,
    countP_phase_stepsOf, if_pos rfl, if_neg nofun, Nat.add_zero]

theorem mergesIn_cardinality : (m.cluster threshold centralCount).mergesIn .cardinality =
    (m.cardinalityPhase threshold).made.length := by
  rw [Outcome.mergesIn, cluster_steps threshold h, List.countP_append, countP_phase_stepsOf,
    countP_phase_stepsOf, if_neg nofun, if_pos rfl, Nat.zero_add]

theorem map_members_clusters :
    (m.cluster threshold centralCount).clusters.map Cluster.members =
      (m.cardinalityPhase threshold).groups.map m.namesOf := by
  rw [cluster_clusters threshold h, List.map_map]
  have hfst := congrArg (List.map m.namesOf)
    (List.zipIdx_map_fst 0 (m.cardinalityPhase threshold).groups)
  rw [List.map_map] at hfst
  exact hfst

end Matrix

end Linkage
