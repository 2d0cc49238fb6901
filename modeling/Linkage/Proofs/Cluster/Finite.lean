import Linkage.Analysis
import Linkage.Proofs.Cluster.Cohesion
import Linkage.Proofs.Matrix.Entries
import Linkage.Proofs.Scale.Bracketing

/-!
# Finite results

No number in the results of an analysis is infinite or undefined, as long as the invocations fit a
counter of 64 bits. Shares are of moderate size then, every mean has at least one summand, and what
else is divided by is a count, or a sum of shares that is positive.
-/

namespace Linkage
open Scale Double

theorem Double.moderate_count {n b : Nat} (hn : n < 2 ^ b) (hb : 0 < b ∧ b ≤ 1000) :
    Moderate 0 (b + 2) (Float.ofNat n) := by
  have hlog : n.log2 < b := by
    rcases Nat.eq_zero_or_pos n with rfl | hpos
    · exact hb.1
    · exact (Nat.log2_lt hpos.ne').mpr hn
  exact (moderate_ofNat (by omega)).mono (Int.le_refl 0) (by omega)

/-- A quotient by a positive count of at most `b` bits. -/
theorem Double.moderate_div_count {j k : Int} {x : Float} (hx : Moderate j k x) {n b : Nat}
    (hpos : 0 < n) (hn : n < 2 ^ b) (hb : b ≤ 500) (hj : -500 ≤ j) (hk : k ≤ 1000) :
    Moderate (j - b - 2) (k + 1) (x / Float.ofNat n) := by
  have hlog : n.log2 < b := (Nat.log2_lt hpos.ne').mpr hn
  exact (moderate_div_ofNat hx hpos (by omega) (by omega) (by omega)).mono (by omega)
    (Int.le_refl _)

namespace Matrix

variable {m : Matrix} (h : m.WellFormed) (hcounts : ∀ e ∈ m.pairCounts, e.2 ≤ m.total)
  (htotal : m.total < 2 ^ 64)

include htotal in
theorem moderate_share {n : Nat} (hn : n ≤ m.total) : Moderate (-66) 67 (m.share n : Float) :=
  moderate_div_count (b := 64) (moderate_count (hn.trans_lt htotal) (by decide)) (by omega)
    (by omega) (by decide) (by decide) (by decide)

include h hcounts htotal

theorem moderate_recorded {pairs : List IndexPair} {x : Float}
    (hx : x ∈ recorded m.weightAt pairs) : Moderate (-66) 67 x := by
  obtain ⟨⟨i, j⟩, -, hp⟩ := List.mem_filterMap.mp hx
  obtain ⟨n, hn, rfl⟩ := (weightAt_eq_some h).mp hp
  exact moderate_share htotal (hcounts _ hn)

/-- The mean of the weights of as many pairs as some classes have. -/
theorem moderate_mean_recorded {pairs : List IndexPair} {n : Nat} (hn : n ≤ m.classCount)
    (hlength : pairs.length ≤ n ^ 2) :
    Moderate (-199) 123 (mean (recorded (m.weightAt : Weights Float) pairs)) := by
  have hle : (recorded (m.weightAt : Weights Float) pairs).length ≤ pairs.length :=
    List.length_filterMap_le ..
  have hclasses : n ≤ 2 ^ 65 := by
    have := h.classCount_le
    omega
  have hpow : n ^ 2 ≤ (2 ^ 65) ^ 2 := Nat.pow_le_pow_left hclasses 2
  exact moderate_mean (n := 130) (fun x => moderate_recorded h hcounts htotal) (by omega) (by omega)
    (by omega) (by omega)

theorem moderate_mean_weightsOf {pairs : List (String × String)} {n : Nat} (hn : n ≤ m.classCount)
    (hlength : pairs.length ≤ n ^ 2) :
    Moderate (-199) 123 (mean (m.weightsOf pairs : List Float)) := by
  rw [← recorded_indexes]
  exact moderate_mean_recorded h hcounts htotal hn ((List.length_filterMap_le ..).trans hlength)

theorem moderate_average {a b : Group} (ha : a.length ≤ m.classCount)
    (hb : b.length ≤ m.classCount) :
    Moderate (-199) 123 (average (m.weightAt : Weights Float) a b) := by
  refine moderate_mean_recorded h hcounts htotal (Nat.le_refl m.classCount) ?_
  rw [length_crossPairs, Nat.pow_two]
  exact Nat.mul_le_mul ha hb

section clusters

variable (threshold : Float) (centralCount : Nat)

theorem moderate_cohesion {c : Cluster Float}
    (hc : c ∈ (m.cluster threshold centralCount).clusters) : Moderate (-199) 123 c.cohesion := by
  rw [cohesion_cluster h threshold centralCount hc]
  exact moderate_mean_weightsOf h hcounts htotal (length_members_le threshold centralCount h hc)
    (length_pairsOf_le _)

theorem moderate_coupling {s : MergeStep Float}
    (hs : s ∈ (m.cluster threshold centralCount).steps) : Moderate (-199) 123 s.coupling := by
  have hmeans := meansPositive_of_total_lt h htotal
  have hbuilt := built_clusters h hmeans threshold centralCount
  obtain ⟨-, g, hg, hsub⟩ := hbuilt.within s hs
  -- The pairs between the sides of a step are pairs of members of one cluster.
  have hpairs : (crossPairs s.into s.absorbed).length ≤ (pairsOf g).length := by
    have hmem : s ∈ (m.cluster threshold centralCount).steps.filter fun s => s.builds g :=
      List.mem_filter.mpr ⟨hs, builds_iff.mpr hsub⟩
    rw [(hbuilt.pairs_perm g hg).length_eq, List.flatMap_def]
    exact (List.sublist_flatten_of_mem
      (List.mem_map_of_mem (f := fun s => crossPairs s.into s.absorbed) hmem)).length_le
  obtain ⟨c, hc, rfl⟩ := List.mem_map.mp hg
  rw [coupling_eq_average h hmeans threshold centralCount hs, averageCoupling_eq_mean]
  exact moderate_mean_weightsOf h hcounts htotal (length_members_le threshold centralCount h hc)
    (hpairs.trans (length_pairsOf_le _))

end clusters

omit h hcounts in
theorem moderate_weight {p : PairCoupling Float} (h : m.WellFormed)
    (hcounts : ∀ e ∈ m.pairCounts, e.2 ≤ m.total) (hp : p ∈ m.pairs) :
    Moderate (-66) 67 p.weight := by
  rw [pairs_eq_map h] at hp
  obtain ⟨e, he, rfl⟩ := List.mem_map.mp hp
  exact moderate_share htotal (hcounts e he)

omit hcounts in
theorem classCount_lt : m.classCount < 2 ^ 66 := by
  have := h.classCount_le
  omega

theorem moderate_intraSum {groups : List Group} (hlength : groups.length ≤ m.classCount)
    (b : Bracketing) :
    Moderate (-66) 321 (Summary.intraSum (m.weightAt : Weights Float) groups b) := by
  refine moderate_bracketing_sum (k := 122) (n := 66) b (fun x hx => ?_) ?_ (by decide)
  · obtain ⟨members, -, rfl⟩ := List.mem_map.mp hx
    exact moderate_sumFrom (k := 67) (by decide) (moderate_zero ..)
      fun x => moderate_recorded h hcounts htotal
  · rw [List.length_map]
    exact hlength.trans (classCount_lt h htotal).le

theorem moderate_interAverages {groups : List Group}
    (hgroups : ∀ g ∈ groups, g.length ≤ m.classCount) {x : Float}
    (hx : x ∈ Summary.interAverages m.weightAt groups) : Moderate (-199) 123 x := by
  obtain ⟨⟨a, b⟩, hab, rfl⟩ := List.mem_map.mp (List.mem_filter.mp hx).1
  obtain ⟨ha, hb⟩ := mem_of_mem_pairsOf hab
  exact moderate_average h hcounts htotal (hgroups a ha) (hgroups b hb)

omit hcounts in
theorem length_interAverages_lt {groups : List Group} (hlength : groups.length ≤ m.classCount) :
    (Summary.interAverages (m.weightAt : Weights Float) groups).length < 2 ^ 132 := by
  have hle : (Summary.interAverages (m.weightAt : Weights Float) groups).length ≤
      groups.length ^ 2 := by
    refine (List.length_filter_le ..).trans ?_
    rw [List.length_map]
    exact length_pairsOf_le _
  have hpow : groups.length ^ 2 < (2 ^ 66) ^ 2 :=
    Nat.pow_lt_pow_left (hlength.trans_lt (classCount_lt h htotal)) (by decide)
  omega

/-- The weight inside groups is divided by the weight of all pairs, if that is above zero. -/
theorem isFinite_intraWeight {clusters : List (Cluster Float)}
    (hlength : clusters.length ≤ m.classCount) (b : Bracketing) :
    (Summary.ofClusters m clusters b).intraWeight.isFinite := by
  have hgroupCount : (clusters.map fun c => m.indexesOf c.members).length ≤ m.classCount := by
    rwa [List.length_map]
  have htotalWeight : Moderate (-66) 122
      (sum ((m.pairs : List (PairCoupling Float)).map PairCoupling.weight)) :=
    moderate_sum (by decide) (List.forall_mem_map.mpr fun p => moderate_weight htotal h hcounts)
  simp only [Summary.ofClusters, weightTable_get h]
  split
  · rename_i hpos
    obtain ⟨hlow, hhigh⟩ := htotalWeight.bounds hpos
    exact (moderate_div (moderate_intraSum h hcounts htotal hgroupCount b) hlow hhigh (by decide)
      (by decide)).isFinite
  · exact (moderate_zero 0 0).isFinite

section clusters

variable {clusters : List (Cluster Float)} (hlength : clusters.length ≤ m.classCount)
  (hmembers : ∀ c ∈ clusters, c.members.length ≤ m.classCount) (b : Bracketing)

include hlength

include hmembers in
/-- The averages of pairs of groups are divided by their number, if there are any. -/
theorem isFinite_interCoupling : (Summary.ofClusters m clusters b).interCoupling.isFinite := by
  have hgroups : ∀ g ∈ clusters.map fun c => m.indexesOf c.members, g.length ≤ m.classCount :=
    List.forall_mem_map.mpr fun c hc => (List.length_filterMap_le ..).trans (hmembers c hc)
  have hgroupCount : (clusters.map fun c => m.indexesOf c.members).length ≤ m.classCount := by
    rwa [List.length_map]
  simp only [Summary.ofClusters, weightTable_get h]
  split
  · exact (moderate_zero 0 0).isFinite
  · rename_i hne
    have hsum : Moderate (-199) 178 (sum (Summary.interAverages (m.weightAt : Weights Float)
        (clusters.map fun c => m.indexesOf c.members))) :=
      moderate_sum (by decide) fun x => moderate_interAverages h hcounts htotal hgroups
    refine (moderate_div_count hsum (List.length_pos_iff.mpr fun hnil => hne ?_)
      (length_interAverages_lt h htotal hgroupCount) (by decide) (by decide) (by decide)).isFinite
    rw [hnil, List.isEmpty_nil]

include hmembers in
/-- The four figures of a summary that are no counts. -/
theorem summary_finite (hsizes : (clusters.map Cluster.size).sum ≤ m.classCount)
    (hcohesion : ∀ c ∈ clusters, Moderate (-199) 123 c.cohesion) :
    (Summary.ofClusters m clusters b).averageSize.isFinite ∧
    (Summary.ofClusters m clusters b).averageCohesion.isFinite ∧
    (Summary.ofClusters m clusters b).intraWeight.isFinite ∧
    (Summary.ofClusters m clusters b).interCoupling.isFinite := by
  have hclasses := classCount_lt h htotal
  have hdivisor : 0 < max clusters.length 1 ∧ max clusters.length 1 < 2 ^ 66 := by omega
  have hsize : Moderate 0 68 (Float.ofNat (clusters.map Cluster.size).sum) :=
    moderate_count (b := 66) (hsizes.trans_lt hclasses) (by decide)
  have hsum : Moderate (-199) 178 (sum (clusters.map Cluster.cohesion)) :=
    moderate_sum (by decide) (List.forall_mem_map.mpr hcohesion)
  refine ⟨?_, ?_, isFinite_intraWeight h hcounts htotal hlength b,
    isFinite_interCoupling h hcounts htotal hlength hmembers b⟩
  · exact (moderate_div_count hsize hdivisor.1 hdivisor.2 (by decide) (by decide)
      (by decide)).isFinite
  · exact (moderate_div_count hsum hdivisor.1 hdivisor.2 (by decide) (by decide)
      (by decide)).isFinite

end clusters

end Matrix

end Linkage
