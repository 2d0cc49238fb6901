import Linkage.Cluster.Summary
import Linkage.Proofs.Cluster.Outcome
import Linkage.Proofs.Matrix.Conservation

/-!
# The summary of a partition

A summary looks at the pairs of members of each cluster and at the pairs of clusters. Where the
clusters are a partition of the classes, these pairs of members are the recorded pairs that lie
within a cluster, each once, and every other recorded pair lies between two clusters. So the weight
inside clusters is the share of the invocations there, and it is the whole if and only if no two
clusters are coupled.
-/

namespace Linkage
open Scale

section parts

variable {α β : Type} {f : β → List α} {parts : List β}

theorem rel_of_mem_pairsOf {r : α → α → Prop} {l : List α} (h : l.Pairwise r) {x y : α}
    (hxy : (x, y) ∈ pairsOf l) : r x y := by
  obtain ⟨i, j, hij, hi, hj⟩ := mem_pairsOf.mp hxy
  obtain ⟨hi', rfl⟩ := List.getElem?_eq_some_iff.mp hi
  obtain ⟨hj', rfl⟩ := List.getElem?_eq_some_iff.mp hj
  exact List.pairwise_iff_getElem.mp h i j hi' hj' hij

theorem pairsOf_map {γ : Type} (g : α → γ) (l : List α) :
    pairsOf (l.map g) = (pairsOf l).map (Prod.map g g) := by
  induction l with
  | nil => rfl
  | cons x l ih =>
    rw [List.map_cons, pairsOf, pairsOf, List.map_append, ih, List.map_map, List.map_map]
    rfl

theorem disjoint_of_mem_pairsOf (h : (parts.flatMap f).Nodup) {b b' : β}
    (hb : (b, b') ∈ pairsOf parts) : (f b).Disjoint (f b') :=
  rel_of_mem_pairsOf (List.nodup_flatMap.mp h).2 hb

theorem mem_unordered_pairsOf {l : List α} (h : l.Nodup) {x y : α} :
    s(x, y) ∈ (pairsOf l).map unordered ↔ x ≠ y ∧ x ∈ l ∧ y ∈ l := by
  rw [List.mem_map]
  constructor
  · rintro ⟨⟨a, b⟩, hab, heq⟩
    obtain ⟨ha, hb⟩ := mem_of_mem_pairsOf hab
    have hne : a ≠ b := rel_of_mem_pairsOf h hab
    rcases Sym2.eq_iff.mp heq with ⟨rfl, rfl⟩ | ⟨rfl, rfl⟩
    · exact ⟨hne, ha, hb⟩
    · exact ⟨hne.symm, hb, ha⟩
  · rintro ⟨hne, hx, hy⟩
    rcases mem_pairsOf_or_swap hx hy hne with hmem | hmem
    · exact ⟨_, hmem, rfl⟩
    · exact ⟨_, hmem, Sym2.eq_swap⟩

theorem mem_unordered_flatMap_pairsOf (h : (parts.flatMap f).Nodup) {x y : α} :
    s(x, y) ∈ (parts.flatMap fun b => pairsOf (f b)).map unordered ↔
      x ≠ y ∧ ∃ b ∈ parts, x ∈ f b ∧ y ∈ f b := by
  have hpart (b : β) (hb : b ∈ parts) := mem_unordered_pairsOf (x := x) (y := y)
    ((List.nodup_flatMap.mp h).1 b hb)
  rw [List.map_flatMap, List.mem_flatMap]
  constructor
  · rintro ⟨b, hb, hmem⟩
    obtain ⟨hne, hx, hy⟩ := (hpart b hb).mp hmem
    exact ⟨hne, b, hb, hx, hy⟩
  · rintro ⟨hne, b, hb, hx, hy⟩
    exact ⟨b, hb, (hpart b hb).mpr ⟨hne, hx, hy⟩⟩

/-- No pair lies within two parts. -/
theorem nodup_unordered_flatMap_pairsOf (h : (parts.flatMap f).Nodup) :
    ((parts.flatMap fun b => pairsOf (f b)).map unordered).Nodup := by
  obtain ⟨hparts, hdisjoint⟩ := List.nodup_flatMap.mp h
  rw [List.map_flatMap, List.nodup_flatMap]
  refine ⟨fun b hb => nodup_unordered_pairsOf (hparts b hb), ?_⟩
  refine hdisjoint.imp_of_mem fun {b b'} hb hb' hbb' e he he' => ?_
  induction e using Sym2.ind with | _ x y
  obtain ⟨-, hx, -⟩ := (mem_unordered_pairsOf (hparts b hb)).mp he
  obtain ⟨-, hx', -⟩ := (mem_unordered_pairsOf (hparts b' hb')).mp he'
  exact hbb' hx hx'

end parts

namespace Matrix

variable {R : Type} {m : Matrix}

/-- Every class is a member of one cluster, and the sizes are the numbers of members. -/
structure PartitionedBy (m : Matrix) (clusters : List (Cluster R)) : Prop where
  perm : (clusters.flatMap Cluster.members).Perm m.classes
  size_eq : ∀ c ∈ clusters, c.size = c.members.length

/-- Both classes are members of one cluster. -/
def together (clusters : List (Cluster R)) (p : ClassPair) : Bool :=
  clusters.any fun c => c.contains p.first && c.contains p.second

/-- The pairs of clusters with a recorded pair between them. -/
def coupledClusters (m : Matrix) (clusters : List (Cluster R)) : List (Cluster R × Cluster R) :=
  (pairsOf clusters).filter fun c => 0 < m.recordedCount (crossPairs c.1.members c.2.members)

theorem together_iff {clusters : List (Cluster R)} {p : ClassPair} : together clusters p ↔
    ∃ c ∈ clusters, p.first ∈ c.members ∧ p.second ∈ c.members := by
  simp only [together, List.any_eq_true, Cluster.contains, Bool.and_eq_true,
    List.contains_iff_mem]

theorem mem_coupledClusters {clusters : List (Cluster R)} {a b : Cluster R} :
    (a, b) ∈ m.coupledClusters clusters ↔ (a, b) ∈ pairsOf clusters ∧
      ∃ x ∈ a.members, ∃ y ∈ b.members, 0 < m.pairCount x y := by
  simp only [coupledClusters, recordedCount, List.mem_filter, decide_eq_true_iff,
    List.countP_pos_iff, Prod.exists, mem_crossPairs, and_assoc, exists_and_left]

theorem PartitionedBy.nodup {clusters : List (Cluster R)} (h : m.WellFormed)
    (hparts : m.PartitionedBy clusters) : (clusters.flatMap Cluster.members).Nodup :=
  hparts.perm.nodup_iff.mpr h.nodup

variable [Scale R]

/-! ### Weights of some pairs -/

/-- The weight of two classes in either order. -/
def weightOfEnds (m : Matrix) : Sym2 String → Option R :=
  Sym2.lift ⟨m.weight, m.weight_comm⟩

theorem weightsOf_eq_filterMap (m : Matrix) (pairs : List (String × String)) :
    (m.weightsOf pairs : List R) = (pairs.map unordered).filterMap m.weightOfEnds := by
  rw [List.filterMap_map]
  rfl

theorem weightOfEnds_of_mem_pairs (h : m.WellFormed) {p : PairCoupling R} (hp : p ∈ m.pairs) :
    m.weightOfEnds p.pair.ends = some p.weight := by
  obtain ⟨-, hpos, hn, hw⟩ := (mem_pairs h).mp hp
  show m.weight p.pair.first p.pair.second = _
  rw [weight_eq_share h, if_neg (Nat.ne_of_gt (hn ▸ hpos)), ← hn, hw]

theorem weightOfEnds_isSome_iff (h : m.WellFormed) (e : Sym2 String) :
    (m.weightOfEnds e : Option R).isSome ↔
      ∃ p ∈ (m.pairs : List (PairCoupling R)), p.pair.ends = e := by
  induction e using Sym2.ind with | _ x y
  show (m.weight x y : Option R).isSome ↔ _
  rw [weight_isSome_iff h, ← exists_mem_pairs_iff (R := R) h]
  exact exists_congr fun p => and_congr_right fun hp => (ends_eq_iff h hp).symm

/-- The weights of some pairs, none of them there twice, are those of the entries among them. -/
theorem weightsOf_perm (h : m.Canonical) {pairs : List (String × String)}
    (hpairs : (pairs.map unordered).Nodup) : (m.weightsOf pairs : List R).Perm
      ((m.pairs.filter fun p => p.pair.ends ∈ pairs.map unordered).map (·.weight)) := by
  have hwf := h.toWellFormed
  have hentries : ((m.pairs : List (PairCoupling R)).filter fun p =>
      p.pair.ends ∈ pairs.map unordered).map (·.weight) =
      (((m.pairs : List (PairCoupling R)).filter fun p =>
        p.pair.ends ∈ pairs.map unordered).map fun p => p.pair.ends).filterMap m.weightOfEnds := by
    rw [List.filterMap_map, ← List.filterMap_eq_map]
    exact List.filterMap_congr fun p hp =>
      (weightOfEnds_of_mem_pairs hwf (List.mem_of_mem_filter hp)).symm
  have hrecorded : (pairs.map unordered).filterMap (m.weightOfEnds : Sym2 String → Option R) =
      ((pairs.map unordered).filter fun e => (m.weightOfEnds e : Option R).isSome).filterMap
        m.weightOfEnds := by
    rw [List.filterMap_filter]
    refine List.filterMap_congr fun e _ => ?_
    cases (m.weightOfEnds e : Option R) <;> rfl
  rw [weightsOf_eq_filterMap, hentries, hrecorded]
  refine ((List.perm_ext_iff_of_nodup (hpairs.filter _)
    ((pairs_nodup h).sublist (List.filter_sublist.map _))).mpr fun e => ?_).filterMap _
  rw [List.mem_filter, weightOfEnds_isSome_iff hwf]
  constructor
  · rintro ⟨hmem, p, hp, rfl⟩
    exact List.mem_map.mpr ⟨p, List.mem_filter.mpr ⟨hp, decide_eq_true hmem⟩, rfl⟩
  · intro he
    obtain ⟨p, hp, rfl⟩ := List.mem_map.mp he
    obtain ⟨hp, hmem⟩ := List.mem_filter.mp hp
    exact ⟨of_decide_eq_true hmem, p, hp, rfl⟩

section partitioned

variable {clusters : List (Cluster R)} (h : m.Canonical) (hparts : m.PartitionedBy clusters)
include h hparts

/-- The weights inside clusters are those of the entries there. -/
theorem PartitionedBy.weights_inside :
    (m.weightsOf (clusters.flatMap fun c => pairsOf c.members) : List R).Perm
      ((m.pairs.filter fun p => together clusters p.pair).map (·.weight)) := by
  have hnodup := hparts.nodup h.toWellFormed
  have hfilter : ((m.pairs : List (PairCoupling R)).filter fun p =>
      p.pair.ends ∈ (clusters.flatMap fun c => pairsOf c.members).map unordered) =
      m.pairs.filter fun p => together clusters p.pair := by
    refine List.filter_congr fun p hp => ?_
    have hne : p.pair.first ≠ p.pair.second := fun heq =>
      List.lt_irrefl _ (heq ▸ ((mem_pairs h.toWellFormed).mp hp).1)
    rw [Bool.eq_iff_iff, decide_eq_true_iff, together_iff, ClassPair.ends,
      mem_unordered_flatMap_pairsOf hnodup, and_iff_right hne]
  rw [← hfilter]
  exact weightsOf_perm h (nodup_unordered_flatMap_pairsOf hnodup)

/-- A recorded pair across clusters couples them. -/
theorem PartitionedBy.coupledClusters_ne_nil {p : PairCoupling R} (hp : p ∈ m.pairs)
    (hapart : ¬ together clusters p.pair) : m.coupledClusters clusters ≠ [] := by
  have hwf := h.toWellFormed
  obtain ⟨-, hpos, hn, -⟩ := (mem_pairs hwf).mp hp
  rw [hn] at hpos
  obtain ⟨hfirst, hsecond⟩ := mem_classes_of_mem_pairs hwf hp
  obtain ⟨a, ha, hfirst⟩ := List.mem_flatMap.mp (hparts.perm.mem_iff.mpr hfirst)
  obtain ⟨b, hb, hsecond⟩ := List.mem_flatMap.mp (hparts.perm.mem_iff.mpr hsecond)
  have hab : a ≠ b := by
    rintro rfl
    exact hapart (together_iff.mpr ⟨a, ha, hfirst, hsecond⟩)
  rcases mem_pairsOf_or_swap ha hb hab with hmem | hmem
  · exact List.ne_nil_of_mem (mem_coupledClusters.mpr ⟨hmem, _, hfirst, _, hsecond, hpos⟩)
  · rw [pairCount_comm] at hpos
    exact List.ne_nil_of_mem (mem_coupledClusters.mpr ⟨hmem, _, hsecond, _, hfirst, hpos⟩)

/-- Coupled clusters have a recorded pair across them. -/
theorem PartitionedBy.exists_apart {a b : Cluster R} (hab : (a, b) ∈ m.coupledClusters clusters) :
    ∃ p ∈ (m.pairs : List (PairCoupling R)), ¬ together clusters p.pair := by
  have hnodup := hparts.nodup h.toWellFormed
  obtain ⟨hab, x, hx, y, hy, hpos⟩ := mem_coupledClusters.mp hab
  obtain ⟨p, hp, hxy⟩ := (exists_mem_pairs_iff (R := R) h.toWellFormed).mpr hpos
  refine ⟨p, hp, fun htogether => ?_⟩
  obtain ⟨c, hc, hfirst, hsecond⟩ := together_iff.mp htogether
  have hboth : x ∈ c.members ∧ y ∈ c.members := by
    rcases (ClassPair.of?_eq_some_iff.mp hxy).2 with ⟨rfl, rfl⟩ | ⟨rfl, rfl⟩
    · exact ⟨hfirst, hsecond⟩
    · exact ⟨hsecond, hfirst⟩
  -- The cluster of both would be either of two clusters without a common member.
  obtain ⟨ha, hb⟩ := mem_of_mem_pairsOf hab
  obtain rfl := eq_of_mem_of_nodup_flatMap hnodup hc ha hboth.1 hx
  obtain rfl := eq_of_mem_of_nodup_flatMap hnodup hc hb hboth.2 hy
  exact disjoint_of_mem_pairsOf hnodup hab hx hx

/-- Every recorded pair lies within a cluster if and only if no two clusters are coupled. -/
theorem PartitionedBy.forall_together_iff :
    (∀ p ∈ (m.pairs : List (PairCoupling R)), together clusters p.pair) ↔
      m.coupledClusters clusters = [] := by
  constructor
  · intro hall
    refine List.eq_nil_iff_forall_not_mem.mpr fun ⟨a, b⟩ hab => ?_
    obtain ⟨p, hp, hapart⟩ := hparts.exists_apart h hab
    exact hapart (hall p hp)
  · intro hnil p hp
    by_contra hapart
    exact hparts.coupledClusters_ne_nil h hp hapart hnil

end partitioned

section invocations

variable {events : List Event}

theorem sum_invocations_filter_le (p : PairCoupling Rat → Bool) :
    (((ofEvents events).pairs.filter p).map (·.invocations)).sum ≤ (ofEvents events).total := by
  rw [← sum_invocations (R := Rat) events]
  exact (List.filter_sublist.map _).sum_le_sum fun _ _ => Nat.zero_le _

/-- The invocations of some pairs are all if and only if the pairs are. -/
theorem sum_invocations_filter_eq_iff (p : PairCoupling Rat → Bool) :
    (((ofEvents events).pairs.filter p).map (·.invocations)).sum = (ofEvents events).total ↔
      ∀ q ∈ (ofEvents events).pairs, p q := by
  have hsum : (((ofEvents events).pairs.filter p).map (·.invocations)).sum +
      (((ofEvents events).pairs.filter fun q => ¬ p q).map (·.invocations)).sum =
      (ofEvents events).total := by
    rw [← sum_invocations (R := Rat) events]
    simpa only [Bool.decide_eq_true] using
      List.sum_map_filter_add_sum_map_filter_not (p ·) (·.invocations) (ofEvents events).pairs
  have hrest : (((ofEvents events).pairs.filter fun q => ¬ p q).map (·.invocations)).sum = 0 ↔
      ∀ q ∈ (ofEvents events).pairs, p q := by
    rw [List.sum_eq_zero_iff]
    constructor
    · intro hzero q hq
      by_contra hp
      have hpos := ((mem_pairs (ofEvents_wellFormed events)).mp hq).2.1
      have hnone := hzero _ (List.mem_map_of_mem (List.mem_filter.mpr ⟨hq, decide_eq_true hp⟩))
      omega
    · intro hall n hn
      obtain ⟨q, hq, rfl⟩ := List.mem_map.mp hn
      obtain ⟨hq, hnot⟩ := List.mem_filter.mp hq
      exact absurd (hall q hq) (of_decide_eq_true hnot)
  rw [← hrest]
  omega

theorem sum_weights_filter (p : PairCoupling Rat → Bool) :
    (((ofEvents events).pairs.filter p).map (·.weight)).sum =
      (((ofEvents events).pairs.filter p).map (·.invocations)).sum / (ofEvents events).total := by
  rw [Nat.cast_list_sum, List.map_map, div_eq_mul_inv, ← List.sum_map_mul_right]
  refine congrArg List.sum (List.map_congr_left fun q hq => ?_)
  rw [weight_eq_div (List.mem_of_mem_filter hq), div_eq_mul_inv]
  rfl

end invocations

/-! ### The figures of a summary -/

section figures

variable {clusters : List (Cluster Rat)}

theorem less_averageCoupling_iff (h : m.WellFormed) {a b : List String} :
    less zero (m.averageCoupling a b : Rat) ↔ 0 < m.recordedCount (crossPairs a b) := by
  rw [averageCoupling_eq_mean, ← length_weightsOf (R := Rat) h, List.length_pos_iff]
  constructor
  · intro hless hnil
    rw [hnil] at hless
    exact absurd hless (by decide)
  · intro hne
    have hpos : mean (m.weightsOf (crossPairs a b)) ∈ Set.Ioi (0 : Rat) := by
      refine Fraction.mean_mem Set.ordConnected_Ioi hne fun x hx => ?_
      obtain ⟨p, -, hp⟩ := List.mem_filterMap.mp hx
      obtain ⟨rfl, i, j, -⟩ := weight_eq_some h hp
      exact share_pos (Nat.pos_of_ne_zero fun hzero => by simp [weight_eq_share h, hzero] at hp)
    exact decide_eq_true hpos

theorem intraSum_eq (m : Matrix) (clusters : List (Cluster Rat)) (b : Bracketing) :
    Summary.intraSum (m.weightAt : Weights Rat) (clusters.map fun c => m.indexesOf c.members) b =
      (m.weightsOf (clusters.flatMap fun c => pairsOf c.members)).sum := by
  rw [Summary.intraSum, Fraction.bracketing_sum_eq, weightsOf_flatMap, List.sum_flatten,
    List.map_map, List.map_map]
  refine congrArg List.sum (List.map_congr_left fun c _ => ?_)
  show sumFrom zero (recorded m.weightAt (pairsOf (m.indexesOf c.members))) =
    (m.weightsOf (pairsOf c.members)).sum
  rw [indexesOf, pairsOf_filterMap, recorded_indexes, Fraction.sumFrom_eq]
  exact zero_add _

theorem interAverages_eq (h : m.WellFormed) (clusters : List (Cluster Rat)) :
    Summary.interAverages (m.weightAt : Weights Rat) (clusters.map fun c => m.indexesOf c.members) =
      (m.coupledClusters clusters).map fun c => m.averageCoupling c.1.members c.2.members := by
  rw [Summary.interAverages, pairsOf_map, List.map_map, List.filter_map, coupledClusters]
  refine congrArg (List.map _) (List.filter_congr fun c _ => ?_)
  rw [Bool.eq_iff_iff, decide_eq_true_iff]
  exact less_averageCoupling_iff h

theorem interCoupling_eq (h : m.WellFormed) (clusters : List (Cluster Rat)) (b : Bracketing) :
    (Summary.ofClusters m clusters b).interCoupling =
      ((m.coupledClusters clusters).map fun c => m.averageCoupling c.1.members c.2.members).sum /
        (m.coupledClusters clusters).length := by
  simp only [Summary.ofClusters, weightTable_get h, interAverages_eq h]
  cases m.coupledClusters clusters with
  | nil => exact (div_zero _).symm
  | cons c cs =>
    rw [List.map_cons, List.isEmpty_cons, if_neg Bool.false_ne_true, Fraction.sum_eq,
      List.length_cons, List.length_map]
    rfl

/-- Coupled clusters have an average coupling above zero, and so has the mean of some. -/
theorem interCoupling_eq_zero_iff (h : m.WellFormed) (clusters : List (Cluster Rat))
    (b : Bracketing) :
    (Summary.ofClusters m clusters b).interCoupling = 0 ↔ m.coupledClusters clusters = [] := by
  rw [interCoupling_eq h]
  constructor
  · intro hzero
    by_contra hne
    have hpos : ∀ x ∈ (m.coupledClusters clusters).map fun c =>
        (m.averageCoupling c.1.members c.2.members : Rat), 0 < x := by
      refine List.forall_mem_map.mpr fun c hc => ?_
      have hcoupled := (List.mem_filter.mp hc).2
      exact of_decide_eq_true ((less_averageCoupling_iff h).mpr (of_decide_eq_true hcoupled))
    have hsum := List.sum_pos _ hpos (by simpa using hne)
    have hlength : (0 : Rat) < (m.coupledClusters clusters).length :=
      Nat.cast_pos.mpr (List.length_pos_iff.mpr hne)
    exact (div_pos hsum hlength).ne' hzero
  · intro hnil
    rw [hnil]
    exact div_zero _

theorem intraWeight_eq (events : List Event) (hparts : (ofEvents events).PartitionedBy clusters)
    (b : Bracketing) : (Summary.ofClusters (ofEvents events) clusters b).intraWeight =
      (((ofEvents events).pairs.filter fun p : PairCoupling Rat => together clusters p.pair).map
        (·.invocations)).sum / (ofEvents events).total := by
  have h := ofEvents_canonical events
  have htotal : Scale.sum (((ofEvents events).pairs : List (PairCoupling Rat)).map
      PairCoupling.weight) = ((ofEvents events).pairs.map PairCoupling.weight).sum :=
    Fraction.sum_eq _
  simp only [← sum_weights_filter, Summary.ofClusters, weightTable_get h.toWellFormed, intraSum_eq,
    htotal]
  by_cases hne : (ofEvents events).pairTotal = 0
  · have hnil : ((ofEvents events).pairs : List (PairCoupling Rat)) = [] :=
      List.length_eq_zero_iff.mp ((length_pairs h.toWellFormed).trans hne)
    rw [hnil]
    rfl
  · have hone : less (zero : Rat) 1 := decide_eq_true zero_lt_one
    rw [sum_weights hne, if_pos hone, div_one]
    exact (hparts.weights_inside h).sum_eq

theorem intraWeight_eq_one_iff {events : List Event} (hne : (ofEvents events).pairTotal ≠ 0)
    (hparts : (ofEvents events).PartitionedBy clusters) (b : Bracketing) :
    (Summary.ofClusters (ofEvents events) clusters b).intraWeight = 1 ↔
      ∀ p ∈ ((ofEvents events).pairs : List (PairCoupling Rat)), together clusters p.pair := by
  have htotal : ((ofEvents events).total : Rat) ≠ 0 := by
    have := max_total_one hne
    rw [Nat.cast_ne_zero]
    omega
  rw [intraWeight_eq events hparts, div_eq_one_iff_eq htotal, Nat.cast_inj,
    sum_invocations_filter_eq_iff]

theorem classCount_eq (hparts : m.PartitionedBy clusters) (b : Bracketing) :
    (Summary.ofClusters m clusters b).classCount = m.classCount := by
  show (clusters.map Cluster.size).sum = m.classes.length
  rw [List.map_congr_left hparts.size_eq, ← List.length_flatMap, hparts.perm.length_eq]

/-- The mean of the sizes lies between the least and the greatest one. -/
theorem averageSize_bounds (m : Matrix) (hne : clusters ≠ []) (b : Bracketing) :
    ((Summary.ofClusters m clusters b).smallest : Rat) ≤
        (Summary.ofClusters m clusters b).averageSize ∧
      (Summary.ofClusters m clusters b).averageSize ≤
        (Summary.ofClusters m clusters b).largest := by
  have hlength : 0 < clusters.length := List.length_pos_iff.mpr hne
  have hpos : (0 : Rat) < clusters.length := Nat.cast_pos.mpr hlength
  have haverage : (Summary.ofClusters m clusters b).averageSize =
      ((clusters.map Cluster.size).sum : Rat) / clusters.length := by
    show ((clusters.map Cluster.size).sum : Rat) / ((max clusters.length 1 : Nat) : Rat) = _
    rw [max_eq_left hlength]
  have hsmallest := List.card_nsmul_le_sum (clusters.map Cluster.size) _
    fun n hn => List.min?_getD_le_of_mem (k := 0) hn
  have hlargest := List.sum_le_card_nsmul (clusters.map Cluster.size) _
    fun n hn => List.le_max?_getD_of_mem (k := 0) hn
  rw [List.length_map, smul_eq_mul, mul_comm] at hsmallest hlargest
  rw [haverage, le_div_iff₀ hpos, div_le_iff₀ hpos]
  exact ⟨by exact_mod_cast hsmallest, by exact_mod_cast hlargest⟩

end figures

section run

variable (h : m.WellFormed) (threshold : Rat) (centralCount : Nat)
include h

theorem partitionedBy_clusters : m.PartitionedBy (m.cluster threshold centralCount).clusters where
  perm := flatMap_members_perm threshold centralCount h
  size_eq _ hc := (cluster_nonempty threshold centralCount h hc).2

theorem two_le_averageSize (hclasses : 2 ≤ m.classCount) (b : Bracketing) :
    2 ≤ (Summary.ofClusters m (m.cluster threshold centralCount).clusters b).averageSize := by
  obtain ⟨hpos, hle⟩ := length_clusters_bounds threshold centralCount h hclasses
  have hsizes := sum_size threshold centralCount h
  show (2 : Rat) ≤ (((m.cluster threshold centralCount).clusters.map Cluster.size).sum : Nat) /
    ((max (m.cluster threshold centralCount).clusters.length 1 : Nat) : Rat)
  rw [hsizes, max_eq_left hpos, le_div_iff₀ (Nat.cast_pos.mpr hpos)]
  norm_cast
  omega

end run

/-- The summary of clusters that are a partition of the classes, such as those of a run. However its
sum is bracketed, the weight inside them is the share of the invocations between members of one
cluster, the coupling between them is the mean over the coupled ones, and either shows whether a
recorded pair crosses clusters. -/
theorem summary_of_partition (events : List Event) (bracketing : Bracketing) :
    let m := ofEvents events
    let pairs : List (PairCoupling Rat) := m.pairs
    (∀ clusters : List (Cluster Rat), m.PartitionedBy clusters →
      let s := Summary.ofClusters m clusters bracketing
      let inside := pairs.filter fun p => together clusters p.pair
      let coupled := m.coupledClusters clusters
      s.intraWeight = (inside.map (·.invocations)).sum / m.total ∧
      0 ≤ s.intraWeight ∧ s.intraWeight ≤ 1 ∧
      s.interCoupling =
        (coupled.map fun c => m.averageCoupling c.1.members c.2.members).sum / coupled.length ∧
      (m.pairTotal ≠ 0 →
        (s.intraWeight = 1 ↔ ∀ p ∈ pairs, together clusters p.pair) ∧
        ((∀ p ∈ pairs, together clusters p.pair) ↔ s.interCoupling = 0)) ∧
      s.classCount = m.classCount ∧
      (clusters ≠ [] → s.smallest ≤ s.averageSize ∧ s.averageSize ≤ s.largest)) ∧
    ∀ threshold centralCount,
      let clusters : List (Cluster Rat) := (m.cluster threshold centralCount).clusters
      m.PartitionedBy clusters ∧
        (2 ≤ m.classCount → 2 ≤ (Summary.ofClusters m clusters bracketing).averageSize) := by
  intro m pairs
  have h : m.Canonical := ofEvents_canonical events
  have hwf := h.toWellFormed
  refine ⟨fun clusters hparts => ?_, fun threshold centralCount =>
    ⟨partitionedBy_clusters hwf threshold centralCount,
      fun hclasses => two_le_averageSize hwf threshold centralCount hclasses bracketing⟩⟩
  intro s inside coupled
  have hintra : s.intraWeight = (inside.map (·.invocations)).sum / m.total :=
    intraWeight_eq events hparts bracketing
  refine ⟨hintra, ?_, ?_, interCoupling_eq hwf clusters bracketing, fun hne =>
    ⟨intraWeight_eq_one_iff hne hparts bracketing, ?_⟩, classCount_eq hparts bracketing,
    fun hne => averageSize_bounds m hne bracketing⟩
  · rw [hintra]
    positivity
  · rw [hintra]
    exact div_le_one_of_le₀ (Nat.cast_le.mpr (sum_invocations_filter_le _)) (Nat.cast_nonneg _)
  · rw [hparts.forall_together_iff h]
    exact (interCoupling_eq_zero_iff hwf clusters bracketing).symm

/-- A chain of four classes, cut in the middle. The two clusters are added by two workers. -/
theorem summary_of_partition_of_chain :
    let m := ofEvents [⟨"A", "B"⟩, ⟨"A", "B"⟩, ⟨"B", "C"⟩, ⟨"C", "D"⟩]
    let clusters : List (Cluster Rat) :=
      [⟨0, ["A", "B"], 2, 1 / 2, ["B", "A"]⟩, ⟨1, ["D", "C"], 2, 1 / 4, ["D", "C"]⟩]
    let s := Summary.ofClusters m clusters (.cut 1 .inOrder .inOrder)
    m.PartitionedBy clusters ∧ m.pairTotal ≠ 0 ∧ s.intraWeight = 3 / 4 ∧
      s.interCoupling = 1 / 4 ∧ ¬ (∀ p ∈ m.pairs (R := Rat), together clusters p.pair) ∧
      s.smallest ≤ s.averageSize ∧
      2 ≤ (Summary.ofClusters m (m.cluster (1 / 4 : Rat) 5).clusters
        (.cut 1 .inOrder .inOrder)).averageSize := by
  intro m clusters s
  have hparts : m.PartitionedBy clusters := ⟨by decide +kernel, by decide⟩
  have hne : m.pairTotal ≠ 0 := by decide +kernel
  have hclasses : 2 ≤ m.classCount := by decide +kernel
  have hinside : ((m.pairs.filter fun p : PairCoupling Rat => together clusters p.pair).map
      (·.invocations)).sum = 3 ∧ m.total = 4 := by decide +kernel
  have hcoupled : s.interCoupling = 1 / 4 := by decide +kernel
  obtain ⟨hsummary, hrun⟩ :=
    summary_of_partition [⟨"A", "B"⟩, ⟨"A", "B"⟩, ⟨"B", "C"⟩, ⟨"C", "D"⟩]
      (.cut 1 .inOrder .inOrder)
  obtain ⟨hintra, -, -, -, hcrossing, -, hsizes⟩ := hsummary clusters hparts
  rw [hinside.1, hinside.2] at hintra
  refine ⟨hparts, hne, hintra, hcoupled, fun hall => ?_, (hsizes (by decide)).1,
    (hrun (1 / 4) 5).2 hclasses⟩
  rw [(hcrossing hne).2.mp hall] at hcoupled
  exact absurd hcoupled (by norm_num)

end Matrix

end Linkage
