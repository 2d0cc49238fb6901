import Linkage.Proofs.Cluster.Average
import Linkage.Proofs.Matrix.Named
import Linkage.Proofs.Scale.Fraction
import Linkage.Proofs.Tally

/-!
# Average couplings as fractions

Measured in fractions, the average coupling of two groups is the same in either order, and that of
two groups together to a third one lies between theirs, as it is a weighted mean of the two: each
counts as often as there are pairs with a weight. Pairs without a weight do not count, so the mean
is not weighted with the sizes of the groups.
-/

namespace Linkage
open Scale

namespace Matrix

variable {m : Matrix}

theorem share_eq (m : Matrix) (n : Nat) :
    (m.share n : Rat) = (n : Rat) / ((max m.total 1 : Nat) : Rat) := rfl

theorem share_pos {n : Nat} (hn : 0 < n) : 0 < (m.share n : Rat) := by
  have htotal : 0 < max m.total 1 := Nat.lt_of_lt_of_le Nat.zero_lt_one (Nat.le_max_right ..)
  rw [share_eq]
  exact div_pos (Nat.cast_pos.mpr hn) (Nat.cast_pos.mpr htotal)

theorem share_le_one {n : Nat} (hn : n ≤ m.total) : (m.share n : Rat) ≤ 1 := by
  have htotal : 0 < max m.total 1 := Nat.lt_of_lt_of_le Nat.zero_lt_one (Nat.le_max_right ..)
  rw [share_eq, div_le_one (Nat.cast_pos.mpr htotal)]
  exact Nat.cast_le.mpr (Nat.le_trans hn (Nat.le_max_left ..))

theorem average_le_one (h : m.WellFormed) (hcounts : ∀ e ∈ m.pairCounts, e.2 ≤ m.total)
    (a b : Group) : average (m.weightAt : Weights Rat) a b ≤ 1 := by
  by_cases hne : recorded (m.weightAt : Weights Rat) (crossPairs a b) = []
  · rw [average, hne, Fraction.mean_nil]
    exact zero_le_one
  · refine Fraction.mean_mem Set.ordConnected_Iic hne fun x hx => ?_
    obtain ⟨⟨i, j⟩, -, hp⟩ := List.mem_filterMap.mp hx
    obtain ⟨n, hn, rfl⟩ := (weightAt_eq_some h).mp hp
    exact share_le_one (hcounts _ hn)

theorem meansPositive_rat (m : Matrix) : m.MeansPositive Rat := by
  intro xs hne _ hxs
  have hpos : mean xs ∈ Set.Ioi (0 : Rat) := by
    refine Fraction.mean_mem Set.ordConnected_Ioi hne fun x hx => ?_
    obtain ⟨n, hn, rfl⟩ := hxs x hx
    exact share_pos hn
  exact decide_eq_true hpos

variable {a b : Group}

/-- The number of pairs of an index in `a` and one in `b` that have a weight. -/
def pairsBetween (m : Matrix) (a b : Group) : Nat :=
  (crossPairs a b).countP fun p => (m.weightAt p.1 p.2 : Option Rat).isSome

/-- The weights that an index in `a` and one in `b` have. -/
def weightsBetween (m : Matrix) (a b : Group) : Set Rat :=
  {x | ∃ i ∈ a, ∃ j ∈ b, m.weightAt i j = some x}

theorem length_recorded (m : Matrix) (a b : Group) :
    (recorded (m.weightAt : Weights Rat) (crossPairs a b)).length = m.pairsBetween a b :=
  List.length_filterMap_eq_countP

theorem pairsBetween_eq_zero_iff :
    m.pairsBetween a b = 0 ↔ recorded (m.weightAt : Weights Rat) (crossPairs a b) = [] := by
  rw [← length_recorded, List.length_eq_zero_iff]

theorem mem_recorded_crossPairs {x : Rat} :
    x ∈ recorded m.weightAt (crossPairs a b) ↔ x ∈ m.weightsBetween a b := by
  rw [recorded, List.mem_filterMap]
  constructor
  · rintro ⟨⟨i, j⟩, hp, hx⟩
    obtain ⟨hi, hj⟩ := mem_crossPairs.mp hp
    exact ⟨i, hi, j, hj, hx⟩
  · rintro ⟨i, hi, j, hj, hx⟩
    exact ⟨(i, j), mem_crossPairs.mpr ⟨hi, hj⟩, hx⟩

theorem average_mul_pairsBetween (m : Matrix) (a b : Group) :
    average (m.weightAt : Weights Rat) a b * m.pairsBetween a b =
      (recorded m.weightAt (crossPairs a b)).sum := by
  rw [average, ← length_recorded, Fraction.mean_mul_length]

theorem average_perm {a' b' : Group} (ha : a'.Perm a) (hb : b'.Perm b) :
    average (m.weightAt : Weights Rat) a' b' = average m.weightAt a b :=
  Fraction.mean_perm ((crossPairs_perm ha hb).filterMap _)

theorem recorded_swap {R : Type} [Scale R] (m : Matrix) (pairs : List IndexPair) :
    recorded (m.weightAt : Weights R) (pairs.map Prod.swap) = recorded m.weightAt pairs := by
  rw [recorded, recorded, List.filterMap_map]
  exact congrArg (List.filterMap · pairs) (funext fun p => m.weightAt_comm p.2 p.1)

theorem average_comm (m : Matrix) (a b : Group) :
    average (m.weightAt : Weights Rat) a b = average m.weightAt b a := by
  rw [average, average, ← recorded_swap m (crossPairs a b)]
  exact Fraction.mean_perm ((crossPairs_swap_perm a b).filterMap _)

theorem average_append_mem {w : Weights Rat} {a b c : Group} {s : Set Rat} (hs : s.OrdConnected)
    (ha : average w a c ∈ s) (hb : average w b c ∈ s) : average w (a ++ b) c ∈ s := by
  rw [average, crossPairs_append, recorded, List.filterMap_append]
  exact Fraction.mean_append_mem hs ha hb

theorem pairsBetween_append (m : Matrix) (a b c : Group) :
    m.pairsBetween (a ++ b) c = m.pairsBetween a c + m.pairsBetween b c := by
  rw [pairsBetween, crossPairs_append, List.countP_append]
  rfl

theorem recorded_append (w : Weights Rat) (pairs others : List IndexPair) :
    recorded w (pairs ++ others) = recorded w pairs ++ recorded w others := List.filterMap_append

/-- The average coupling is not linear in the groups, but its product with the number of pairs is
the sum of their weights. -/
theorem average_append_mul (m : Matrix) (a b c : Group) :
    average (m.weightAt : Weights Rat) (a ++ b) c * (m.pairsBetween a c + m.pairsBetween b c) =
      average m.weightAt a c * m.pairsBetween a c +
        average m.weightAt b c * m.pairsBetween b c := by
  calc average (m.weightAt : Weights Rat) (a ++ b) c * (m.pairsBetween a c + m.pairsBetween b c)
      = average m.weightAt (a ++ b) c * m.pairsBetween (a ++ b) c := by
        rw [pairsBetween_append, Nat.cast_add]
    _ = (recorded m.weightAt (crossPairs (a ++ b) c)).sum := average_mul_pairsBetween ..
    _ = (recorded m.weightAt (crossPairs a c)).sum +
          (recorded m.weightAt (crossPairs b c)).sum := by
        rw [crossPairs_append, recorded_append, List.sum_append]
    _ = average m.weightAt a c * m.pairsBetween a c +
          average m.weightAt b c * m.pairsBetween b c := by
        rw [average_mul_pairsBetween, average_mul_pairsBetween]

theorem average_mem {s : Set Rat} (hs : s.OrdConnected) (hpairs : m.pairsBetween a b ≠ 0)
    (hweights : m.weightsBetween a b ⊆ s) : average m.weightAt a b ∈ s := by
  rw [Ne, pairsBetween_eq_zero_iff] at hpairs
  exact Fraction.mean_mem hs hpairs fun x hx => hweights (mem_recorded_crossPairs.mp hx)

theorem weightsBetween_pos (h : m.WellFormed) (a b : Group) :
    m.weightsBetween a b ⊆ Set.Ioi 0 := by
  rintro x ⟨i, -, j, -, hx⟩
  obtain ⟨n, hn, rfl⟩ := (weightAt_eq_some h).mp hx
  exact share_pos (h.count_pos _ hn)

theorem average_eq_zero_iff (h : m.WellFormed) :
    average (m.weightAt : Weights Rat) a b = 0 ↔ m.pairsBetween a b = 0 := by
  constructor
  · intro hzero
    by_contra hpairs
    have hpos := average_mem Set.ordConnected_Ioi hpairs (weightsBetween_pos h a b)
    exact absurd hzero (ne_of_gt hpos)
  · intro hpairs
    rw [average, pairsBetween_eq_zero_iff.mp hpairs, Fraction.mean_nil]

theorem average_between_weights (hpairs : m.pairsBetween a b ≠ 0) :
    ∃ low high, IsLeast (m.weightsBetween a b) low ∧ IsGreatest (m.weightsBetween a b) high ∧
      low ≤ average m.weightAt a b ∧ average m.weightAt a b ≤ high := by
  have hweights : ↑(recorded (m.weightAt : Weights Rat) (crossPairs a b)).toFinset =
      m.weightsBetween a b := by
    rw [List.coe_toFinset]
    exact Set.ext fun x => mem_recorded_crossPairs
  have hne : (recorded (m.weightAt : Weights Rat) (crossPairs a b)).toFinset.Nonempty :=
    (List.toFinset_nonempty_iff _).mpr fun hnil => hpairs (pairsBetween_eq_zero_iff.mpr hnil)
  have hlow := Finset.isLeast_min' _ hne
  have hhigh := Finset.isGreatest_max' _ hne
  rw [hweights] at hlow hhigh
  have hmem := average_mem Set.ordConnected_Icc hpairs fun x hx => ⟨hlow.2 hx, hhigh.2 hx⟩
  exact ⟨_, _, hlow, hhigh, hmem.1, hmem.2⟩

/-- Average couplings of any lists of indexes, weighted with their pairs, add up. They depend
neither on the order of the two lists nor on that of the indexes, are zero only without a pair, and
lie among the weights of the pairs otherwise. Those of names are those of the indexes that the known
names have. -/
theorem average_weighted_by_pairs (events : List Event) (a b c : Group)
    (names others : List String) :
    let m := ofEvents events
    let coupling := average (m.weightAt : Weights Rat)
    coupling (a ++ b) c * (m.pairsBetween a c + m.pairsBetween b c) =
        coupling a c * m.pairsBetween a c + coupling b c * m.pairsBetween b c ∧
      coupling a c = coupling c a ∧
      (∀ a' c', a'.Perm a → c'.Perm c → coupling a' c' = coupling a c) ∧
      (coupling a c = 0 ↔ m.pairsBetween a c = 0) ∧
      (m.pairsBetween a c ≠ 0 → ∃ low high, IsLeast (m.weightsBetween a c) low ∧
        IsGreatest (m.weightsBetween a c) high ∧ low ≤ coupling a c ∧ coupling a c ≤ high) ∧
      m.averageCoupling names others = coupling (m.indexesOf names) (m.indexesOf others) ∧
      (m.indexesOf names).map m.class? = (names.filter (· ∈ m.classes)).map some ∧
      m.averageCoupling (names.filter (· ∈ m.classes)) (others.filter (· ∈ m.classes)) =
        (m.averageCoupling names others : Rat) := by
  intro m coupling
  have h : m.WellFormed := ofEvents_wellFormed events
  exact ⟨average_append_mul m a b c, average_comm m a c, fun _ _ => average_perm,
    average_eq_zero_iff h, average_between_weights, rfl, map_class?_indexesOf h names,
    averageCoupling_filter m names others⟩

theorem average_weighted_by_pairs_of_chain :
    let m := ofEvents [⟨"A", "B"⟩, ⟨"A", "B"⟩, ⟨"B", "C"⟩, ⟨"C", "D"⟩]
    let coupling := average (m.weightAt : Weights Rat)
    m.pairsBetween [1, 9] [0, 2] = 2 ∧ m.pairsBetween [3, 3] [0, 2] = 2 ∧
      coupling ([1, 9] ++ [3, 3]) [0, 2] * (2 + 2) = 3 / 8 * 2 + 1 / 4 * 2 ∧
      coupling [9, 1] [2, 0] = 3 / 8 ∧
      (∃ low high, IsLeast (m.weightsBetween [1, 9] [0, 2]) low ∧
        IsGreatest (m.weightsBetween [1, 9] [0, 2]) high ∧ low ≤ 3 / 8 ∧ 3 / 8 ≤ high) ∧
      (m.averageCoupling ["B", "Y"] ["A", "C"] : Rat) = 3 / 8 := by
  intro m coupling
  obtain ⟨hadd, -, hperm, -, hbounds, hnames, -⟩ := average_weighted_by_pairs
    [⟨"A", "B"⟩, ⟨"A", "B"⟩, ⟨"B", "C"⟩, ⟨"C", "D"⟩] [1, 9] [3, 3] [0, 2] ["B", "Y"] ["A", "C"]
  have hpairs : m.pairsBetween [1, 9] [0, 2] = 2 := by decide +kernel
  have hpairs' : m.pairsBetween [3, 3] [0, 2] = 2 := by decide +kernel
  have hcoupling : coupling [1, 9] [0, 2] = 3 / 8 := by decide +kernel
  have hcoupling' : coupling [3, 3] [0, 2] = 1 / 4 := by decide +kernel
  have hindexes : m.indexesOf ["B", "Y"] = [1] := by decide +kernel
  have hindexes' : m.indexesOf ["A", "C"] = [0, 2] := by decide +kernel
  refine ⟨hpairs, hpairs', ?_, ?_, ?_, ?_⟩
  · rw [hpairs, hpairs'] at hadd
    rw [← hcoupling, ← hcoupling']
    exact hadd
  · exact (hperm [9, 1] [2, 0] (by decide) (by decide)).trans hcoupling
  · rw [← hcoupling]
    exact hbounds (by rw [hpairs]; decide)
  · rw [hnames, hindexes, hindexes']
    decide +kernel

end Matrix

end Linkage
