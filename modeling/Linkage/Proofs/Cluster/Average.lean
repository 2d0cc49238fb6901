import Linkage.Proofs.Matrix
import Linkage.Proofs.Ranking
import Linkage.Proofs.Scale.Magnitude

/-!
# Average couplings of groups

The average coupling between two groups, or inside one, is above zero if any pair of classes counts
in it, and zero otherwise. Of the numbers this takes only that the mean of some shares is positive.
Doubles have that property while the invocations fit a counter of 64 bits: with more of them the
share of a single invocation might be rounded to zero.
-/

namespace Linkage
open Scale

namespace Matrix

variable {m : Matrix} {R : Type} [Scale R]

/-- The mean of shares, of at most one for each two classes, is positive. -/
def MeansPositive (m : Matrix) (R : Type) [Scale R] : Prop :=
  ∀ xs : List R, xs ≠ [] → xs.length ≤ m.classCount ^ 2 →
    (∀ x ∈ xs, ∃ n, 0 < n ∧ m.share n = x) → less zero (mean xs)

theorem meansPositive_of_total_lt (h : m.WellFormed) (htotal : m.total < 2 ^ 64) :
    m.MeansPositive Float := by
  intro xs hne hlength hxs
  refine Double.mean_share_pos htotal hne ?_ fun x hx => ?_
  · have hclasses : m.classCount < 2 ^ 65 := by
      have hle := h.classCount_le
      omega
    calc xs.length ≤ m.classCount ^ 2 := hlength
      _ ≤ (2 ^ 65) ^ 2 := Nat.pow_le_pow_left (Nat.le_of_lt hclasses) 2
      _ < 2 ^ 256 := by decide
  · obtain ⟨n, hn, rfl⟩ := hxs x hx
    exact ⟨n, hn, rfl⟩

/-- Some class of the one group and some class of the other have invoked one another. -/
def Coupled (m : Matrix) (a b : Group) : Prop := ∃ i ∈ a, ∃ j ∈ b, m.HasPair i j

theorem mem_recorded (h : m.WellFormed) {pairs : List IndexPair} {x : R}
    (hx : x ∈ recorded m.weightAt pairs) : ∃ n, 0 < n ∧ m.share n = x := by
  obtain ⟨⟨i, j⟩, -, hp⟩ := List.mem_filterMap.mp hx
  obtain ⟨n, hn, rfl⟩ := (weightAt_eq_some h).mp hp
  exact ⟨n, h.count_pos _ hn, rfl⟩

theorem recorded_ne_nil_iff (h : m.WellFormed) {pairs : List IndexPair} :
    recorded (m.weightAt : Weights R) pairs ≠ [] ↔ ∃ p ∈ pairs, m.HasPair p.1 p.2 := by
  constructor
  · intro hne
    obtain ⟨x, hx⟩ := List.exists_mem_of_ne_nil _ hne
    obtain ⟨⟨i, j⟩, hp, hx⟩ := List.mem_filterMap.mp hx
    exact ⟨(i, j), hp, (exists_weightAt_iff h).mp ⟨x, hx⟩⟩
  · intro hex
    obtain ⟨⟨i, j⟩, hp, hpair⟩ := hex
    obtain ⟨x, hx⟩ := (exists_weightAt_iff (R := R) h).mpr hpair
    exact List.ne_nil_of_mem (List.mem_filterMap.mpr ⟨(i, j), hp, hx⟩)

theorem mean_recorded_pos (h : m.WellFormed) (hmeans : m.MeansPositive R) {pairs : List IndexPair}
    (hlength : pairs.length ≤ m.classCount ^ 2) (hp : ∃ p ∈ pairs, m.HasPair p.1 p.2) :
    less zero (mean (recorded (m.weightAt : Weights R) pairs)) :=
  hmeans _ ((recorded_ne_nil_iff h).mpr hp)
    (Nat.le_trans (List.length_filterMap_le ..) hlength) fun _ hx => mem_recorded h hx

section groups

variable (h : m.WellFormed) {a b members : Group}
include h

theorem average_of_not_coupled (hab : ¬ m.Coupled a b) :
    average (m.weightAt : Weights R) a b = zero := by
  have hnil : recorded (m.weightAt : Weights R) (crossPairs a b) = [] := by
    by_contra hne
    obtain ⟨⟨i, j⟩, hp, hpair⟩ := (recorded_ne_nil_iff h).mp hne
    obtain ⟨hi, hj⟩ := mem_crossPairs.mp hp
    exact hab ⟨i, hi, j, hj, hpair⟩
  rw [average, hnil]
  rfl

theorem coupled_of_average_pos [LawfulScale R]
    (hab : less zero (average (m.weightAt : Weights R) a b)) :
    m.Coupled a b := by
  by_contra hnot
  rw [average_of_not_coupled h hnot] at hab
  exact not_atMost_of_less hab LawfulScale.isNumber_zero

variable (hmeans : m.MeansPositive R)
include hmeans

theorem average_pos (ha : a.length ≤ m.classCount) (hb : b.length ≤ m.classCount)
    (hab : m.Coupled a b) : less zero (average (m.weightAt : Weights R) a b) := by
  obtain ⟨i, hi, j, hj, hpair⟩ := hab
  refine mean_recorded_pos h hmeans ?_ ⟨(i, j), mem_crossPairs.mpr ⟨hi, hj⟩, hpair⟩
  rw [length_crossPairs, Nat.pow_two]
  exact Nat.mul_le_mul ha hb

theorem cohesion_pos (hm : members.length ≤ m.classCount) {i j : Nat} (hi : i ∈ members)
    (hj : j ∈ members) (hpair : m.HasPair i j) :
    less zero (cohesion (m.weightAt : Weights R) members) := by
  refine mean_recorded_pos h hmeans ?_ ?_
  · exact Nat.le_trans (length_pairsOf_le _) (Nat.pow_le_pow_left hm 2)
  · rcases mem_pairsOf_or_swap hi hj (hpair.ne h) with hmem | hmem
    · exact ⟨(i, j), hmem, hpair⟩
    · exact ⟨(j, i), hmem, hpair.symm⟩

variable [LawfulScale R]

theorem average_isNumber (ha : a.length ≤ m.classCount) (hb : b.length ≤ m.classCount) :
    IsNumber (average (m.weightAt : Weights R) a b) := by
  by_cases hab : m.Coupled a b
  · exact less_isNumber_right (average_pos h hmeans ha hb hab)
  · rw [average_of_not_coupled h hab]
    exact LawfulScale.isNumber_zero

end groups

end Matrix

end Linkage
