import Linkage.Proofs.Cluster.Weighted
import Linkage.Proofs.Matrix.Events
import Linkage.Proofs.Matrix.Named

/-!
# Matrices of repeated events

Repeating all events multiplies every count of the matrix, the total among them. Weights are shares
of the total, so in fractions they stay the same.
-/

namespace Linkage

theorem countP_flatten_replicate {α : Type} (p : α → Bool) (k : Nat) (l : List α) :
    (List.replicate k l).flatten.countP p = k * l.countP p := by
  rw [List.countP_flatten, List.map_replicate, List.sum_replicate, smul_eq_mul]

theorem mem_flatten_replicate {α : Type} {k : Nat} (hk : 1 ≤ k) {l : List α} {x : α} :
    x ∈ (List.replicate k l).flatten ↔ x ∈ l := by
  simp [List.mem_flatten, List.mem_replicate, Nat.one_le_iff_ne_zero.mp hk]

def PairCoupling.repeated {R : Type} (k : Nat) (p : PairCoupling R) : PairCoupling R :=
  { p with invocations := k * p.invocations }

namespace Matrix

/-- The matrix that has counted everything `k` times. -/
def repeated (k : Nat) (m : Matrix) : Matrix :=
  { m with
    pairCounts := m.pairCounts.map fun e => (e.1, k * e.2)
    callCounts := m.callCounts.map fun e => (e.1, k * e.2)
    total := k * m.total }

variable {m : Matrix} {k : Nat}

theorem pairCount_repeated (m : Matrix) (k : Nat) (x y : String) :
    (m.repeated k).pairCount x y = k * m.pairCount x y := by
  have hindex : (m.repeated k).indexOf? = m.indexOf? := rfl
  rw [pairCount, pairCount, hindex]
  cases m.indexOf? x with
  | none => rfl
  | some i =>
    cases m.indexOf? y with
    | none => rfl
    | some j =>
      simp only [repeated, lookup_map_snd, mul_ite, Nat.mul_zero]
      cases m.pairCounts.lookup (indexKey i j) <;> rfl

theorem directedCount_repeated (m : Matrix) (k : Nat) (x y : String) :
    (m.repeated k).directedCount x y = k * m.directedCount x y := by
  have hindex : (m.repeated k).indexOf? = m.indexOf? := rfl
  rw [directedCount, directedCount, hindex]
  cases m.indexOf? x with
  | none => rfl
  | some i =>
    cases m.indexOf? y with
    | none => rfl
    | some j =>
      simp only [repeated, lookup_map_snd]
      cases m.callCounts.lookup (i, j) <;> rfl

theorem Canonical.repeated (h : m.Canonical) (hk : 1 ≤ k) : (m.repeated k).Canonical where
  sorted := h.sorted
  keys_nodup := by
    rw [Matrix.repeated, List.map_map]
    exact h.keys_nodup
  key_lt := List.forall_mem_map.mpr h.key_lt
  count_pos := List.forall_mem_map.mpr fun e he => Nat.mul_pos hk (h.count_pos e he)
  covered i hi := by
    obtain ⟨e, he, hei⟩ := h.covered i hi
    exact ⟨_, List.mem_map_of_mem he, hei⟩
  classCount_le := h.classCount_le.trans
    (Nat.mul_le_mul_left 2 (Nat.le_mul_of_pos_left m.total hk))
  pairs_sorted := List.pairwise_map.mpr h.pairs_sorted
  calls_sorted := List.pairwise_map.mpr h.calls_sorted
  call_lt := List.forall_mem_map.mpr h.call_lt
  call_pos := List.forall_mem_map.mpr fun e he => Nat.mul_pos hk (h.call_pos e he)

theorem ofEvents_repeated (events : List Event) (hk : 1 ≤ k) :
    ofEvents (List.replicate k events).flatten = (ofEvents events).repeated k := by
  have h := ofEvents_canonical (List.replicate k events).flatten
  have h' := (ofEvents_canonical events).repeated hk
  refine eq_of_counts h h' (classes_eq h.toWellFormed h'.toWellFormed fun name => ?_)
    (fun x y => ?_) (fun x y => ?_) ?_
  · refine (mem_classes_ofEvents name).trans ((mem_classes_ofEvents name).trans ?_).symm
    simp only [mem_flatten_replicate hk]
  · rw [pairCount_repeated, pairCount_ofEvents, pairCount_ofEvents, countP_flatten_replicate,
      mul_ite, Nat.mul_zero]
  · rw [directedCount_repeated, directedCount_ofEvents, directedCount_ofEvents,
      List.count_eq_countP, countP_flatten_replicate, mul_ite, Nat.mul_zero,
      List.count_eq_countP]
  · refine (total_ofEvents _).trans ?_
    rw [countP_flatten_replicate, ← total_ofEvents]
    rfl

theorem share_repeated (hk : 1 ≤ k) (htotal : 0 < m.total) (n : Nat) :
    ((m.repeated k).share (k * n) : Rat) = m.share n := by
  have hpos : 0 < k * m.total := Nat.mul_pos hk htotal
  have hmax : max (m.repeated k).total 1 = k * m.total := Nat.max_eq_left hpos
  have hkne : (k : Rat) ≠ 0 := Nat.cast_ne_zero.mpr (Nat.ne_of_gt hk)
  rw [share_eq, share_eq, hmax, Nat.max_eq_left htotal, Nat.cast_mul, Nat.cast_mul,
    mul_div_mul_left _ _ hkne]

section weights

variable (h : m.Canonical) (hk : 1 ≤ k)
include h

theorem Canonical.total_pos (hclasses : 0 < m.classCount) : 0 < m.total := by
  have hle := h.classCount_le
  omega

include hk

theorem share_entry_repeated {e : IndexPair × Nat} (he : e ∈ m.pairCounts) :
    ((m.repeated k).share (k * e.2) : Rat) = m.share e.2 :=
  share_repeated hk (h.total_pos (Nat.zero_lt_of_lt (h.key_lt e he).2)) e.2

theorem weightTable_repeated :
    ((m.repeated k).weightTable : WeightTable Rat) = m.weightTable := by
  rw [weightTable, weightTable, repeated, List.map_map]
  refine congrArg (fun l => WeightTable.mk (Std.TreeMap.ofList l IndexPair.compare)) ?_
  exact List.map_congr_left fun e he => congrArg (Prod.mk e.1) (share_entry_repeated h hk he)

theorem pairs_repeated : ((m.repeated k).pairs : List (PairCoupling Rat)) =
    m.pairs.map (PairCoupling.repeated k) := by
  have hclass : (m.repeated k).class? = m.class? := rfl
  rw [pairs, pairs, List.map_filterMap, hclass, repeated, List.filterMap_map]
  refine List.filterMap_congr fun e he => ?_
  have hshare := share_entry_repeated h hk he
  obtain ⟨⟨i, j⟩, n⟩ := e
  cases hi : m.class? i with
  | none => simp [hi]
  | some x =>
    cases hj : m.class? j with
    | none => simp [hi, hj]
    | some y =>
      cases hpair : ClassPair.of? x y with
      | none => simp [hi, hj, hpair]
      | some pair =>
        simp only [Function.comp_apply, hi, hj, hpair, Option.bind_eq_bind, Option.bind_some]
        exact congrArg (fun w => some (PairCoupling.mk pair (k * n) w)) hshare

theorem weight_repeated (x y : String) :
    ((m.repeated k).weight x y : Option Rat) = m.weight x y := by
  rw [weight_eq_share (h.repeated hk).toWellFormed, weight_eq_share h.toWellFormed,
    pairCount_repeated]
  by_cases hzero : m.pairCount x y = 0
  · rw [hzero, Nat.mul_zero]
    rfl
  · have hmem : x ∈ m.classes := by
      by_contra hx
      exact hzero (pairCount_eq_zero_of_not_mem hx)
    rw [if_neg hzero, if_neg (Nat.mul_ne_zero (Nat.ne_of_gt hk) hzero),
      share_repeated hk (h.total_pos (List.length_pos_of_mem hmem))]

end weights

end Matrix

end Linkage
