import Linkage.Proofs.Matrix.Canonical
import Linkage.Proofs.Ranking

/-!
# Weights by name

The weight of two classes is the share of their count. The average coupling of groups of names and
the cohesion of a group are means of weights: of those pairs of names that were recorded.
-/

namespace Linkage
open Scale

namespace Matrix

variable {R : Type} [Scale R] {m : Matrix}

theorem pairCount_eq_zero_of_not_mem {x y : String} (hx : x ∉ m.classes) :
    m.pairCount x y = 0 := by
  rw [pairCount, indexOf?, List.idxOf?_eq_none_iff.mpr hx]

/-- The indexes of some names are those of the known ones among them, in the same order. -/
theorem map_class?_indexesOf (h : m.WellFormed) (names : List String) :
    (m.indexesOf names).map m.class? = (names.filter (· ∈ m.classes)).map some := by
  induction names with
  | nil => rfl
  | cons name names ih =>
    cases hname : m.indexOf? name with
    | none =>
      have hmem : name ∉ m.classes := List.idxOf?_eq_none_iff.mp hname
      rw [indexesOf, List.filterMap_cons_none hname, List.filter_cons_of_neg (by simpa using hmem)]
      exact ih
    | some i =>
      have hclass := (indexOf?_eq_some_iff h).mp hname
      have hmem : name ∈ m.classes := List.mem_of_getElem? hclass
      rw [indexesOf, List.filterMap_cons_some hname, List.filter_cons_of_pos (by simpa using hmem),
        List.map_cons, List.map_cons, hclass]
      exact congrArg (some name :: ·) ih

theorem indexesOf_filter (m : Matrix) (names : List String) :
    m.indexesOf (names.filter (· ∈ m.classes)) = m.indexesOf names := by
  rw [indexesOf, indexesOf, List.filterMap_filter]
  refine List.filterMap_congr fun name _ => ?_
  split
  · rfl
  · rename_i hname
    exact (List.idxOf?_eq_none_iff.mpr (by simpa using hname)).symm

theorem weight_eq_share (h : m.WellFormed) (x y : String) : (m.weight x y : Option R) =
    if m.pairCount x y = 0 then none else some (m.share (m.pairCount x y)) := by
  cases hx : m.indexOf? x with
  | none => simp [weight, pairCount, hx]
  | some i =>
    cases hy : m.indexOf? y with
    | none => simp [weight, pairCount, hx, hy]
    | some j =>
      simp only [weight, pairCount, hx, hy, weightAt, Option.bind_eq_bind, Option.bind_some]
      split
      · rfl
      · cases hn : m.pairCounts.lookup (indexKey i j) with
        | none => rfl
        | some n =>
          have hpos := h.count_pos _ ((lookup_eq_some_iff_mem h.keys_nodup _ _).mp hn)
          simp [Nat.ne_of_gt hpos]

/-- The weights of those pairs of names that have one. -/
def weightsOf (m : Matrix) (pairs : List (String × String)) : List R :=
  pairs.filterMap fun p => m.weight p.1 p.2

/-- The number of recorded pairs among some. -/
def recordedCount (m : Matrix) (pairs : List (String × String)) : Nat :=
  pairs.countP fun p => 0 < m.pairCount p.1 p.2

theorem length_weightsOf (h : m.WellFormed) (pairs : List (String × String)) :
    (m.weightsOf pairs : List R).length = m.recordedCount pairs := by
  rw [weightsOf, List.length_filterMap_eq_countP, recordedCount]
  refine List.countP_congr fun p _ => ?_
  rw [weight_isSome_iff h, decide_eq_true_iff]

theorem weightsOf_flatMap {α : Type} (m : Matrix) (xs : List α)
    (f : α → List (String × String)) :
    (m.weightsOf (xs.flatMap f) : List R) = (xs.map fun x => m.weightsOf (f x)).flatten := by
  rw [weightsOf, List.filterMap_flatMap, List.flatMap_def]
  rfl

theorem recorded_indexes (m : Matrix) (pairs : List (String × String)) :
    recorded (m.weightAt : Weights R) (pairs.filterMap (findBoth m.indexOf?)) =
      m.weightsOf pairs := by
  rw [recorded, List.filterMap_filterMap, weightsOf]
  congr 1
  funext p
  unfold weight findBoth
  cases m.indexOf? p.1 <;> cases m.indexOf? p.2 <;> rfl

theorem averageCoupling_eq_mean (m : Matrix) (a b : List String) :
    (m.averageCoupling a b : R) = mean (m.weightsOf (crossPairs a b)) := by
  rw [averageCoupling, average, indexesOf, indexesOf, crossPairs_filterMap, recorded_indexes]

/-- Names that are no classes have no effect. -/
theorem averageCoupling_filter (m : Matrix) (a b : List String) :
    (m.averageCoupling (a.filter (· ∈ m.classes)) (b.filter (· ∈ m.classes)) : R) =
      m.averageCoupling a b := by
  rw [averageCoupling, averageCoupling, indexesOf_filter, indexesOf_filter]

theorem cohesion_eq_mean (m : Matrix) (members : List String) :
    cohesion (m.weightAt : Weights R) (m.indexesOf members) =
      mean (m.weightsOf (pairsOf members)) := by
  rw [cohesion, indexesOf, pairsOf_filterMap, recorded_indexes]

end Matrix

end Linkage
