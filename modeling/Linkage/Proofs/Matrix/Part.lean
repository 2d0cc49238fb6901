import Linkage.Proofs.Cluster.Weighted
import Linkage.Proofs.Matrix.Events
import Linkage.Proofs.Matrix.Named

/-!
# Unrelated parts of a matrix

Events of two kinds that have no class in common make a matrix of two parts. No class of the one
part is coupled with a class of the other, and within a part all weights are those that the events
of this kind would have alone, times the share of these events in all of them.
-/

namespace Linkage.Matrix
open Scale

/-- The classes of `p` are some of those of `m`, not coupled with any others, and their weights are
a certain share of those in `p`. -/
structure PartOf (p m : Matrix) (ratio : Rat) : Prop where
  part : p.WellFormed
  whole : m.WellFormed
  ratio_pos : 0 < ratio
  classes_eq : m.classes.filter (p.classes.contains ·) = p.classes
  weight_eq : ∀ x ∈ p.classes, ∀ y ∈ p.classes,
    (m.weight x y : Option Rat) = (p.weight x y).map (· * ratio)
  apart : ∀ x ∈ p.classes, ∀ y ∉ p.classes, m.pairCount x y = 0

variable {p m : Matrix} {ratio : Rat} {a b : List String}

/-- Two groups within the part are coupled as strongly as they are in the part, times its share. -/
theorem PartOf.averageCoupling_eq (h : p.PartOf m ratio) (ha : a ⊆ p.classes)
    (hb : b ⊆ p.classes) : (m.averageCoupling a b : Rat) = p.averageCoupling a b * ratio := by
  have hweights : (m.weightsOf (crossPairs a b) : List Rat) =
      (p.weightsOf (crossPairs a b)).map (· * ratio) := by
    rw [weightsOf, weightsOf, List.map_filterMap]
    refine List.filterMap_congr fun q hq => ?_
    obtain ⟨hx, hy⟩ := mem_crossPairs.mp hq
    exact h.weight_eq q.1 (ha hx) q.2 (hb hy)
  rw [averageCoupling_eq_mean, averageCoupling_eq_mean, hweights, Fraction.mean_map_mul]

theorem PartOf.averageCoupling_div (h : p.PartOf m ratio) (ha : a ⊆ p.classes)
    (hb : b ⊆ p.classes) : (p.averageCoupling a b : Rat) = m.averageCoupling a b / ratio := by
  rw [h.averageCoupling_eq ha hb, mul_div_cancel_right₀ _ h.ratio_pos.ne']

theorem PartOf.averageCoupling_eq_zero (h : p.PartOf m ratio)
    (hab : a ⊆ p.classes ∧ b.Disjoint p.classes ∨ a.Disjoint p.classes ∧ b ⊆ p.classes) :
    (m.averageCoupling a b : Rat) = 0 := by
  have hweights : (m.weightsOf (crossPairs a b) : List Rat) = [] := by
    refine List.filterMap_eq_nil_iff.mpr fun q hq => ?_
    obtain ⟨hx, hy⟩ := mem_crossPairs.mp hq
    have hcount : m.pairCount q.1 q.2 = 0 := by
      rcases hab with ⟨ha, hb⟩ | ⟨ha, hb⟩
      · exact h.apart q.1 (ha hx) q.2 (hb hy)
      · rw [pairCount_comm]
        exact h.apart q.2 (hb hy) q.1 (ha hx)
    rw [weight_eq_share h.whole, if_pos hcount]
  rw [averageCoupling_eq_mean, hweights, Fraction.mean_nil]

section events

variable {left right events : List Event}
  (hdisjoint : (ofEvents left).classes.Disjoint (ofEvents right).classes)
  (hperm : events.Perm (left ++ right))
include hperm

theorem mem_classes_union (name : String) : name ∈ (ofEvents events).classes ↔
    name ∈ (ofEvents left).classes ∨ name ∈ (ofEvents right).classes := by
  simp only [mem_classes_ofEvents, hperm.mem_iff, List.mem_append]
  grind

theorem total_union :
    (ofEvents events).total = (ofEvents left).total + (ofEvents right).total := by
  rw [total_ofEvents, total_ofEvents, total_ofEvents, hperm.countP_eq, List.countP_append]

theorem pairCount_union (x y : String) : (ofEvents events).pairCount x y =
    (ofEvents left).pairCount x y + (ofEvents right).pairCount x y := by
  rw [pairCount_ofEvents, pairCount_ofEvents, pairCount_ofEvents, hperm.countP_eq,
    List.countP_append]
  split <;> rfl

include hdisjoint

theorem pairCount_of_mem_left {x : String} (hx : x ∈ (ofEvents left).classes) (y : String) :
    (ofEvents events).pairCount x y = (ofEvents left).pairCount x y := by
  rw [pairCount_union hperm, pairCount_eq_zero_of_not_mem (hdisjoint hx), Nat.add_zero]

theorem ofEvents_partOf (hpos : 0 < (ofEvents left).total) :
    (ofEvents left).PartOf (ofEvents events)
      ((ofEvents left).total / ((ofEvents left).total + (ofEvents right).total)) where
  part := ofEvents_wellFormed left
  whole := ofEvents_wellFormed events
  ratio_pos := by positivity
  classes_eq := by
    refine eq_of_sorted id ((ofEvents_wellFormed events).sorted.filter _)
      (ofEvents_wellFormed left).sorted fun name => ?_
    simpa [mem_classes_union hperm] using Or.inl
  weight_eq x hx y _ := by
    rw [weight_eq_share (ofEvents_wellFormed events), weight_eq_share (ofEvents_wellFormed left),
      pairCount_of_mem_left hdisjoint hperm hx]
    split
    · rfl
    · have hpart : max (ofEvents left).total 1 = (ofEvents left).total := by omega
      have hwhole : max (ofEvents events).total 1 =
          (ofEvents left).total + (ofEvents right).total := by
        rw [total_union hperm]
        omega
      rw [Option.map_some, share_eq, share_eq, hpart, hwhole, Nat.cast_add]
      have hne : ((ofEvents left).total : Rat) ≠ 0 := by positivity
      refine congrArg some ?_
      field_simp
  apart x hx y hy := by
    rw [pairCount_of_mem_left hdisjoint hperm hx, pairCount_comm,
      pairCount_eq_zero_of_not_mem hy]

end events

end Linkage.Matrix
