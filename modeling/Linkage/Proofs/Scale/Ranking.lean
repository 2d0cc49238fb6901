import Linkage.Proofs.Ranking.Sorted
import Linkage.Proofs.Scale.Order

/-!
# The order for rankings

Scales whose order for rankings is a linear one. That of all doubles is: it compares their bits,
read as numbers after those of the negative ones are turned over.
-/

namespace Linkage
open Scale

/-- All values can be ranked, and no two of them alike. -/
class LinearScale (R : Type) [Scale R] : Prop where
  ranks_total (x y : R) : ranksUpTo x y ∨ ranksUpTo y x
  ranks_trans (x y z : R) : ranksUpTo x y → ranksUpTo y z → ranksUpTo x z
  ranks_antisymm (x y : R) : ranksUpTo x y → ranksUpTo y x → x = y

namespace Scale

variable {R : Type} [Scale R] [LinearScale R]

theorem ranksUpTo_refl (x : R) : ranksUpTo x x := (LinearScale.ranks_total x x).elim id id

/-- Elements are ranked by a value from the greatest down. -/
theorem isRanking_descending {α : Type} (value : α → R) :
    IsRanking fun a b => ranksUpTo (value b) (value a) :=
  ⟨fun a b => LinearScale.ranks_total (value b) (value a),
    fun _ _ _ hab hbc => LinearScale.ranks_trans _ _ _ hbc hab⟩

end Scale

theorem doubleRank_injective : Function.Injective doubleRank := by
  intro x y h
  have hx : x.toBits.toNat < 2 ^ 64 := x.toBits.toNat_lt
  have hy : y.toBits.toNat < 2 ^ 64 := y.toBits.toNat_lt
  have hbits : x.toBits.toNat = y.toBits.toNat := by
    simp only [doubleRank, Nat.pow_eq] at h
    split at h <;> split at h <;> omega
  obtain ⟨⟨bits, hvalid⟩⟩ := x
  obtain ⟨⟨bits', hvalid'⟩⟩ := y
  obtain rfl : bits = bits' := UInt64.toNat_inj.mp hbits
  rfl

instance : LinearScale Float where
  ranks_total x y := by
    simp only [ranksUpTo, decide_eq_true_eq]
    exact Nat.le_total (doubleRank x) (doubleRank y)
  ranks_trans x y z h h' := by
    simp only [ranksUpTo, decide_eq_true_eq] at *
    exact h.trans h'
  ranks_antisymm x y h h' := by
    simp only [ranksUpTo, decide_eq_true_eq] at *
    exact doubleRank_injective (h.antisymm h')

end Linkage
