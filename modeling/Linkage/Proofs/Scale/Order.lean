import Linkage.Scale
import Mathlib

/-!
# The order of a scale

The laws that the comparisons of a scale obey. Among the values there may be some that are not
even comparable to themselves, such as the NaN of the doubles; all the others are numbers, and the
comparisons are a total preorder on the numbers. Doubles are lawful because comparing two of them
is comparing their places in a linear order.
-/

namespace Linkage
open Float.Model (UnpackedFloat)

/-- A value that is comparable to itself. -/
def Scale.IsNumber {R : Type} [Scale R] (x : R) : Prop := Scale.atMost x x = true

/-- The comparisons are a total preorder of the numbers, and compare nothing else. -/
class LawfulScale (R : Type) [Scale R] : Prop where
  isNumber_of_atMost {x y : R} : Scale.atMost x y → Scale.IsNumber x ∧ Scale.IsNumber y
  atMost_trans {x y z : R} : Scale.atMost x y → Scale.atMost y z → Scale.atMost x z
  atMost_total {x y : R} : Scale.IsNumber x → Scale.IsNumber y →
    Scale.atMost x y ∨ Scale.atMost y x
  less_iff {x y : R} : Scale.less x y ↔
    Scale.IsNumber x ∧ Scale.IsNumber y ∧ ¬ Scale.atMost y x
  isNumber_zero : Scale.IsNumber (Scale.zero : R)

namespace Scale

variable {R : Type} [Scale R] [LawfulScale R] {x y z : R}

theorem less_isNumber_right (h : less x y) : IsNumber y := (LawfulScale.less_iff.mp h).2.1

theorem atMost_of_less (h : less x y) : atMost x y := by
  obtain ⟨hx, hy, hn⟩ := LawfulScale.less_iff.mp h
  exact (LawfulScale.atMost_total hx hy).resolve_right hn

theorem atMost_of_not_less (hx : IsNumber x) (hy : IsNumber y) (h : ¬ less x y) : atMost y x := by
  by_contra hn
  exact h (LawfulScale.less_iff.mpr ⟨hx, hy, hn⟩)

theorem not_atMost_of_less (h : less x y) : ¬ atMost y x := (LawfulScale.less_iff.mp h).2.2

theorem less_of_less_of_atMost (h : less x y) (h' : atMost y z) : less x z := by
  obtain ⟨hx, _, hn⟩ := LawfulScale.less_iff.mp h
  refine LawfulScale.less_iff.mpr ⟨hx, (LawfulScale.isNumber_of_atMost h').2, fun hzx => ?_⟩
  exact hn (LawfulScale.atMost_trans h' hzx)

theorem less_of_atMost_of_less (h : atMost x y) (h' : less y z) : less x z := by
  obtain ⟨_, hz, hn⟩ := LawfulScale.less_iff.mp h'
  refine LawfulScale.less_iff.mpr ⟨(LawfulScale.isNumber_of_atMost h).1, hz, fun hzx => ?_⟩
  exact hn (LawfulScale.atMost_trans hzx h)

end Scale

instance : LawfulScale Rat where
  isNumber_of_atMost {x y} _ := by simp [Scale.IsNumber, Scale.atMost]
  atMost_trans {x y z} h h' := by
    simp only [Scale.atMost, decide_eq_true_eq] at *
    exact h.trans h'
  atMost_total {x y} _ _ := by
    simp only [Scale.atMost, decide_eq_true_eq]
    exact le_total x y
  less_iff {x y} := by simp [Scale.IsNumber, Scale.less, Scale.atMost]
  isNumber_zero := by simp [Scale.IsNumber, Scale.atMost]

namespace Double

/-- A linear order in which all doubles but NaN have a place: first the kind of the value, then
the exponent, then the mantissa. The two zeros share theirs. -/
def place? : UnpackedFloat → Option (ℤ ×ₗ ℤ ×ₗ ℤ)
  | .notANumber => none
  | .infinity .negative => some (toLex (-2, toLex (0, 0)))
  | .finite .negative m e _ => some (toLex (-1, toLex (-e, -m)))
  | .zero _ => some (toLex (0, toLex (0, 0)))
  | .finite .positive m e _ => some (toLex (1, toLex (e, m)))
  | .infinity .positive => some (toLex (2, toLex (0, 0)))

theorem compare_natCast (m n : ℕ) : compare (m : ℤ) (n : ℤ) = compare m n := by
  simp only [compare, compareOfLessAndEq, Int.ofNat_lt, Int.ofNat_inj]

theorem compare_neg (e f : ℤ) : compare (-e) (-f) = (compare e f).swap := by
  have hswap : (compare e f).swap = compare f e := Std.OrientedCmp.eq_swap.symm
  rw [hswap]
  simp only [compare, compareOfLessAndEq, neg_lt_neg_iff, neg_inj, eq_comm (a := e)]

theorem compare_eq_place (a b : UnpackedFloat) :
    a.compare b = (place? a).bind fun p => (place? b).map (compare p) := by
  rcases a with (_ | _) | _ | _ | ⟨(_ | _), m, e, hm⟩ <;>
    rcases b with (_ | _) | _ | _ | ⟨(_ | _), n, f, hn⟩ <;> try rfl
  · simp [UnpackedFloat.compare, place?, Prod.Lex.compare_def, compareLex, compareOn, compare_neg,
      compare_natCast, Ordering.swap_then]
  · simp [UnpackedFloat.compare, place?, Prod.Lex.compare_def, compareLex, compareOn,
      compare_natCast]

/-- The place of a double, if it is a number. -/
def rank? (x : Float) : Option (ℤ ×ₗ ℤ ×ₗ ℤ) := place? x.toModel.unpack

theorem atMost_iff_rank (x y : Float) :
    Scale.atMost x y ↔ ∃ p ∈ rank? x, ∃ q ∈ rank? y, p ≤ q := by
  have h : Scale.atMost x y ↔ x.toModel.unpack.le y.toModel.unpack :=
    decide_eq_true_iff.trans decide_eq_true_iff
  rw [h, UnpackedFloat.le, compare_eq_place, rank?, rank?]
  cases place? x.toModel.unpack <;> cases place? y.toModel.unpack <;>
    simp [Ordering.isLE_iff_ne_gt, compare_le_iff_le]

theorem less_iff_rank (x y : Float) :
    Scale.less x y ↔ ∃ p ∈ rank? x, ∃ q ∈ rank? y, p < q := by
  have h : Scale.less x y ↔ x.toModel.unpack.lt y.toModel.unpack :=
    decide_eq_true_iff.trans decide_eq_true_iff
  rw [h, UnpackedFloat.lt, compare_eq_place, rank?, rank?]
  cases place? x.toModel.unpack <;> cases place? y.toModel.unpack <;> simp [compare_lt_iff_lt]

theorem isNumber_iff_rank (x : Float) : Scale.IsNumber x ↔ ∃ p, p ∈ rank? x := by
  rw [Scale.IsNumber, atMost_iff_rank]
  constructor
  · intro hex
    obtain ⟨p, hp, _⟩ := hex
    exact ⟨p, hp⟩
  · intro hex
    obtain ⟨p, hp⟩ := hex
    exact ⟨p, hp, p, hp, le_rfl⟩

/-- The doubles that are numbers are all but NaN. -/
theorem isNumber_iff_isNaN (x : Float) : Scale.IsNumber x ↔ x.isNaN = false := by
  have h : x.isNaN = x.toModel.unpack.isNaN := rfl
  rw [isNumber_iff_rank, h, rank?]
  rcases x.toModel.unpack with (_ | _) | _ | _ | ⟨(_ | _), m, e, hm⟩ <;>
    simp [place?, UnpackedFloat.isNaN]

end Double

instance : LawfulScale Float where
  isNumber_of_atMost {x y} h := by
    obtain ⟨p, hp, q, hq, _⟩ := (Double.atMost_iff_rank x y).mp h
    exact ⟨(Double.isNumber_iff_rank x).mpr ⟨p, hp⟩, (Double.isNumber_iff_rank y).mpr ⟨q, hq⟩⟩
  atMost_trans {x y z} h h' := by
    obtain ⟨p, hp, q, hq, hpq⟩ := (Double.atMost_iff_rank x y).mp h
    obtain ⟨q', hq', r, hr, hqr⟩ := (Double.atMost_iff_rank y z).mp h'
    obtain rfl := Option.mem_unique hq hq'
    exact (Double.atMost_iff_rank x z).mpr ⟨p, hp, r, hr, hpq.trans hqr⟩
  atMost_total {x y} hx hy := by
    obtain ⟨p, hp⟩ := (Double.isNumber_iff_rank x).mp hx
    obtain ⟨q, hq⟩ := (Double.isNumber_iff_rank y).mp hy
    rcases le_total p q with h | h
    · exact Or.inl ((Double.atMost_iff_rank x y).mpr ⟨p, hp, q, hq, h⟩)
    · exact Or.inr ((Double.atMost_iff_rank y x).mpr ⟨q, hq, p, hp, h⟩)
  less_iff {x y} := by
    rw [Double.less_iff_rank, Double.isNumber_iff_rank, Double.isNumber_iff_rank,
      Double.atMost_iff_rank]
    constructor
    · intro hex
      obtain ⟨p, hp, q, hq, hpq⟩ := hex
      refine ⟨⟨p, hp⟩, ⟨q, hq⟩, ?_⟩
      intro hex
      obtain ⟨q', hq', p', hp', hle⟩ := hex
      obtain rfl := Option.mem_unique hq hq'
      obtain rfl := Option.mem_unique hp hp'
      exact absurd hpq (not_lt.mpr hle)
    · intro hex
      obtain ⟨⟨p, hp⟩, ⟨q, hq⟩, hn⟩ := hex
      refine ⟨p, hp, q, hq, lt_of_not_ge fun hle => hn ⟨q, hq, p, hp, hle⟩⟩
  isNumber_zero := by
    show decide ((0.0 : Float) ≤ 0.0) = true
    decide

end Linkage
