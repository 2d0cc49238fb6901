import Linkage.Proofs.Scale.Finite
import Linkage.Proofs.Scale.Fraction

/-!
# Sums in brackets

Where nothing is rounded, brackets make no difference to a sum. Doubles are rounded at every step,
and how often the largest of them takes part depends on the brackets. Still each rounding adds at
most four times the smaller summand, so a sum stays below the cube of the number of its summands
times their bound, whatever its brackets.
-/

namespace Linkage
open Scale

/-- Two bracketings give the same sum of any `n` summands. -/
def Scale.Bracketing.Agree (R : Type) [Scale R] (b b' : Bracketing) (n : Nat) : Prop :=
  ∀ xs : List R, xs.length = n → b.sum xs = b'.sum xs

theorem Scale.Bracketing.Agree.refl {R : Type} [Scale R] (b : Bracketing) (n : Nat) :
    b.Agree R b n := fun _ _ => rfl

theorem Fraction.agree (b b' : Bracketing) (n : Nat) : b.Agree Rat b' n := fun xs _ =>
  (bracketing_sum_eq b xs).trans (bracketing_sum_eq b' xs).symm

namespace Double
open Float.Model (Format UnpackedFloat totalExponent)
open Float.Model.UnpackedFloat

/-- The value of a mantissa with its exponent. -/
def value (m : ℕ) (e : ℤ) : ℚ := m * 2 ^ e

variable {m n : ℕ} {e f : ℤ}

theorem value_nonneg (m : ℕ) (e : ℤ) : 0 ≤ value m e := by
  unfold value
  positivity

/-- A value reaches the power of two of its leading bit, and not the next one. -/
theorem value_bounds (hm : 0 < m) (e : ℤ) :
    (2 : ℚ) ^ (totalExponent m e - 1) ≤ value m e ∧ value m e < 2 ^ totalExponent m e := by
  have htwo : (2 : ℚ) ≠ 0 := two_ne_zero
  have hpow : (0 : ℚ) < 2 ^ e := by positivity
  have hlow : totalExponent m e - 1 = (m.log2 : ℤ) + e := by
    rw [totalExponent]
    omega
  have hhigh : totalExponent m e = ((m.log2 + 1 : ℕ) : ℤ) + e := by
    rw [totalExponent]
    omega
  rw [hlow, hhigh, zpow_add₀ htwo, zpow_add₀ htwo, zpow_natCast, zpow_natCast, value]
  constructor
  · exact mul_le_mul_of_nonneg_right (by exact_mod_cast Nat.log2_self_le hm.ne') hpow.le
  · exact mul_lt_mul_of_pos_right (by exact_mod_cast Nat.lt_log2_self) hpow

theorem totalExponent_le_of_value_le (hm : 0 < m) {h : ℤ} (hvalue : value m e ≤ 2 ^ h) :
    totalExponent m e ≤ h + 1 := by
  have hpow := ((value_bounds hm e).1.trans hvalue)
  have := (zpow_le_zpow_iff_right₀ (by norm_num : (1 : ℚ) < 2)).mp hpow
  omega

theorem value_shiftLeft (m : ℕ) (e : ℤ) (k : ℕ) : value (m <<< k) (e - k) = value m e := by
  rw [value, value, Nat.shiftLeft_eq, zpow_sub₀ two_ne_zero, zpow_natCast]
  push_cast
  field_simp

/-- What is shifted out is lost. -/
theorem value_shift_le (m : ℕ) (e : ℤ) (k : ℕ) : value (m / 2 ^ k) (e + k) ≤ value m e := by
  have hfloor : ((m / 2 ^ k : ℕ) : ℚ) * 2 ^ k ≤ m := by
    exact_mod_cast Nat.div_mul_le_self m (2 ^ k)
  calc value (m / 2 ^ k) (e + k) = ((m / 2 ^ k : ℕ) : ℚ) * 2 ^ k * 2 ^ e := by
        rw [value, zpow_add₀ two_ne_zero, zpow_natCast]
        ring
    _ ≤ value m e := mul_le_mul_of_nonneg_right hfloor (by positivity)

theorem value_shiftToTargetExponent_le (m : ℕ) (e : ℤ) (acc : Accuracy) :
    value (shiftToTargetExponent Format.binary64 m e acc).1.mantissa
      (shiftToTargetExponent Format.binary64 m e acc).2 ≤ value m e := by
  simp only [shiftToTargetExponent, shiftToExponent, shiftRight_mantissa,
    ofMantissaAndAccuracy_mantissa]
  exact value_shift_le m e _

theorem value_roundWithAccuracy_le {acc : Accuracy} (he : e ≤ max (totalExponent m e - 53) (-1074))
    {hn : 0 < n}
    (h : roundWithAccuracy Format.binary64 .positive m e acc = .finite .positive n f hn) :
    value n f ≤ value m e + 2 ^ max (totalExponent m e - 53) (-1074) := by
  have hplace : (shiftToTargetExponent Format.binary64 m e acc).2 =
      max (totalExponent m e - 53) (-1074) := by
    simp only [shiftToTargetExponent, shiftToExponent, targetExponent_eq]
    omega
  have hfirst := value_shiftToTargetExponent_le m e acc
  simp only [roundWithAccuracy] at h
  generalize shiftToTargetExponent Format.binary64 m e acc = first at h hplace hfirst
  have hsecond := value_shiftToTargetExponent_le first.1.roundedMantissa first.2 .exact
  split at h
  · cases h
  · obtain ⟨-, rfl, rfl⟩ := UnpackedFloat.finite.inj h
    have hrounded : ((first.1.roundedMantissa : ℕ) : ℚ) ≤ first.1.mantissa + 1 := by
      exact_mod_cast (roundedMantissa_bounds first.1).2
    calc _ ≤ value first.1.roundedMantissa first.2 := hsecond
      _ ≤ (first.1.mantissa + 1) * 2 ^ first.2 :=
        mul_le_mul_of_nonneg_right hrounded (by positivity)
      _ = value first.1.mantissa first.2 + 2 ^ first.2 := by rw [value, add_mul, one_mul]
      _ ≤ value m e + 2 ^ first.2 := by gcongr
      _ = _ := by rw [hplace]

/-- Rounding adds at most one unit of the last place. -/
theorem value_round_le (hm : 0 < m) {hn : 0 < n}
    (h : UnpackedFloat.round Format.binary64 .positive m e = .finite .positive n f hn) :
    value n f ≤ value m e + 2 ^ max (totalExponent m e - 53) (-1074) := by
  simp only [UnpackedFloat.round, decreaseExponent, targetExponent_eq] at h
  generalize hk : (e - max (totalExponent m e - 53) (-1074)).toNat = k at h
  have hshift := totalExponent_shiftLeft e k hm
  have hround := value_roundWithAccuracy_le (by rw [hshift]; omega) h
  rwa [hshift, value_shiftLeft] at hround

/-- The exact sum of two values, and where its leading bit is. -/
theorem exists_add_eq_round (hm : 0 < m) (hn : 0 < n) (e f : ℤ) :
    ∃ s d, 0 < s ∧ value s d = value m e + value n f ∧
      totalExponent s d ≤ max (totalExponent m e) (totalExponent n f) + 1 ∧
      UnpackedFloat.add Format.binary64 (.finite .positive m e hm) (.finite .positive n f hn) =
        UnpackedFloat.round Format.binary64 .positive s d := by
  have hshift (k : ℕ) (c : ℤ) : value (k <<< (c - min e f).toNat) (c - (c - min e f).toNat) =
      value k c := value_shiftLeft k c _
  have hleft := hshift m e
  have hright := hshift n f
  rw [show e - (e - min e f).toNat = min e f by omega] at hleft
  rw [show f - (f - min e f).toNat = min e f by omega] at hright
  generalize hi : (e - min e f).toNat = i at hleft
  generalize hj : (f - min e f).toNat = j at hright
  have hpos : 0 < m <<< i + n <<< j := by
    refine Nat.add_pos_left ?_ _
    rw [Nat.shiftLeft_eq]
    exact Nat.mul_pos hm (Nat.two_pow_pos i)
  have hvalue : value (m <<< i + n <<< j) (min e f) = value m e + value n f := by
    rw [← hleft, ← hright, value, value, value, Nat.cast_add, add_mul]
  refine ⟨m <<< i + n <<< j, min e f, hpos, hvalue, ?_, ?_⟩
  · generalize hd : max (totalExponent m e) (totalExponent n f) = d
    have hbelow (k : ℕ) (c : ℤ) (hk : 0 < k) (hc : totalExponent k c ≤ d) :
        value k c < 2 ^ d := (value_bounds hk c).2.trans_le (by gcongr; norm_num)
    have hsum : (2 : ℚ) ^ (totalExponent (m <<< i + n <<< j) (min e f) - 1) < 2 ^ (d + 1) := by
      calc _ ≤ value m e + value n f := hvalue ▸ (value_bounds hpos _).1
        _ < 2 ^ d + 2 ^ d := add_lt_add (hbelow m e hm (by omega)) (hbelow n f hn (by omega))
        _ = 2 ^ (d + 1) := by rw [zpow_add_one₀ two_ne_zero]; ring
    have := (zpow_lt_zpow_iff_right₀ (by norm_num : (1 : ℚ) < 2)).mp hsum
    omega
  · simp only [UnpackedFloat.add, decreaseExponent, Sign.apply, hi, hj]
    rw [← Int.natCast_add, normalize_natCast _ _ hpos]

theorem unpack_add_comm {x y : Float} {hm : 0 < m} {hn : 0 < n}
    (hx : x.toModel.unpack = .finite .positive m e hm)
    (hy : y.toModel.unpack = .finite .positive n f hn) :
    (x + y).toModel.unpack = (y + x).toModel.unpack := by
  have hadd : UnpackedFloat.add Format.binary64 x.toModel.unpack y.toModel.unpack =
      UnpackedFloat.add Format.binary64 y.toModel.unpack x.toModel.unpack := by
    simp only [hx, hy, UnpackedFloat.add, Sign.apply, min_comm f e, Int.add_comm]
  rw [unpack_add, unpack_add, hadd]

/-- A zero, or a double of at least `2 ^ j` whose value is at most `v`. -/
def Upto (j : ℤ) (v : ℚ) (x : Float) : Prop :=
  (∃ s, x.toModel.unpack = .zero s) ∨ ∃ m e, ∃ hm : 0 < m,
    x.toModel.unpack = .finite .positive m e hm ∧ j < totalExponent m e ∧ value m e ≤ v

variable {j k h : ℤ} {v w : ℚ} {x y : Float}

theorem Upto.mono (hx : Upto j v x) (hvw : v ≤ w) : Upto j w x :=
  hx.imp_right fun ⟨m, e, hm, hu, hlow, hle⟩ => ⟨m, e, hm, hu, hlow, hle.trans hvw⟩

theorem Moderate.upto (hx : Moderate j k x) : Upto j (2 ^ k) x := by
  rcases within_cases hx with ⟨s, hu⟩ | ⟨m, e, hm, hu, hlow, hhigh⟩
  · exact Or.inl ⟨s, hu⟩
  · refine Or.inr ⟨m, e, hm, hu, hlow, (value_bounds hm e).2.le.trans ?_⟩
    gcongr
    norm_num

theorem Upto.moderate (hx : Upto j v x) (hv : v ≤ 2 ^ h) : Moderate j (h + 1) x := by
  rw [Moderate]
  rcases hx with ⟨s, hu⟩ | ⟨m, e, hm, hu, hlow, hle⟩ <;> rw [hu]
  · trivial
  · exact ⟨hlow, totalExponent_le_of_value_le hm (hle.trans hv)⟩

/-- A sum of two doubles exceeds their values by four times the smaller one at most. Either the
smaller one is absorbed, or the last place of the sum is not far above its leading bit. -/
theorem exists_unpack_add {hm : 0 < m} {hn : 0 < n}
    (hx : x.toModel.unpack = .finite .positive m e hm)
    (hy : y.toModel.unpack = .finite .positive n f hn)
    (hle : totalExponent n f ≤ totalExponent m e)
    (hsum : value m e + value n f + 4 * min (value m e) (value n f) ≤ 2 ^ h) (hh : h ≤ 1023) :
    ∃ r g, ∃ hr : 0 < r, (x + y).toModel.unpack = .finite .positive r g hr ∧
      totalExponent m e ≤ totalExponent r g ∧
      value r g ≤ value m e + value n f + 4 * min (value m e) (value n f) := by
  have hm' := value_bounds hm e
  have hn' := value_bounds hn f
  have hmin : (2 : ℚ) ^ (totalExponent n f - 1) ≤ min (value m e) (value n f) := by
    refine le_min (le_trans ?_ hm'.1) hn'.1
    gcongr
    norm_num
  by_cases habsorb : totalExponent n f + 54 ≤ totalExponent m e
  · refine ⟨m, e, hm, moderate_add_absorb hx hy habsorb, le_rfl, ?_⟩
    have hpos : 0 ≤ min (value m e) (value n f) := le_trans (by positivity) hmin
    linarith only [value_nonneg n f, hpos]
  · obtain ⟨⟨-, hemin, -⟩, -⟩ := stored_of_unpack hx
    obtain ⟨⟨-, hfmin, -⟩, -⟩ := stored_of_unpack hy
    obtain ⟨r, g, hr, hadd, hs, hmore, -⟩ := add_total (f := f) hm hn hemin
    obtain ⟨s, d, hspos, hvalue, htotal, hround⟩ := exists_add_eq_round hm hn e f
    have hvalue' := value_round_le hspos (hround.symm.trans hadd)
    have herror : (2 : ℚ) ^ max (totalExponent s d - 53) (-1074) ≤
        4 * min (value m e) (value n f) := by
      have hbottom : -1074 ≤ totalExponent n f - 1 := by
        rw [totalExponent]
        omega
      calc (2 : ℚ) ^ max (totalExponent s d - 53) (-1074)
          ≤ 2 ^ (totalExponent n f - 1 + 2) := by
            gcongr
            · norm_num
            · omega
        _ = 4 * 2 ^ (totalExponent n f - 1) := by
            rw [zpow_add₀ two_ne_zero, mul_comm]
            norm_num
        _ ≤ _ := by gcongr
    have hgrown : value r g ≤ value m e + value n f + 4 * min (value m e) (value n f) := by
      rw [hvalue] at hvalue'
      linarith only [hvalue', herror]
    have htop := totalExponent_le_of_value_le hr (hgrown.trans hsum)
    refine ⟨r, g, hr, ?_, hmore, hgrown⟩
    rw [unpack_add, hx, hy, hadd, unpack_pack_of_total hr hs (by omega)]

theorem Upto.add (hv : 0 ≤ v) (hw : 0 ≤ w) (hx : Upto j v x) (hy : Upto j w y)
    (hsum : v + w + 4 * min v w ≤ 2 ^ h) (hh : h ≤ 1023) :
    Upto j (v + w + 4 * min v w) (x + y) := by
  have hmin : 0 ≤ min v w := le_min hv hw
  rcases hx with ⟨s, hu⟩ | ⟨m, e, hm, hu, hlow, hle⟩ <;>
    rcases hy with ⟨t, hu'⟩ | ⟨n, f, hn, hu', hlow', hle'⟩
  · refine Or.inl ?_
    rw [unpack_add, hu, hu']
    cases s <;> cases t <;> exact ⟨_, rfl⟩
  · refine Or.inr ⟨n, f, hn, ?_, hlow', by linarith only [hle', hv, hmin]⟩
    rw [unpack_add, hu, hu', UnpackedFloat.add, pack_unpack hu']
    all_goals intros; contradiction
  · refine Or.inr ⟨m, e, hm, ?_, hlow, by linarith only [hle, hw, hmin]⟩
    rw [unpack_add, hu, hu', UnpackedFloat.add, pack_unpack hu]
    all_goals intros; contradiction
  · have hgrown : value m e + value n f + 4 * min (value m e) (value n f) ≤
        v + w + 4 * min v w := by gcongr
    refine Or.inr ?_
    rcases le_total (totalExponent n f) (totalExponent m e) with hn' | hm'
    · obtain ⟨r, g, hr, hsum', hmore, hvalue⟩ :=
        exists_unpack_add hu hu' hn' (hgrown.trans hsum) hh
      exact ⟨r, g, hr, hsum', by omega, hvalue.trans hgrown⟩
    · rw [min_comm, add_comm (value m e)] at hgrown
      obtain ⟨r, g, hr, hsum', hmore, hvalue⟩ :=
        exists_unpack_add hu' hu hm' (hgrown.trans hsum) hh
      exact ⟨r, g, hr, (unpack_add_comm hu hu').trans hsum', by omega, hvalue.trans hgrown⟩

/-! ### Sums of many -/

/-- Cubes of counts leave room for what roundings add. -/
theorem cube_add_le (p q : ℕ) {c : ℚ} (hc : 0 ≤ c) :
    p ^ 3 * c + q ^ 3 * c + 4 * min (p ^ 3 * c) (q ^ 3 * c) ≤ (p + q : ℕ) ^ 3 * c := by
  wlog hpq : p ≤ q generalizing p q
  · rw [min_comm, add_comm (_ * c), Nat.add_comm p q]
    exact this q p (le_of_not_ge hpq)
  have hpq' : (p : ℚ) ≤ q := Nat.cast_le.mpr hpq
  have hcube : (p : ℚ) ^ 3 ≤ p ^ 2 * q := by
    calc (p : ℚ) ^ 3 = p ^ 2 * p := pow_succ _ 2
      _ ≤ p ^ 2 * q := by gcongr
  have hcube' : (p : ℚ) ^ 2 * q ≤ p * q ^ 2 := by
    calc (p : ℚ) ^ 2 * q = p * q * p := by ring
      _ ≤ p * q * q := by gcongr
      _ = p * q ^ 2 := by ring
  have hfactor : (p : ℚ) ^ 3 + q ^ 3 + 4 * p ^ 3 ≤ (p + q : ℕ) ^ 3 := by
    have hexpand : ((p + q : ℕ) : ℚ) ^ 3 = p ^ 3 + q ^ 3 + 3 * (p ^ 2 * q + p * q ^ 2) := by
      push_cast
      ring
    have hpos : (0 : ℚ) ≤ p ^ 3 := by positivity
    linarith only [hexpand, hcube, hcube', hpos]
  calc _ ≤ p ^ 3 * c + q ^ 3 * c + 4 * (p ^ 3 * c) := by gcongr; exact min_le_left _ _
    _ = (p ^ 3 + q ^ 3 + 4 * p ^ 3) * c := by ring
    _ ≤ _ := mul_le_mul_of_nonneg_right hfactor hc

section many

variable {c : ℚ} {xs : List Float}

/-- Sums of `p` and of `q` summands make one of `p + q`. -/
theorem Upto.add_cube (hc : 0 ≤ c) {p q : ℕ} (hx : Upto j (p ^ 3 * c) x)
    (hy : Upto j (q ^ 3 * c) y) (hsum : (p + q : ℕ) ^ 3 * c ≤ 2 ^ h) (hh : h ≤ 1023) :
    Upto j ((p + q : ℕ) ^ 3 * c) (x + y) := by
  have hroom := cube_add_le p q hc
  exact (hx.add (by positivity) (by positivity) hy (hroom.trans hsum) hh).mono hroom

theorem upto_emptySum (j : ℤ) (v : ℚ) : Upto j v (emptySum : Float) := Or.inl ⟨.negative, rfl⟩

theorem upto_sumFrom (hc : 0 ≤ c) {p : ℕ} (hx : Upto j (p ^ 3 * c) x)
    (hxs : ∀ y ∈ xs, Upto j c y) (hsum : (p + xs.length : ℕ) ^ 3 * c ≤ 2 ^ h) (hh : h ≤ 1023) :
    Upto j ((p + xs.length : ℕ) ^ 3 * c) (sumFrom x xs) := by
  induction xs generalizing x p with
  | nil => exact hx
  | cons y xs ih =>
    obtain ⟨hy, hxs⟩ := List.forall_mem_cons.mp hxs
    rw [List.length_cons, ← Nat.add_assoc, Nat.add_right_comm] at hsum ⊢
    have hstep : ((p + 1 : ℕ) : ℚ) ^ 3 * c ≤ (p + 1 + xs.length : ℕ) ^ 3 * c :=
      mul_le_mul_of_nonneg_right (pow_le_pow_left₀ (Nat.cast_nonneg _)
        (Nat.cast_le.mpr (Nat.le_add_right ..)) 3) hc
    have hone : Upto j ((1 : ℕ) ^ 3 * c) y := hy.mono (by simp)
    exact ih (hx.add_cube hc hone (hstep.trans hsum) hh) hxs hsum

/-- Whatever the brackets, a sum is at most the cube of the number of its summands times their
bound. -/
theorem upto_bracketing_sum (b : Bracketing) (hc : 0 ≤ c) (hxs : ∀ x ∈ xs, Upto j c x)
    (hsum : (xs.length : ℕ) ^ 3 * c ≤ 2 ^ h) (hh : h ≤ 1023) :
    Upto j ((xs.length : ℕ) ^ 3 * c) (b.sum xs) := by
  induction b generalizing xs with
  | inOrder =>
    rw [← Nat.zero_add xs.length] at hsum ⊢
    exact upto_sumFrom hc (upto_emptySum ..) hxs hsum hh
  | cut front left right hleft hright =>
    have hlength : xs.length = (xs.take front).length + (xs.drop front).length := by
      rw [← List.length_append, List.take_append_drop]
    have hpart (ys : List Float) (hle : ys.length ≤ xs.length) :
        ((ys.length : ℕ) : ℚ) ^ 3 * c ≤ 2 ^ h := le_trans (by gcongr) hsum
    have htake := hpart (xs.take front) (by omega)
    have hdrop := hpart (xs.drop front) (by omega)
    have hl := hleft (fun x hx => hxs x (List.mem_of_mem_take hx)) htake
    have hr := hright (fun x hx => hxs x (List.mem_of_mem_drop hx)) hdrop
    have hfront : Upto j (((xs.take front).length : ℕ) ^ 3 * c)
        (emptySum + left.sum (xs.take front)) := by
      rw [← Nat.zero_add (xs.take front).length] at htake ⊢
      exact (upto_emptySum ..).add_cube hc hl htake hh
    rw [hlength] at hsum ⊢
    exact hfront.add_cube hc hr hsum hh

theorem moderate_bracketing_sum (b : Bracketing) {n : ℕ} (hxs : ∀ x ∈ xs, Moderate j k x)
    (hlength : xs.length ≤ 2 ^ n) (hn : n * 3 + k ≤ 1023) :
    Moderate j (n * 3 + k + 1) (b.sum xs) := by
  have hbound : ((xs.length : ℕ) : ℚ) ^ 3 * 2 ^ k ≤ 2 ^ (n * 3 + k) := by
    calc ((xs.length : ℕ) : ℚ) ^ 3 * 2 ^ k ≤ ((2 ^ n : ℕ) : ℚ) ^ 3 * 2 ^ k := by gcongr
      _ = 2 ^ (n * 3 + k) := by
        rw [zpow_add₀ two_ne_zero]
        push_cast
        rw [← pow_mul, ← zpow_natCast]
        push_cast
        rfl
  exact (upto_bracketing_sum b (by positivity) (fun x hx => (hxs x hx).upto) hbound hn).moderate
    hbound

end many

end Double

end Linkage
