import Linkage.Proofs.Scale.Magnitude

/-!
# Doubles that stay finite

A sum of any number of doubles stays finite as long as they are of moderate size: once the sum is so
large that the next summand lies below half of its last bit, rounding takes it back to where it was.
So sums grow by a fixed number of bits at most, and so do means and quotients.
-/

namespace Linkage.Double
open Float.Model (Format UnpackedFloat totalExponent)
open Float.Model.UnpackedFloat

/-- The unpacked double is a zero, or it is at least `2 ^ j` and less than `2 ^ k`. -/
def Within (j k : ℤ) : UnpackedFloat → Prop
  | .zero _ => True
  | .finite .positive m e _ => j < totalExponent m e ∧ totalExponent m e ≤ k
  | _ => False

/-- A zero, or a double of at least `2 ^ j` and less than `2 ^ k`. -/
def Moderate (j k : ℤ) (x : Float) : Prop := Within j k x.toModel.unpack

variable {i j k l : ℤ} {x y : Float}

theorem within_cases {u : UnpackedFloat} (h : Within j k u) : (∃ s, u = .zero s) ∨
    ∃ m e, ∃ hm : 0 < m, u = .finite .positive m e hm ∧ j < totalExponent m e ∧
      totalExponent m e ≤ k := by
  rcases u with (_ | _) | _ | _ | ⟨(_ | _), m, e, hm⟩ <;> simp_all [Within]

theorem Moderate.mono (h : Moderate j k x) (hij : i ≤ j) (hkl : k ≤ l) : Moderate i l x := by
  rw [Moderate]
  rcases within_cases h with ⟨s, hu⟩ | ⟨m, e, hm, hu, hlow, hhigh⟩ <;> rw [hu]
  · trivial
  · exact ⟨hij.trans_lt hlow, hhigh.trans hkl⟩

theorem Moderate.isFinite (h : Moderate j k x) : x.isFinite = true := by
  show x.toModel.unpack.isFinite = true
  rcases within_cases h with ⟨s, hu⟩ | ⟨m, e, hm, hu, -⟩ <;> rw [hu] <;> rfl

theorem moderate_zero (j k : ℤ) : Moderate j k 0.0 := trivial

theorem moderate_emptySum (j k : ℤ) : Moderate j k (-0.0) := trivial

theorem moderate_of_bounds (hx : AtLeast j x) (hx' : Below k x) : Moderate j k x := by
  rw [Below] at hx'
  rw [Moderate]
  rcases reaches_cases hx with hu | ⟨m, e, hm, hu, hlow⟩ <;> rw [hu] at hx' ⊢
  · exact hx'
  · exact ⟨hlow, hx'⟩

theorem Moderate.bounds (h : Moderate j k x) (hpos : Scale.less (0.0 : Float) x) :
    AtLeast j x ∧ Below k x := by
  rw [AtLeast, Below]
  rcases within_cases h with ⟨s, hu⟩ | ⟨m, e, hm, hu, hlow, hhigh⟩
  · obtain ⟨p, hp, q, hq, hlt⟩ := (less_iff_rank _ _).mp hpos
    have hz : rank? 0.0 = some (toLex (0, toLex (0, 0))) := by decide
    rw [hz] at hp
    rw [rank?, hu] at hq
    cases hp
    cases hq
    exact absurd hlt (lt_irrefl _)
  · rw [hu]
    exact ⟨hlow, hhigh⟩

theorem moderate_ofNat {n : ℕ} (hn : n.log2 ≤ 1000) : Moderate 0 (n.log2 + 3) (Float.ofNat n) := by
  rcases Nat.eq_zero_or_pos n with rfl | hpos
  · have hzero : (Float.ofNat 0).toModel.unpack = .zero .positive := rfl
    rw [Moderate, hzero]
    trivial
  · exact moderate_of_bounds ((atLeast_ofNat hpos).mono (by omega)) (below_ofNat hpos hn)

/-- What is less than `2 ^ 1024` is kept. -/
theorem unpack_pack_of_total {m : ℕ} {e : ℤ} (hm : 0 < m) (hs : Stored m e)
    (h : totalExponent m e ≤ 1024) :
    unpack Format.binary64 (pack Format.binary64 (.finite .positive m e hm)) =
      .finite .positive m e hm := by
  have hexp : ¬ 971 < e := by
    obtain ⟨_, _, hnormal⟩ := hs
    have hlead : 2 ^ 52 ≤ m → 52 ≤ m.log2 := fun h => (Nat.le_log2 hm.ne').mpr h
    rw [totalExponent] at h
    omega
  rw [unpack_pack .positive hm hs, if_neg hexp]

theorem within_pack {m : ℕ} {e : ℤ} (hm : 0 < m) (hs : Stored m e) (hlow : j < totalExponent m e)
    (hhigh : totalExponent m e ≤ k) (hk : k ≤ 1024) :
    Within j k (unpack Format.binary64 (pack Format.binary64 (.finite .positive m e hm))) := by
  rw [unpack_pack_of_total hm hs (hhigh.trans hk)]
  exact ⟨hlow, hhigh⟩

theorem shiftRight_roundBit (em : ExtendedMantissa) (n : ℕ) :
    (em >>> (n + 1)).roundBit = (em.mantissa / 2 ^ n % 2 != 0) := by
  rw [← shiftRight_mantissa]
  rfl

theorem roundedMantissa_of_roundBit {em : ExtendedMantissa} (h : em.roundBit = false) :
    em.roundedMantissa = em.mantissa := by
  obtain ⟨m, r, _ | _⟩ := em <;> cases h <;> rfl

/-- Less than half of the last bit is rounded off. -/
theorem round_absorb {m r n : ℕ} {e : ℤ} (hm : 0 < m) (hs : Stored m e) (hlead : 2 ^ 52 ≤ m)
    (hr : 2 * r < 2 ^ n) :
    UnpackedFloat.round Format.binary64 .positive (m * 2 ^ n + r) (e - n) =
      .finite .positive m e hm := by
  obtain ⟨hlt, hmin, -⟩ := hs
  have hlog : m.log2 = 52 := (Nat.log2_eq_iff hm.ne').mpr ⟨hlead, hlt⟩
  have hsum : (m * 2 ^ n + r).log2 = 52 + n := by
    rw [Nat.log2_eq_iff (by positivity), pow_add, show 52 + n + 1 = 53 + n by omega, pow_add]
    constructor
    · exact (Nat.mul_le_mul_right _ hlead).trans (Nat.le_add_right _ _)
    · have hle : (m + 1) * 2 ^ n ≤ 2 ^ 53 * 2 ^ n := Nat.mul_le_mul_right _ hlt
      rw [Nat.add_mul] at hle
      omega
  have htarget : max (totalExponent (m * 2 ^ n + r) (e - n) - 53) (-1074) = e := by
    rw [totalExponent, hsum]
    omega
  have htarget' : max (totalExponent m e - 53) (-1074) = e := by
    rw [totalExponent, hlog]
    omega
  generalize hem : ExtendedMantissa.ofMantissaAndAccuracy (m * 2 ^ n + r) .exact >>> n = em
  have hmantissa : em.mantissa = m := by
    rw [← hem, shiftRight_mantissa, ofMantissaAndAccuracy_mantissa, Nat.mul_comm,
      Nat.mul_add_div (Nat.two_pow_pos n), Nat.div_eq_of_lt (by omega), Nat.add_zero]
  have hround : em.roundBit = false := by
    rw [← hem]
    cases n with
    | zero => rfl
    | succ n =>
      have hhalf : m * 2 ^ (n + 1) + r = 2 ^ n * (2 * m) + r := by ring
      rw [shiftRight_roundBit, ofMantissaAndAccuracy_mantissa, hhalf,
        Nat.mul_add_div (Nat.two_pow_pos n), Nat.div_eq_of_lt (by omega)]
      simp
  have hshift : (e - (e - n)).toNat = n := by omega
  have hback : e - n + n = e := by omega
  have hzero : (e - e).toNat = 0 := by omega
  have hstay : (e - n - e).toNat = 0 := by omega
  simp only [UnpackedFloat.round, decreaseExponent, roundWithAccuracy, shiftToTargetExponent,
    shiftToExponent, targetExponent_eq, htarget, hstay, Nat.shiftLeft_zero, Nat.cast_zero,
    Int.sub_zero, hshift, hem, hback, roundedMantissa_of_roundBit hround, hmantissa, htarget',
    hzero, shiftRight_mantissa, ofMantissaAndAccuracy_mantissa, pow_zero, Nat.div_one, Int.add_zero]
  rw [dif_neg hm.ne']

theorem unpack_add (x y : Float) : (x + y).toModel.unpack = unpack Format.binary64
    (pack Format.binary64
      (UnpackedFloat.add Format.binary64 x.toModel.unpack y.toModel.unpack)) := rfl

/-- A summand below half of the last bit changes nothing. -/
theorem moderate_add_absorb {m n : ℕ} {e f : ℤ} {hm : 0 < m} {hn : 0 < n}
    (hu : x.toModel.unpack = .finite .positive m e hm)
    (hv : y.toModel.unpack = .finite .positive n f hn)
    (h : totalExponent n f + 54 ≤ totalExponent m e) :
    (x + y).toModel.unpack = .finite .positive m e hm := by
  obtain ⟨hs, htop⟩ := stored_of_unpack hu
  obtain ⟨⟨-, hmin', -⟩, -⟩ := stored_of_unpack hv
  have hlead : 2 ^ 52 ≤ m := by
    refine hs.2.2.resolve_right fun he => ?_
    have hlog : m.log2 < 53 := (Nat.log2_lt hm.ne').mpr hs.1
    simp only [totalExponent] at h
    omega
  have hlog : m.log2 = 52 := (Nat.log2_eq_iff hm.ne').mpr ⟨hlead, hs.1⟩
  simp only [totalExponent, hlog] at h
  obtain ⟨i, hi⟩ : ∃ i : ℕ, f = e - i := ⟨(e - f).toNat, by omega⟩
  have hhalf : 2 * n < 2 ^ i := by
    have hbits : n < 2 ^ (n.log2 + 1) := Nat.lt_log2_self
    calc 2 * n < 2 * 2 ^ (n.log2 + 1) := by omega
      _ = 2 ^ (n.log2 + 2) := (pow_succ' 2 _).symm
      _ ≤ 2 ^ i := Nat.pow_le_pow_right (by norm_num) (by omega)
  have hmin : min e f = e - i := by omega
  have hleft : (e - (e - i)).toNat = i := by omega
  have hright : (f - (e - i)).toNat = 0 := by omega
  have hsum : 0 < m <<< i + n := Nat.add_pos_right _ hn
  have hadd : UnpackedFloat.add Format.binary64 x.toModel.unpack y.toModel.unpack =
      .finite .positive m e hm := by
    simp only [hu, hv, UnpackedFloat.add, decreaseExponent, Sign.apply, hmin, hleft, hright,
      Nat.shiftLeft_zero]
    rw [← Int.natCast_add, normalize_natCast _ _ hsum, Nat.shiftLeft_eq,
      round_absorb hm hs hlead hhalf]
  rw [unpack_add, hadd, unpack_pack .positive hm hs, if_neg (by omega)]

/-- The leading bit of a sum of two numbers is at most one place above those of both, and rounding
raises it by one at most. -/
theorem add_total {m n : ℕ} {e f : ℤ} (hm : 0 < m) (hn : 0 < n) (he : -1074 ≤ e) :
    ∃ r g, ∃ hr : 0 < r, UnpackedFloat.add Format.binary64 (.finite .positive m e hm)
        (.finite .positive n f hn) = .finite .positive r g hr ∧ Stored r g ∧
      totalExponent m e ≤ totalExponent r g ∧
      totalExponent r g ≤ max (totalExponent m e) (totalExponent n f) + 2 := by
  simp only [UnpackedFloat.add, decreaseExponent, Sign.apply]
  generalize hi : (e - min e f).toNat = i
  generalize hj : (f - min e f).toNat = j
  have hpos : 0 < m <<< i := by
    rw [Nat.shiftLeft_eq]
    exact Nat.mul_pos hm (Nat.two_pow_pos i)
  have hsum : 0 < m <<< i + n <<< j := Nat.add_pos_left hpos _
  have hm' := totalExponent_shiftLeft e i hm
  have hn' := totalExponent_shiftLeft f j hn
  rw [show e - i = min e f by omega] at hm'
  rw [show f - j = min e f by omega] at hn'
  have hlow : (m <<< i).log2 ≤ (m <<< i + n <<< j).log2 := by
    rw [Nat.le_log2 hsum.ne']
    exact (Nat.log2_self_le hpos.ne').trans (Nat.le_add_right _ _)
  have hhigh : (m <<< i + n <<< j).log2 ≤ max (m <<< i).log2 (n <<< j).log2 + 1 := by
    refine Nat.lt_succ_iff.mp ((Nat.log2_lt hsum.ne').mpr ?_)
    generalize hd : max (m <<< i).log2 (n <<< j).log2 = d
    have hleft : m <<< i < 2 ^ (d + 1) := Nat.lt_log2_self.trans_le
      (Nat.pow_le_pow_right (by norm_num) (by omega))
    have hright : n <<< j < 2 ^ (d + 1) := Nat.lt_log2_self.trans_le
      (Nat.pow_le_pow_right (by norm_num) (by omega))
    have hdouble : 2 ^ (d + 2) = 2 * 2 ^ (d + 1) := pow_succ' 2 (d + 1)
    show m <<< i + n <<< j < 2 ^ (d + 2)
    omega
  simp only [totalExponent] at hm' hn'
  rw [← Int.natCast_add, normalize_natCast _ _ hsum]
  obtain ⟨r, g, hr, heq, hs, hlow', hhigh'⟩ :=
    round_total .positive (min e f) hsum (by simp only [totalExponent]; omega)
  refine ⟨r, g, hr, heq, hs, ?_, ?_⟩ <;> simp only [totalExponent] at * <;> omega

theorem pack_unpack {m : ℕ} {e : ℤ} {hm : 0 < m}
    (hu : x.toModel.unpack = .finite .positive m e hm) :
    unpack Format.binary64 (pack Format.binary64 (.finite .positive m e hm)) =
      .finite .positive m e hm := by
  obtain ⟨hs, htop⟩ := stored_of_unpack hu
  rw [unpack_pack .positive hm hs, if_neg (by omega)]

/-- A sum that has grown enough grows no more. -/
theorem moderate_add (hk : k + 55 ≤ 1024) (hx : Moderate j (k + 55) x) (hy : Moderate j k y) :
    Moderate j (k + 55) (x + y) := by
  rw [Moderate]
  rcases within_cases hx with ⟨s, hu⟩ | ⟨m, e, hm, hu, hlow, hhigh⟩ <;>
    rcases within_cases hy with ⟨t, hv⟩ | ⟨n, f, hn, hv, hlow', hhigh'⟩
  · rw [unpack_add, hu, hv]
    cases s <;> cases t <;> trivial
  · rw [unpack_add, hu, hv, UnpackedFloat.add, pack_unpack hv]
    · exact ⟨hlow', by omega⟩
    all_goals intros; contradiction
  · rw [unpack_add, hu, hv, UnpackedFloat.add, pack_unpack hu]
    · exact ⟨hlow, hhigh⟩
    all_goals intros; contradiction
  · by_cases habsorb : totalExponent n f + 54 ≤ totalExponent m e
    · rw [moderate_add_absorb hu hv habsorb]
      exact ⟨hlow, hhigh⟩
    · obtain ⟨⟨-, hmin, -⟩, -⟩ := stored_of_unpack hu
      obtain ⟨r, g, hr, hadd, hs, hmore, hless⟩ := add_total (f := f) hm hn hmin
      rw [unpack_add, hu, hv, hadd]
      exact within_pack hr hs (by omega) (by omega) hk

theorem moderate_sumFrom (hk : k + 55 ≤ 1024) {xs : List Float} (hx : Moderate j (k + 55) x)
    (hxs : ∀ y ∈ xs, Moderate j k y) : Moderate j (k + 55) (Scale.sumFrom x xs) := by
  induction xs generalizing x with
  | nil => exact hx
  | cons y xs ih =>
    obtain ⟨hy, hxs⟩ := List.forall_mem_cons.mp hxs
    exact ih (moderate_add hk hx hy) hxs

theorem moderate_sum (hk : k + 55 ≤ 1024) {xs : List Float} (hxs : ∀ x ∈ xs, Moderate j k x) :
    Moderate j (k + 55) (Scale.sum xs) :=
  moderate_sumFrom hk (moderate_emptySum ..) hxs

/-- The leading bit of a quotient is at most one place above where those of the operands put it. -/
theorem divCore_total_le {m n : ℕ} {e f : ℤ} (hn : 0 < n) {q : ℕ} {g : ℤ}
    {acc : Accuracy} (hdiv : divCore Format.binary64 m e n f = (q, g, acc)) (hq : 0 < q) :
    totalExponent q g ≤ totalExponent m e - totalExponent n f + 1 := by
  simp only [divCore, targetExponent_eq] at hdiv
  generalize hg : min (e - f) (max (totalExponent m e - totalExponent n f - 53) (-1074)) = t at hdiv
  generalize hs : (e - f - t).toNat = s at hdiv
  obtain ⟨rfl, hrest⟩ := Prod.mk.inj hdiv
  obtain ⟨rfl, -⟩ := Prod.mk.inj hrest
  have hbound : m <<< s / n < 2 ^ (m.log2 + s + 1 - n.log2) := by
    rw [Nat.div_lt_iff_lt_mul hn, Nat.shiftLeft_eq]
    calc m * 2 ^ s < 2 ^ (m.log2 + 1) * 2 ^ s :=
          Nat.mul_lt_mul_of_pos_right Nat.lt_log2_self (Nat.two_pow_pos s)
      _ ≤ 2 ^ (m.log2 + s + 1 - n.log2) * 2 ^ n.log2 := by
        rw [← pow_add, ← pow_add]
        exact Nat.pow_le_pow_right (by norm_num) (by omega)
      _ ≤ 2 ^ (m.log2 + s + 1 - n.log2) * n := Nat.mul_le_mul_left _ (Nat.log2_self_le hn.ne')
  have hlog := (Nat.log2_lt hq.ne').mpr hbound
  simp only [totalExponent] at *
  omega

theorem moderate_div (hx : Moderate j k x) (hy : AtLeast i y) (hy' : Below l y)
    (hlow : -1074 ≤ j - l) (hhigh : k - i + 1 ≤ 1024) : Moderate (j - l) (k - i + 1) (x / y) := by
  show Within _ _ (unpack Format.binary64 (pack Format.binary64
    (UnpackedFloat.div Format.binary64 x.toModel.unpack y.toModel.unpack)))
  rw [Below] at hy'
  rcases reaches_cases hy with hv | ⟨n, f, hn, hv, hni⟩ <;> rw [hv] at hy' ⊢
  · exact absurd hy' id
  · rcases within_cases hx with ⟨s, hu⟩ | ⟨m, e, hm, hu, hmj, hmk⟩ <;> rw [hu]
    · simp only [UnpackedFloat.div]
      cases s <;> trivial
    · have hnl : totalExponent n f ≤ l := hy'
      obtain ⟨q, g, acc, hdiv, hq, hg, htotal⟩ := divCore_total (e := e) (f := f) hm hn (by omega)
      have htotal' := divCore_total_le hn hdiv hq
      obtain ⟨r, b, hr, hround, hs, hmore, hless⟩ :=
        roundWithAccuracy_total .positive acc hq hg (by omega)
      have hpositive : (Sign.positive / Sign.positive) = Sign.positive := rfl
      simp only [UnpackedFloat.div, hdiv, hpositive, hround]
      exact within_pack hr hs (by omega) (by omega) hhigh

/-- A quotient by a positive count. -/
theorem moderate_div_ofNat (hx : Moderate j k x) {n : ℕ} (hn : 0 < n) (hlog : n.log2 ≤ 1000)
    (hlow : -1071 ≤ j - n.log2) (hhigh : k + 1 ≤ 1024) :
    Moderate (j - n.log2 - 3) (k + 1) (x / Float.ofNat n) := by
  have hdiv := moderate_div hx (atLeast_ofNat hn) (below_ofNat hn hlog) (by omega) (by omega)
  exact hdiv.mono (by omega) (by omega)

theorem moderate_mean {xs : List Float} {n : ℕ} (hxs : ∀ x ∈ xs, Moderate j k x)
    (hlength : xs.length < 2 ^ (n + 1)) (hn : n ≤ 500) (hj : -500 ≤ j) (hk : k ≤ 500) :
    Moderate (j - n - 3) (k + 56) (Scale.mean xs) := by
  rw [Scale.mean]
  split
  · exact moderate_zero ..
  · rename_i hempty
    have hpos : 0 < xs.length := List.length_pos_iff.mpr fun hnil => hempty (hnil ▸ rfl)
    have hlog : xs.length.log2 < n + 1 := (Nat.log2_lt hpos.ne').mpr hlength
    have hsum : Moderate j (k + 55) (Scale.sumFrom (0.0 : Float) xs) :=
      moderate_sumFrom (by omega) (moderate_zero ..) hxs
    exact (moderate_div_ofNat hsum hpos (by omega) (by omega) (by omega)).mono (by omega)
      (by omega)

end Linkage.Double
