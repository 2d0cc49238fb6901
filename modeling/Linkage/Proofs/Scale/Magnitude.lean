import Linkage.Proofs.Scale.Order

/-!
# The magnitude of doubles

How far sums and quotients of positive doubles are from zero. The measure is the position of the
leading bit, and rounding never lowers it: what is cut off lies below it, and a carry only raises
it. So a sum is at least as large as its summands up to the leading bit, and a quotient of numbers
that are not too far apart does not vanish.
-/

namespace Linkage.Double
open Float.Model (Format UnpackedFloat totalExponent)
open Float.Model.UnpackedFloat

/-- A mantissa with its exponent as doubles keep them: 53 bits, of which the leading one is set
unless the exponent is the least. -/
def Stored (m : ℕ) (e : ℤ) : Prop := m < 2 ^ 53 ∧ -1074 ≤ e ∧ (2 ^ 52 ≤ m ∨ e = -1074)

theorem targetExponent_eq (t : ℤ) : Format.binary64.targetExponent t = max (t - 53) (-1074) := rfl

theorem shiftRight_mantissa (em : ExtendedMantissa) (n : ℕ) :
    (em >>> n).mantissa = em.mantissa / 2 ^ n := by
  show (n.repeat ExtendedMantissa.shiftRightOne em).mantissa = _
  induction n with
  | zero => simp [Nat.repeat]
  | succ n ih =>
    show (n.repeat ExtendedMantissa.shiftRightOne em).mantissa / 2 = _
    rw [ih, Nat.div_div_eq_div_mul, pow_succ]

theorem ofMantissaAndAccuracy_mantissa (m : ℕ) (acc : Accuracy) :
    (ExtendedMantissa.ofMantissaAndAccuracy m acc).mantissa = m := by
  rcases acc with _ | (_ | _ | _) <;> rfl

theorem roundedMantissa_bounds (em : ExtendedMantissa) :
    em.mantissa ≤ em.roundedMantissa ∧ em.roundedMantissa ≤ em.mantissa + 1 := by
  obtain ⟨m, _ | _, _ | _⟩ := em <;>
    simp only [ExtendedMantissa.roundedMantissa, ExtendedMantissa.accuracy,
      Accuracy.roundToNearestEven] <;> omega

/-- The first shift of a rounding leaves at most 53 bits and keeps the leading one. -/
theorem shiftToTargetExponent_bounds {m : ℕ} {e : ℤ} (acc : Accuracy) (hm : 0 < m)
    (he : e ≤ Format.binary64.targetExponent (totalExponent m e))
    (htop : -1073 ≤ totalExponent m e) :
    ∃ k : ℕ, (k : ℤ) + (shiftToTargetExponent Format.binary64 m e acc).2 + 1 = totalExponent m e ∧
      2 ^ k ≤ (shiftToTargetExponent Format.binary64 m e acc).1.mantissa ∧
      (shiftToTargetExponent Format.binary64 m e acc).1.mantissa < 2 ^ (k + 1) ∧
      -1074 ≤ (shiftToTargetExponent Format.binary64 m e acc).2 ∧ k ≤ 52 ∧
      (k = 52 ∨ (shiftToTargetExponent Format.binary64 m e acc).2 = -1074) := by
  simp only [shiftToTargetExponent, shiftToExponent, shiftRight_mantissa,
    ofMantissaAndAccuracy_mantissa]
  rw [targetExponent_eq] at he ⊢
  have hlow : 2 ^ m.log2 ≤ m := Nat.log2_self_le hm.ne'
  have hhigh : m < 2 ^ (m.log2 + 1) := Nat.lt_log2_self
  generalize hs : (max (totalExponent m e - 53) (-1074) - e).toNat = s
  have hsum : e + s = max (totalExponent m e - 53) (-1074) := by omega
  simp only [totalExponent] at *
  have hsl : s ≤ m.log2 := by omega
  refine ⟨m.log2 - s, by omega, ?_, ?_, by omega, by omega, by omega⟩
  · rw [Nat.le_div_iff_mul_le (Nat.two_pow_pos s), ← pow_add]
    exact (Nat.sub_add_cancel hsl).symm ▸ hlow
  · rw [Nat.div_lt_iff_lt_mul (Nat.two_pow_pos s), ← pow_add]
    have hexp : m.log2 - s + 1 + s = m.log2 + 1 := by omega
    exact hexp.symm ▸ hhigh

/-- A rounded mantissa of at most 53 bits is kept, and only the carry to a 54th is shifted out. -/
theorem shiftToTargetExponent_carry {m : ℕ} {e : ℤ} (hm : 0 < m) (hle : m ≤ 2 ^ 53)
    (he : -1074 ≤ e) (hnormal : 2 ^ 52 ≤ m ∨ e = -1074) :
    0 < (shiftToTargetExponent Format.binary64 m e .exact).1.mantissa ∧
    Stored (shiftToTargetExponent Format.binary64 m e .exact).1.mantissa
        (shiftToTargetExponent Format.binary64 m e .exact).2 ∧
      totalExponent (shiftToTargetExponent Format.binary64 m e .exact).1.mantissa
        (shiftToTargetExponent Format.binary64 m e .exact).2 = totalExponent m e := by
  simp only [shiftToTargetExponent, shiftToExponent, shiftRight_mantissa,
    ofMantissaAndAccuracy_mantissa, targetExponent_eq]
  rcases hle.lt_or_eq with hlt | rfl
  · have hlog : m.log2 < 53 := (Nat.log2_lt hm.ne').mpr hlt
    have hzero : (max (totalExponent m e - 53) (-1074) - e).toNat = 0 := by
      simp only [totalExponent]
      omega
    rw [hzero, pow_zero, Nat.div_one]
    refine ⟨hm, ⟨hlt, by omega, by omega⟩, by simp⟩
  · have hlog : (2 ^ 53 : ℕ).log2 = 53 := Nat.log2_two_pow
    have hone : (max (totalExponent (2 ^ 53) e - 53) (-1074) - e).toNat = 1 := by
      simp only [totalExponent, hlog]
      omega
    have hlog' : (2 ^ 52 : ℕ).log2 = 52 := Nat.log2_two_pow
    have hdiv : (2 : ℕ) ^ 53 / 2 ^ 1 = 2 ^ 52 := by norm_num
    rw [hone, hdiv]
    refine ⟨by norm_num, ⟨by norm_num, by omega, Or.inl le_rfl⟩, ?_⟩
    simp only [totalExponent, hlog, hlog']
    omega

/-- Rounding gives a finite double whose leading bit is where it was, or one higher. -/
theorem roundWithAccuracy_total (s : Sign) {m : ℕ} {e : ℤ} (acc : Accuracy) (hm : 0 < m)
    (he : e ≤ Format.binary64.targetExponent (totalExponent m e))
    (htop : -1073 ≤ totalExponent m e) :
    ∃ n f, ∃ hn : 0 < n, roundWithAccuracy Format.binary64 s m e acc = .finite s n f hn ∧
      Stored n f ∧ totalExponent m e ≤ totalExponent n f ∧
      totalExponent n f ≤ totalExponent m e + 1 := by
  obtain ⟨k, hk, hlow, hhigh, hmin, hk52, hnormal⟩ := shiftToTargetExponent_bounds acc hm he htop
  generalize hfirst : shiftToTargetExponent Format.binary64 m e acc = first at *
  obtain ⟨hge, hle⟩ := roundedMantissa_bounds first.1
  have hpos : 0 < first.1.roundedMantissa := (Nat.two_pow_pos k).trans_le (hlow.trans hge)
  have hkpow : 2 ^ (k + 1) ≤ 2 ^ 53 := Nat.pow_le_pow_right (by norm_num) (by omega)
  obtain ⟨hnpos, hstored, htotal⟩ :=
    shiftToTargetExponent_carry (m := first.1.roundedMantissa) (e := first.2) hpos (by omega) hmin
      (hnormal.imp (fun h => by rw [h] at hlow; omega) id)
  have hlogLow : k ≤ first.1.roundedMantissa.log2 := (Nat.le_log2 hpos.ne').mpr (by omega)
  have hlogHigh : first.1.roundedMantissa.log2 < k + 2 := by
    refine (Nat.log2_lt hpos.ne').mpr ?_
    have hdouble : 2 ^ (k + 2) = 2 * 2 ^ (k + 1) := pow_succ' 2 (k + 1)
    have := Nat.two_pow_pos (k + 1)
    omega
  refine ⟨_, _, hnpos, ?_, hstored, ?_, ?_⟩
  · simp only [roundWithAccuracy, hfirst]
    rw [dif_neg hnpos.ne']
  · rw [htotal, ← hk, totalExponent]
    omega
  · rw [htotal, ← hk, totalExponent]
    omega

theorem totalExponent_shiftLeft {m : ℕ} (e : ℤ) (k : ℕ) (hm : 0 < m) :
    totalExponent (m <<< k) (e - k) = totalExponent m e := by
  have hlog : (m <<< k).log2 = m.log2 + k := by
    rw [Nat.shiftLeft_eq, Nat.log2_eq_iff (Nat.mul_pos hm (Nat.two_pow_pos k)).ne']
    constructor
    · rw [pow_add]
      exact Nat.mul_le_mul_right _ (Nat.log2_self_le hm.ne')
    · rw [Nat.add_right_comm, pow_add]
      exact Nat.mul_lt_mul_of_pos_right Nat.lt_log2_self (Nat.two_pow_pos k)
  simp only [totalExponent, hlog]
  omega

theorem round_total (s : Sign) {m : ℕ} (e : ℤ) (hm : 0 < m) (htop : -1073 ≤ totalExponent m e) :
    ∃ n f, ∃ hn : 0 < n, UnpackedFloat.round Format.binary64 s m e = .finite s n f hn ∧
      Stored n f ∧ totalExponent m e ≤ totalExponent n f ∧
      totalExponent n f ≤ totalExponent m e + 1 := by
  simp only [UnpackedFloat.round, decreaseExponent]
  generalize hk : (e - Format.binary64.targetExponent (totalExponent m e)).toNat = k
  have hshift := totalExponent_shiftLeft e k hm
  have hpos : 0 < m <<< k := by
    rw [Nat.shiftLeft_eq]
    exact Nat.mul_pos hm (Nat.two_pow_pos k)
  rw [← hshift] at htop ⊢
  refine roundWithAccuracy_total s .exact hpos ?_ htop
  rw [hshift]
  omega

theorem unpackSign_packComponents (spec : Format) (s : Sign) (e : BitVec spec.exponentBits)
    (m : BitVec spec.mantissaBitsWithoutImplicit) :
    unpackSign (packComponents spec s e m) = s.toBitVec := by
  apply BitVec.eq_of_getLsbD_eq
  intro i hi
  obtain rfl : i = 0 := by omega
  simp [unpackSign, packComponents, BitVec.getLsbD_append, BitVec.getElem_append]

theorem ofBitVec_toBitVec (s : Sign) : Sign.ofBitVec s.toBitVec = s := by
  cases s <;> rfl

theorem unpack_packedInfinity (s : Sign) :
    unpack Format.binary64 (packedInfinity Format.binary64 s) = .infinity s := by
  cases s <;> rfl

theorem toNat_leading (v : BitVec 52) : (1#1 ++ v).toNat = 2 ^ 52 + v.toNat := by
  rw [BitVec.toNat_append, ← Nat.shiftLeft_add_eq_or_of_lt v.isLt, Nat.shiftLeft_eq]
  rfl

theorem unpack_normal (s : Sign) {m b : ℕ} (hm : 0 < m) (hlow : 2 ^ 52 ≤ m) (hlt : m < 2 ^ 53)
    (hb : 0 < b) (hb' : b < 2047) :
    unpack Format.binary64 (packComponents Format.binary64 s (BitVec.ofNat _ b)
      (BitVec.ofNat _ m)) = .finite s m (b - 1075) hm := by
  have hexp : (BitVec.ofNat Format.binary64.exponentBits b).toNat = b :=
    BitVec.toNat_ofNat b 11 ▸ Nat.mod_eq_of_lt (by omega)
  have hinf : BitVec.ofNat Format.binary64.exponentBits b ≠ -1#_ := by
    intro h
    have h' := congrArg BitVec.toNat h
    rw [hexp] at h'
    have hall : (-(BitVec.ofNat Format.binary64.exponentBits 1)).toNat = 2047 := rfl
    omega
  have hzero : BitVec.ofNat Format.binary64.exponentBits b ≠ 0#_ := by
    intro h
    have h' := congrArg BitVec.toNat h
    rw [hexp, BitVec.toNat_zero] at h'
    omega
  have hmant : (1#1 ++ BitVec.ofNat Format.binary64.mantissaBitsWithoutImplicit m).toNat = m := by
    rw [toNat_leading]
    show 2 ^ 52 + m % 2 ^ 52 = m
    omega
  simp only [unpack, unpackMantissa_packComponents, unpackExponent_packComponents,
    unpackSign_packComponents, ofBitVec_toBitVec, if_neg hinf, if_neg hzero, hmant, hexp]
  congr 1

theorem unpack_subnormal (s : Sign) {m : ℕ} (hm : 0 < m) (hlt : m < 2 ^ 52) :
    unpack Format.binary64 (packComponents Format.binary64 s 0#_ (BitVec.ofNat _ m)) =
      .finite s m (-1074) hm := by
  have hmant : (BitVec.ofNat Format.binary64.mantissaBitsWithoutImplicit m).toNat = m :=
    BitVec.toNat_ofNat m 52 ▸ Nat.mod_eq_of_lt hlt
  have hzero : BitVec.ofNat Format.binary64.mantissaBitsWithoutImplicit m ≠ 0#_ := by
    intro h
    have h' := congrArg BitVec.toNat h
    rw [hmant, BitVec.toNat_zero] at h'
    omega
  have hinf : BitVec.ofNat Format.binary64.exponentBits 0 ≠ -1#_ := by decide
  simp only [unpack, unpackMantissa_packComponents, unpackExponent_packComponents,
    unpackSign_packComponents, ofBitVec_toBitVec, if_neg hinf, if_true, dif_neg hzero, hmant]
  congr 1

/-- Packing loses nothing, except that exponents past the greatest become infinite. -/
theorem unpack_pack {m : ℕ} {e : ℤ} (s : Sign) (hm : 0 < m) (h : Stored m e) :
    unpack Format.binary64 (pack Format.binary64 (.finite s m e hm)) =
      if 971 < e then .infinity s else .finite s m e hm := by
  obtain ⟨hlt, hmin, hnormal⟩ := h
  have hbias : (e + Format.binary64.exponentBias + Format.binary64.mantissaBitsWithoutImplicit) =
      e + 1075 := by
    show e + ((1023 : ℕ) : ℤ) + ((52 : ℕ) : ℤ) = e + 1075
    omega
  by_cases hbig : 971 < e
  · have hover : 2 ^ Format.binary64.exponentBits ≤ (e + 1075).toNat + 1 := by
      show 2048 ≤ (e + 1075).toNat + 1
      omega
    simp only [pack, hbias, if_pos hover, if_pos hbig, unpack_packedInfinity]
  · have hover : ¬ 2 ^ Format.binary64.exponentBits ≤ (e + 1075).toNat + 1 := by
      show ¬ 2048 ≤ (e + 1075).toNat + 1
      omega
    by_cases hlead : 2 ^ 52 ≤ m
    · have hlog : m.log2 = 52 := (Nat.log2_eq_iff hm.ne').mpr ⟨hlead, hlt⟩
      have hbits : m.log2 + 1 = Format.binary64.mantissaBits := by rw [hlog]; rfl
      simp only [pack, hbias, if_neg hover, if_neg hbig, if_pos hbits]
      rw [unpack_normal s hm hlead hlt (by omega) (by omega)]
      congr 1
      omega
    · have hbits : ¬ m.log2 + 1 = Format.binary64.mantissaBits := by
        show ¬ m.log2 + 1 = 53
        have hlog : m.log2 < 52 := (Nat.log2_lt hm.ne').mpr (by omega)
        omega
      simp only [pack, hbias, if_neg hover, if_neg hbig, if_neg hbits]
      obtain rfl : e = -1074 := hnormal.resolve_left hlead
      exact unpack_subnormal s hm (by omega)

theorem stored_of_unpack {b : BitVec Format.binary64.numBits} {s : Sign} {m : ℕ} {e : ℤ}
    {hm : 0 < m} (h : unpack Format.binary64 b = .finite s m e hm) : Stored m e ∧ e ≤ 971 := by
  have hmant : (unpackMantissa b).toNat < 2 ^ 52 := (unpackMantissa b).isLt
  have hexp : (unpackExponent b).toNat < 2 ^ 11 := (unpackExponent b).isLt
  have hbias : ((unpackExponent b).toNat : ℤ) - ((Format.binary64.exponentBias : ℤ) +
      (Format.binary64.mantissaBitsWithoutImplicit : ℤ)) = (unpackExponent b).toNat - 1075 := rfl
  simp only [unpack, hbias] at h
  by_cases hinf : unpackExponent b = -1#_
  · rw [if_pos hinf] at h
    split at h <;> cases h
  have hinf' : (unpackExponent b).toNat ≠ 2047 := fun he => hinf (BitVec.eq_of_toNat_eq he)
  rw [if_neg hinf] at h
  by_cases hzero : unpackExponent b = 0#_
  · have hzero' : (unpackExponent b).toNat = 0 := congrArg BitVec.toNat hzero
    rw [if_pos hzero] at h
    split at h
    · cases h
    · cases h
      exact ⟨⟨by omega, by omega, by omega⟩, by omega⟩
  · have hzero' : (unpackExponent b).toNat ≠ 0 := fun he => hzero (BitVec.eq_of_toNat_eq he)
    rw [if_neg hzero] at h
    cases h
    rw [toNat_leading]
    exact ⟨⟨by omega, by omega, by omega⟩, by omega⟩

/-- The unpacked double is at least `2 ^ k`. -/
def Reaches (k : ℤ) : UnpackedFloat → Prop
  | .infinity .positive => True
  | .finite .positive m e _ => k < totalExponent m e
  | _ => False

/-- The unpacked double is positive and less than `2 ^ k`. -/
def StaysBelow (k : ℤ) : UnpackedFloat → Prop
  | .finite .positive m e _ => totalExponent m e ≤ k
  | _ => False

/-- A double of at least `2 ^ k`. -/
def AtLeast (k : ℤ) (x : Float) : Prop := Reaches k x.toModel.unpack

/-- A positive double of less than `2 ^ k`. -/
def Below (k : ℤ) (x : Float) : Prop := StaysBelow k x.toModel.unpack

theorem reaches_cases {k : ℤ} {u : UnpackedFloat} (h : Reaches k u) :
    u = .infinity .positive ∨ ∃ m e, ∃ hm : 0 < m, u = .finite .positive m e hm ∧
      k < totalExponent m e := by
  rcases u with (_ | _) | _ | _ | ⟨(_ | _), m, e, hm⟩ <;> simp_all [Reaches]

theorem AtLeast.mono {j k : ℤ} {x : Float} (h : AtLeast j x) (hkj : k ≤ j) : AtLeast k x := by
  rw [AtLeast]
  rcases reaches_cases h with hu | ⟨m, e, hm, hu, hme⟩ <;> rw [hu]
  · trivial
  · exact hkj.trans_lt hme

theorem reaches_pack {k e : ℤ} {m : ℕ} (hm : 0 < m) (hs : Stored m e)
    (h : k < totalExponent m e) :
    Reaches k (unpack Format.binary64 (pack Format.binary64 (.finite .positive m e hm))) := by
  rw [unpack_pack .positive hm hs]
  split
  · trivial
  · exact h

theorem reaches_round {k e : ℤ} {m : ℕ} (hm : 0 < m) (hk : -1074 ≤ k)
    (h : k < totalExponent m e) :
    Reaches k (unpack Format.binary64 (pack Format.binary64
      (UnpackedFloat.round Format.binary64 .positive m e))) := by
  obtain ⟨n, f, hn, heq, hs, hlow, _⟩ := round_total .positive e hm (by omega)
  rw [heq]
  exact reaches_pack hn hs (by omega)

theorem pos_of_atLeast {k : ℤ} {x : Float} (h : AtLeast k x) : Scale.less (0.0 : Float) x := by
  have hz : rank? 0.0 = some (toLex (0, toLex (0, 0))) := by decide
  rw [less_iff_rank, hz, rank?]
  rcases reaches_cases h with hu | ⟨m, e, hm, hu, _⟩
  · rw [hu]
    exact ⟨_, rfl, _, rfl, by decide⟩
  · rw [hu]
    exact ⟨_, rfl, _, rfl, Prod.Lex.toLex_lt_toLex.mpr (Or.inl Int.one_pos)⟩

/-! ### Sums -/

theorem normalize_natCast {m : ℕ} (e : ℤ) (s : Sign) (hm : 0 < m) :
    UnpackedFloat.normalize Format.binary64 m e s =
      UnpackedFloat.round Format.binary64 .positive m e := by
  have hcmp : compare (m : ℤ) 0 = .gt := compare_gt_iff_gt.mpr (Int.natCast_pos.mpr hm)
  simp only [UnpackedFloat.normalize, hcmp, Int.toNat_natCast]

theorem atLeast_add {k : ℤ} {x y : Float} (hk : -1074 ≤ k) (hx : AtLeast k x)
    (hy : AtLeast k y) : AtLeast k (x + y) := by
  have hinf : Reaches k (unpack Format.binary64 (packedInfinity Format.binary64 .positive)) := by
    rw [unpack_packedInfinity]
    trivial
  show Reaches k (unpack Format.binary64 (pack Format.binary64
    (UnpackedFloat.add Format.binary64 x.toModel.unpack y.toModel.unpack)))
  rcases reaches_cases hx with hu | ⟨m, e, hm, hu, hme⟩ <;>
    rcases reaches_cases hy with hv | ⟨n, f, hn, hv, _⟩ <;> rw [hu, hv]
  · exact hinf
  · exact hinf
  · exact hinf
  · simp only [UnpackedFloat.add, decreaseExponent, Sign.apply]
    generalize hi : (e - min e f).toNat = i
    generalize (f - min e f).toNat = j
    have hpos : 0 < m <<< i := by
      rw [Nat.shiftLeft_eq]
      exact Nat.mul_pos hm (Nat.two_pow_pos i)
    have hsum : 0 < m <<< i + n <<< j := Nat.add_pos_left hpos _
    rw [← Int.natCast_add, normalize_natCast _ _ hsum]
    refine reaches_round hsum hk ?_
    have hmin : e - i = min e f := by omega
    have hshift := totalExponent_shiftLeft e i hm
    rw [hmin] at hshift
    have hlog : (m <<< i).log2 ≤ (m <<< i + n <<< j).log2 := by
      rw [Nat.le_log2 hsum.ne']
      exact (Nat.log2_self_le hpos.ne').trans (Nat.le_add_right _ _)
    simp only [totalExponent] at *
    omega

theorem unpack_zero : (0.0 : Float).toModel.unpack = .zero .positive := rfl

theorem atLeast_zero_add {k : ℤ} {x : Float} (hx : AtLeast k x) : AtLeast k (0.0 + x) := by
  show Reaches k (unpack Format.binary64 (pack Format.binary64
    (UnpackedFloat.add Format.binary64 (0.0 : Float).toModel.unpack x.toModel.unpack)))
  rcases reaches_cases hx with hu | ⟨m, e, hm, hu, hme⟩ <;> rw [unpack_zero, hu]
  · exact (unpack_packedInfinity .positive).symm ▸ trivial
  · exact reaches_pack hm (stored_of_unpack hu).1 hme

/-- A sum of doubles is at least as large as each of them, up to the leading bit. -/
theorem atLeast_sumFrom {k : ℤ} {xs : List Float} (hk : -1074 ≤ k) (hne : xs ≠ [])
    (hxs : ∀ x ∈ xs, AtLeast k x) : AtLeast k (Scale.sumFrom (0.0 : Float) xs) := by
  have hrest : ∀ (ys : List Float) (s : Float), AtLeast k s → (∀ y ∈ ys, AtLeast k y) →
      AtLeast k (Scale.sumFrom s ys) := by
    intro ys
    induction ys with
    | nil => exact fun s hs _ => hs
    | cons y ys ih =>
      intro s hs hys
      exact ih (s + y) (atLeast_add hk hs (hys y (List.mem_cons_self ..)))
        (fun z hz => hys z (List.mem_cons_of_mem _ hz))
  cases xs with
  | nil => exact absurd rfl hne
  | cons x xs =>
    exact hrest xs (0.0 + x) (atLeast_zero_add (hxs x (List.mem_cons_self ..)))
      (fun z hz => hxs z (List.mem_cons_of_mem _ hz))

theorem Stored.le_targetExponent {m : ℕ} {e : ℤ} (h : Stored m e) (hm : 0 < m) :
    e ≤ Format.binary64.targetExponent (totalExponent m e) ∧ -1073 ≤ totalExponent m e := by
  obtain ⟨_, hmin, hnormal⟩ := h
  have hlead : 2 ^ 52 ≤ m → 52 ≤ m.log2 := fun h => (Nat.le_log2 hm.ne').mpr h
  rw [targetExponent_eq, totalExponent]
  omega

/-- A product with one, written as a power of two and its inverse. -/
theorem mul_one_total {m n j : ℕ} {e f : ℤ} (hm : 0 < m) (hn : 0 < n)
    (he : e ≤ Format.binary64.targetExponent (totalExponent m e))
    (htop : -1073 ≤ totalExponent m e) (hpow : n = 2 ^ j) (hf : f = -j) :
    ∃ k g, ∃ hk : 0 < k, mul Format.binary64 (.finite .positive m e hm)
        (.finite .positive n f hn) = .finite .positive k g hk ∧ Stored k g ∧
      totalExponent m e ≤ totalExponent k g ∧ totalExponent k g ≤ totalExponent m e + 1 := by
  have hshift := totalExponent_shiftLeft e j hm
  have hprod : m * n = m <<< j := by rw [Nat.shiftLeft_eq, hpow]
  have hsum : e + f = e - j := by omega
  have hpos : 0 < m <<< j := hprod ▸ Nat.mul_pos hm hn
  simp only [mul, hprod, hsum]
  rw [← hshift] at htop ⊢
  refine roundWithAccuracy_total .positive .exact hpos ?_ htop
  rw [hshift]
  omega

/-- A positive count is a double with the same leading bit, up to two carries. -/
theorem ofNat_total {n : ℕ} (hn : 0 < n) :
    ∃ k g, ∃ hk : 0 < k, (Float.ofNat n).toModel.unpack =
        unpack Format.binary64 (pack Format.binary64 (.finite .positive k g hk)) ∧
      Stored k g ∧ (n.log2 : ℤ) + 1 ≤ totalExponent k g ∧
      totalExponent k g ≤ (n.log2 : ℤ) + 3 := by
  have hzero : totalExponent n 0 = n.log2 + 1 := by simp [totalExponent]
  by_cases hsmall : n < 2 ^ 53 ∧ 0 ≤ 22
  · -- a word, multiplied by the power of ten with exponent zero
    obtain ⟨m, e, hm, hround, hs, hlow, hhigh⟩ := round_total .positive 0 hn (by omega)
    have hlog : n.log2 < 53 := (Nat.log2_lt hn.ne').mpr hsmall.1
    have hcount : n.toUInt64.toFloat.toModel.unpack = .finite .positive m e hm := by
      have hword : n.toUInt64.toNat = n := Nat.mod_eq_of_lt (by omega)
      show unpack Format.binary64 (pack Format.binary64
        (UnpackedFloat.normalize Format.binary64 (n.toUInt64.toNat : ℤ) 0 .positive)) = _
      have hexp : e ≤ totalExponent m e := by
        rw [totalExponent]
        omega
      rw [hword, normalize_natCast 0 _ hn, hround, unpack_pack .positive hm hs,
        if_neg (by omega)]
    have hone : (Float.exactlyRepresentablePowersOfTen[0]).toModel.unpack =
        .finite .positive (2 ^ 52) (-52) (Nat.two_pow_pos 52) := rfl
    obtain ⟨he, htop⟩ := hs.le_targetExponent hm
    obtain ⟨k, g, hk, hmul, hkg, hlow', hhigh'⟩ :=
      mul_one_total (j := 52) (f := -52) hm (Nat.two_pow_pos 52) he htop rfl rfl
    refine ⟨k, g, hk, ?_, hkg, by omega, by omega⟩
    have hdef : Float.ofNat n = n.toUInt64.toFloat * Float.exactlyRepresentablePowersOfTen[0] :=
      dif_pos hsmall
    rw [hdef]
    show unpack Format.binary64 (pack Format.binary64 (mul Format.binary64
      n.toUInt64.toFloat.toModel.unpack
      (Float.exactlyRepresentablePowersOfTen[0]).toModel.unpack)) = _
    rw [hcount, hone, hmul]
  · -- a significand of its own, multiplied by the power of ten with exponent zero
    have hpos : 0 < n <<< 53 := by
      rw [Nat.shiftLeft_eq]
      exact Nat.mul_pos hn (Nat.two_pow_pos 53)
    have hshift : totalExponent (n <<< 53) (-53) = totalExponent n 0 :=
      totalExponent_shiftLeft 0 53 hn
    have hbig : 53 ≤ n.log2 := (Nat.le_log2 hn.ne').mpr (by omega)
    obtain ⟨k, g, hk, hmul, hkg, hlow', hhigh'⟩ :=
      mul_one_total (j := 0) (e := -53) (f := 0) hpos Nat.one_pos
        (by rw [targetExponent_eq]; omega) (by omega) (Nat.pow_zero 2).symm rfl
    refine ⟨k, g, hk, ?_, hkg, by omega, by omega⟩
    have hdef : Float.ofNat n = Float.ofModel (Float.Model.ofScientific n (Int.ofNat 0)) :=
      dif_neg hsmall
    have hnear : ¬ (0 : ℤ) < -(2 ^ Format.binary64.exponentBits + n.log2) := by
      show ¬ (0 : ℤ) < -(2048 + n.log2)
      omega
    rw [hdef, ← hmul]
    show unpack Format.binary64 (pack Format.binary64
      (UnpackedFloat.ofScientific Format.binary64 n 0)) = _
    rw [UnpackedFloat.ofScientific, dif_neg hn.ne', if_neg (by decide), if_neg hnear,
      if_pos le_rfl]
    rfl

theorem atLeast_ofNat {n : ℕ} (hn : 0 < n) : AtLeast n.log2 (Float.ofNat n) := by
  obtain ⟨k, g, hk, hu, hs, hlow, _⟩ := ofNat_total hn
  rw [AtLeast, hu]
  exact reaches_pack hk hs (by omega)

theorem below_ofNat {n : ℕ} (hn : 0 < n) (hlog : n.log2 ≤ 1000) :
    Below (n.log2 + 3) (Float.ofNat n) := by
  obtain ⟨k, g, hk, hu, hs, _, hhigh⟩ := ofNat_total hn
  have hexp : g ≤ 971 := by
    obtain ⟨_, _, hnormal⟩ := hs
    have hlead : 2 ^ 52 ≤ k → 52 ≤ k.log2 := fun h => (Nat.le_log2 hk.ne').mpr h
    rw [totalExponent] at hhigh
    omega
  rw [Below, hu, unpack_pack .positive hk hs, if_neg (by omega)]
  exact hhigh

/-- The leading bit of a quotient is where the leading bits of the operands place it, or lower by
one; the shift before the division makes room for it. -/
theorem divCore_total {m n : ℕ} {e f : ℤ} (hm : 0 < m) (hn : 0 < n)
    (htop : -1073 ≤ totalExponent m e - totalExponent n f) :
    ∃ q g acc, divCore Format.binary64 m e n f = (q, g, acc) ∧ 0 < q ∧
      g ≤ Format.binary64.targetExponent (totalExponent q g) ∧
      totalExponent m e - totalExponent n f ≤ totalExponent q g := by
  simp only [divCore, targetExponent_eq]
  generalize hg : min (e - f) (max (totalExponent m e - totalExponent n f - 53) (-1074)) = g
  generalize hs : (e - f - g).toNat = s
  have hroom : n.log2 + 1 ≤ m.log2 + s := by
    simp only [totalExponent] at *
    omega
  have hquot : 2 ^ (m.log2 + s - (n.log2 + 1)) ≤ m <<< s / n := by
    rw [Nat.le_div_iff_mul_le hn, Nat.shiftLeft_eq]
    calc 2 ^ (m.log2 + s - (n.log2 + 1)) * n
        ≤ 2 ^ (m.log2 + s - (n.log2 + 1)) * 2 ^ (n.log2 + 1) :=
          Nat.mul_le_mul_left _ Nat.lt_log2_self.le
      _ = 2 ^ m.log2 * 2 ^ s := by rw [← pow_add, Nat.sub_add_cancel hroom, pow_add]
      _ ≤ m * 2 ^ s := Nat.mul_le_mul_right _ (Nat.log2_self_le hm.ne')
  have hpos : 0 < m <<< s / n := (Nat.two_pow_pos _).trans_le hquot
  have hlog := (Nat.le_log2 hpos.ne').mpr hquot
  refine ⟨_, _, _, rfl, hpos, ?_, ?_⟩ <;> simp only [totalExponent] at * <;> omega

theorem atLeast_div {j k : ℤ} {x y : Float} (hx : AtLeast j x) (hy : Below k y)
    (hjk : -1074 ≤ j - k) : AtLeast (j - k) (x / y) := by
  show Reaches (j - k) (unpack Format.binary64 (pack Format.binary64
    (UnpackedFloat.div Format.binary64 x.toModel.unpack y.toModel.unpack)))
  rw [Below] at hy
  rcases hv : y.toModel.unpack with (_ | _) | _ | _ | ⟨(_ | _), n, f, hn⟩ <;> rw [hv] at hy <;>
    simp only [StaysBelow] at hy
  rcases reaches_cases hx with hu | ⟨m, e, hm, hu, hme⟩ <;> rw [hu]
  · exact (unpack_packedInfinity .positive).symm ▸ trivial
  · obtain ⟨q, g, acc, hdiv, hq, hg, htotal⟩ := divCore_total (e := e) (f := f) hm hn (by omega)
    obtain ⟨r, i, hr, hround, hs, hlow, _⟩ :=
      roundWithAccuracy_total .positive acc hq hg (by omega)
    have hpositive : (Sign.positive / Sign.positive) = Sign.positive := rfl
    simp only [UnpackedFloat.div, hdiv, hpositive, hround]
    exact reaches_pack hr hs (by omega)

/-- A share of fewer than `2 ^ 64` events is far enough from zero that rounding does not lose it. -/
theorem atLeast_share {total count : ℕ} (htotal : total < 2 ^ 64) (hcount : 0 < count) :
    AtLeast (-66) (Scale.ofCount count / Scale.ofCount (max total 1)) := by
  have hpos : 0 < max total 1 := by omega
  have hlog : (max total 1).log2 < 64 := (Nat.log2_lt hpos.ne').mpr (by omega)
  exact (atLeast_div (atLeast_ofNat hcount) (below_ofNat hpos (by omega)) (by omega)).mono
    (by omega)

/-- A mean of shares of fewer than `2 ^ 64` events is positive, and far enough from zero that
rounding does not lose it. -/
theorem mean_share_pos {total : ℕ} (htotal : total < 2 ^ 64) {xs : List Float} (hne : xs ≠ [])
    (hlength : xs.length < 2 ^ 256)
    (hxs : ∀ x ∈ xs, ∃ count, 0 < count ∧
      x = Scale.ofCount count / Scale.ofCount (max total 1)) :
    Scale.less (Scale.zero : Float) (Scale.mean xs) := by
  have hshare : ∀ x ∈ xs, AtLeast (-66) x := by
    intro x hx
    obtain ⟨count, hcount, rfl⟩ := hxs x hx
    exact atLeast_share htotal hcount
  have hlen : 0 < xs.length := List.length_pos_iff.mpr hne
  have hlog : xs.length.log2 < 256 := (Nat.log2_lt hlen.ne').mpr hlength
  have hsum : AtLeast (-66) (Scale.sumFrom (0.0 : Float) xs) :=
    atLeast_sumFrom (by decide) hne hshare
  have hmean := atLeast_div hsum (below_ofNat hlen (by omega)) (by omega)
  have hempty : xs.isEmpty = false := List.isEmpty_eq_false_iff.mpr hne
  rw [Scale.mean, hempty]
  exact pos_of_atLeast hmean

end Linkage.Double
