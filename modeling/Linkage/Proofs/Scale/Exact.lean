import Linkage.Proofs.Scale.Finite

/-!
# Doubles that are kept

A positive double is known by its mantissa and its exponent, and its bits are those two in one
number. So among positive doubles the total order is that of the comparisons. A double that is
added to zero or divided by one is rounded to itself, and thus it is the mean of itself alone.
-/

namespace Linkage.Double
open Float.Model (Format UnpackedFloat totalExponent)
open Float.Model.UnpackedFloat

theorem toNat_fields (b : BitVec Format.binary64.numBits) :
    b.toNat = (unpackSign b).toNat * 2 ^ 63 + (unpackExponent b).toNat * 2 ^ 52 +
      (unpackMantissa b).toNat := by
  have hlt : b.toNat < 2 ^ 64 := b.isLt
  have hsign : (unpackSign b).toNat = b.toNat / 2 ^ 63 % 2 ^ 1 := by
    simp only [unpackSign, BitVec.toNat_cast, BitVec.extractLsb_toNat, Nat.shiftRight_eq_div_pow]
  have hexp : (unpackExponent b).toNat = b.toNat / 2 ^ 52 % 2 ^ 11 := by
    simp only [unpackExponent, BitVec.toNat_cast, BitVec.extractLsb_toNat,
      Nat.shiftRight_eq_div_pow]
  have hmant : (unpackMantissa b).toNat = b.toNat / 2 ^ 0 % 2 ^ 52 := by
    simp only [unpackMantissa, BitVec.toNat_cast, BitVec.extractLsb_toNat,
      Nat.shiftRight_eq_div_pow]
  omega

/-- The leading bit of a mantissa is the last bit of the exponent. -/
theorem toNat_of_unpack {b : BitVec Format.binary64.numBits} {m : ℕ} {e : ℤ} {hm : 0 < m}
    (h : unpack Format.binary64 b = .finite .positive m e hm) :
    (b.toNat : ℤ) = (e + 1074) * 2 ^ 52 + m := by
  have hbias : ((unpackExponent b).toNat : ℤ) - ((Format.binary64.exponentBias : ℤ) +
      (Format.binary64.mantissaBitsWithoutImplicit : ℤ)) = (unpackExponent b).toNat - 1075 := rfl
  have hsign : Sign.ofBitVec (unpackSign b) = .positive → (unpackSign b).toNat = 0 := by
    intro hpositive
    rw [Sign.ofBitVec] at hpositive
    split at hpositive
    · rename_i hzero
      exact congrArg BitVec.toNat hzero
    · cases hpositive
  rw [toNat_fields b]
  simp only [unpack, hbias] at h
  split at h
  · split at h <;> cases h
  · split at h
    · rename_i hzero
      have hzero : (unpackExponent b).toNat = 0 := congrArg BitVec.toNat hzero
      split at h
      · cases h
      · obtain ⟨hs, rfl, rfl⟩ := UnpackedFloat.finite.inj h
        rw [hsign hs]
        omega
    · obtain ⟨hs, rfl, rfl⟩ := UnpackedFloat.finite.inj h
      rw [hsign hs, toNat_leading]
      omega

variable {x y : Float} {m n : ℕ} {e f : ℤ} {hm : 0 < m} {hn : 0 < n}

theorem eq_of_unpack (hx : x.toModel.unpack = .finite .positive m e hm)
    (hy : y.toModel.unpack = .finite .positive m e hm) : x = y := by
  have hbits : x.toModel.toBits = y.toModel.toBits := by
    have hx := toNat_of_unpack hx
    have hy := toNat_of_unpack hy
    refine UInt64.toBitVec_inj.mp (BitVec.eq_of_toNat_eq ?_)
    omega
  obtain ⟨⟨bits, hvalid⟩⟩ := x
  obtain ⟨⟨bits', hvalid'⟩⟩ := y
  obtain rfl : bits = bits' := hbits
  rfl

/-- Positive doubles are ranked as they compare. -/
theorem ranksUpTo_iff_of_unpack (hx : x.toModel.unpack = .finite .positive m e hm)
    (hy : y.toModel.unpack = .finite .positive n f hn) :
    Scale.ranksUpTo x y ↔ Scale.atMost x y := by
  have hplaces : Scale.atMost x y ↔ e < f ∨ e = f ∧ m ≤ n := by
    rw [atMost_iff_rank, rank?, rank?, hx, hy]
    simp [place?, Prod.Lex.toLex_le_toLex]
  have hrank {z : Float} {k : ℕ} {g : ℤ} {hk : 0 < k}
      (hz : z.toModel.unpack = .finite .positive k g hk) :
      (doubleRank z : ℤ) = 2 ^ 63 + ((g + 1074) * 2 ^ 52 + k) := by
    obtain ⟨⟨hlt, -, -⟩, hle⟩ := stored_of_unpack hz
    have hbits : (z.toBits.toNat : ℤ) = (g + 1074) * 2 ^ 52 + k := toNat_of_unpack hz
    have hsmall : ¬ Nat.pow 2 63 ≤ z.toBits.toNat := by
      show ¬ 2 ^ 63 ≤ z.toBits.toNat
      omega
    rw [doubleRank, if_neg hsmall, ← hbits]
    rfl
  obtain ⟨⟨hm', he, hlead⟩, -⟩ := stored_of_unpack hx
  obtain ⟨⟨hn', hf, hlead'⟩, -⟩ := stored_of_unpack hy
  have hx := hrank hx
  have hy := hrank hy
  rw [hplaces]
  show decide (doubleRank x ≤ doubleRank y) = true ↔ _
  rw [decide_eq_true_iff]
  omega

theorem zero_add_of_unpack (hx : x.toModel.unpack = .finite .positive m e hm) : 0.0 + x = x := by
  have hsum : (0.0 + x).toModel.unpack = .finite .positive m e hm := by
    rw [unpack_add, unpack_zero, hx, UnpackedFloat.add, pack_unpack hx]
    all_goals intros; contradiction
  exact eq_of_unpack hsum hx

/-- A mantissa of 53 bits stays as it is, also when it is shifted by what its exponent makes up
for. -/
theorem roundWithAccuracy_exact (hs : Stored m e) (hlead : 2 ^ 52 ≤ m) (i : ℕ) :
    roundWithAccuracy Format.binary64 .positive (m * 2 ^ i) (e - i) .exact =
      .finite .positive m e hm := by
  have hround := round_absorb (r := 0) (n := i) hm hs hlead (by positivity)
  have hlog : (m * 2 ^ i).log2 = 52 + i := by
    rw [← Nat.shiftLeft_eq]
    have hshift := totalExponent_shiftLeft e i hm
    have hm' : m.log2 = 52 := (Nat.log2_eq_iff hm.ne').mpr ⟨hlead, hs.1⟩
    simp only [totalExponent, hm'] at hshift
    omega
  have hzero : (e - i - Format.binary64.targetExponent
      (totalExponent (m * 2 ^ i) (e - i))).toNat = 0 := by
    rw [targetExponent_eq, totalExponent, hlog]
    have := hs.2.1
    omega
  rw [Nat.add_zero] at hround
  simpa only [UnpackedFloat.round, decreaseExponent, hzero, Nat.shiftLeft_zero, Nat.cast_zero,
    Int.sub_zero] using hround

theorem div_one_of_unpack (hx : x.toModel.unpack = .finite .positive m e hm)
    (hlead : 2 ^ 52 ≤ m) : x / Float.ofNat 1 = x := by
  obtain ⟨hs, -⟩ := stored_of_unpack hx
  have hone : (Float.ofNat 1).toModel.unpack =
      .finite .positive (2 ^ 52) (-52) (Nat.two_pow_pos 52) := rfl
  have hlog : m.log2 = 52 := (Nat.log2_eq_iff hm.ne').mpr ⟨hlead, hs.1⟩
  have hlog' : (2 ^ 52 : ℕ).log2 = 52 := Nat.log2_two_pow
  obtain ⟨i, hi⟩ : ∃ i : ℕ, min (e - -52) (max (totalExponent m e -
      totalExponent (2 ^ 52) (-52) - 53) (-1074)) = e - i := by
    refine ⟨(e - min (e - -52) (max (totalExponent m e -
      totalExponent (2 ^ 52) (-52) - 53) (-1074))).toNat, ?_⟩
    have := hs.2.1
    simp only [totalExponent, hlog, hlog']
    omega
  have hcore : divCore Format.binary64 m e (2 ^ 52) (-52) = (m * 2 ^ i, e - i, .exact) := by
    have hshift : (e - -52 - (e - i)).toNat = i + 52 := by omega
    have hprod : m <<< (i + 52) = m * 2 ^ i * 2 ^ 52 := by rw [Nat.shiftLeft_eq, pow_add, mul_assoc]
    simp only [divCore, targetExponent_eq, hi, hshift, hprod]
    rw [Nat.mul_div_cancel _ (Nat.two_pow_pos 52), Nat.mul_mod_left]
    rfl
  have hquot : (x / Float.ofNat 1).toModel.unpack = .finite .positive m e hm := by
    show unpack Format.binary64 (pack Format.binary64
      (UnpackedFloat.div Format.binary64 x.toModel.unpack (Float.ofNat 1).toModel.unpack)) = _
    have hpositive : (Sign.positive / Sign.positive) = Sign.positive := rfl
    have hround : roundWithAccuracy Format.binary64 .positive (m * 2 ^ i) (e - i) .exact =
        .finite .positive m e hm := roundWithAccuracy_exact hs hlead i
    rw [hx, hone]
    simp only [UnpackedFloat.div, hcore, hpositive, hround]
    exact pack_unpack hx
  exact eq_of_unpack hquot hx

/-- A positive double with all 53 bits of its mantissa. -/
def Normal (x : Float) : Prop :=
  ∃ m e, ∃ hm : 0 < m, x.toModel.unpack = .finite .positive m e hm ∧ 2 ^ 52 ≤ m

theorem normal_of_bounds {j k : ℤ} (hlow : AtLeast j x) (hhigh : Below k x) (hj : -1022 ≤ j) :
    Normal x := by
  rw [Below] at hhigh
  obtain hu | ⟨m, e, hm, hu, hme⟩ := reaches_cases hlow
  · rw [hu] at hhigh
    cases hhigh
  · refine ⟨m, e, hm, hu, ?_⟩
    by_contra hlead
    have he := (stored_of_unpack hu).1.2.2.resolve_left hlead
    have hlog : m.log2 < 52 := (Nat.log2_lt hm.ne').mpr (by omega)
    rw [totalExponent] at hme
    omega

theorem Normal.mean_singleton (hx : Normal x) : Scale.mean [x] = x := by
  obtain ⟨m, e, hm, hu, hlead⟩ := hx
  show (0.0 + x) / Float.ofNat 1 = x
  rw [zero_add_of_unpack hu, div_one_of_unpack hu hlead]

theorem ranksUpTo_iff (hx : Normal x) (hy : Normal y) :
    Scale.ranksUpTo x y ↔ Scale.atMost x y := by
  obtain ⟨_, _, _, hu, -⟩ := hx
  obtain ⟨_, _, _, hv, -⟩ := hy
  exact ranksUpTo_iff_of_unpack hu hv

end Linkage.Double
