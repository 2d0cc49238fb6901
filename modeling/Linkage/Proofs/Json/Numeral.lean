import Linkage.Proofs.Json.Number

/-!
# Numbers as they are written

A whole number is written as its digits and read again as it was. A finite double is written in one
of three forms, and each of them is a number of a JSON text.
-/

namespace Linkage.Json
open Text Decimal

variable {cs : List Char}

theorem toNat_of_isDigit {c : Char} (hc : c.isDigit) : 48 ≤ c.toNat ∧ c.toNat ≤ 57 :=
  Char.isDigit_iff_toNat.mp hc

theorem byteOf_toNat {c : Char} (hc : c.isDigit) : (byteOf c).toNat = c.toNat :=
  Nat.mod_eq_of_lt (Nat.lt_of_le_of_lt (toNat_of_isDigit hc).2 (by decide))

theorem isDigit_byteOf {c : Char} (hc : c.isDigit) : isDigit (byteOf c) := by
  rw [isDigit, Bool.and_eq_true, decide_eq_true_eq, decide_eq_true_eq, UInt8.le_iff_toNat_le,
    UInt8.le_iff_toNat_le, byteOf_toNat hc]
  exact toNat_of_isDigit hc

theorem digitValue_byteOf {c : Char} (hc : c.isDigit) : digitValue (byteOf c) = c.toNat - 48 := by
  rw [digitValue, byteOf_toNat hc]

theorem utf8_cons_ascii {c : Char} (hc : c.toNat < 128) (cs : List Char) :
    utf8 (c :: cs) = byteOf c :: utf8 cs := by
  rw [utf8_cons, utf8EncodeChar_ascii hc]
  rfl

theorem utf8_digits (h : ∀ c ∈ cs, c.isDigit) : utf8 cs = cs.map byteOf := by
  induction cs with
  | nil => rfl
  | cons c cs ih =>
    rw [List.forall_mem_cons] at h
    have hc : c.toNat < 128 := Nat.lt_of_le_of_lt (toNat_of_isDigit h.1).2 (by decide)
    rw [utf8_cons_ascii hc, ih h.2]
    rfl

theorem IsDigits.of_chars (hne : cs ≠ []) (h : ∀ c ∈ cs, c.isDigit) : IsDigits (utf8 cs) := by
  rw [utf8_digits h]
  refine ⟨fun hnil => hne (List.map_eq_nil_iff.mp hnil), fun b hb => ?_⟩
  obtain ⟨c, hc, rfl⟩ := List.mem_map.mp hb
  exact isDigit_byteOf (h c hc)

theorem IsWhole.of_chars (hne : cs ≠ []) (h : ∀ c ∈ cs, c.isDigit)
    (hzero : ∀ rest, cs = '0' :: rest → rest = []) : IsWhole (utf8 cs) := by
  refine ⟨IsDigits.of_chars hne h, fun rest hrest => ?_⟩
  cases cs with
  | nil => exact absurd rfl hne
  | cons c cs =>
    rw [utf8_digits h, List.map_cons, List.cons.injEq] at hrest
    have hc : c = '0' := by
      rw [← Char.toNat_inj, ← byteOf_toNat (h c List.mem_cons_self), hrest.1]
      rfl
    rw [← hrest.2, hzero cs (by rw [hc]), List.map_nil]

theorem isDigit_of_mem_digits {n : Nat} {c : Char} (hc : c ∈ Nat.toDigits 10 n) : c.isDigit :=
  Nat.isDigit_of_mem_toDigits (by decide) (by decide) hc

theorem digitChar_ne_zero : ∀ n < 10, 0 < n → Nat.digitChar n ≠ '0' := by decide

theorem head_digits_ne_zero {n : Nat} (hn : 0 < n) : (Nat.toDigits 10 n).head? ≠ some '0' := by
  induction n using Nat.strongRecOn with
  | ind n ih =>
    by_cases hlt : n < 10
    · rw [Nat.toDigits_of_lt_base hlt, List.head?_cons, ne_eq, Option.some.injEq]
      exact digitChar_ne_zero n hlt hn
    · have h := ih (n / 10) (by omega) (by omega)
      obtain ⟨c, cs, hcs⟩ :=
        List.exists_cons_of_ne_nil (Nat.toDigits_ne_nil (n := n / 10) (b := 10))
      rw [hcs] at h
      rw [Nat.toDigits_of_base_le (by decide) (Nat.le_of_not_lt hlt), hcs]
      exact h

theorem digits_zero_first {n : Nat} {rest : List Char} (h : Nat.toDigits 10 n = '0' :: rest) :
    n = 0 ∧ rest = [] := by
  rcases Nat.eq_zero_or_pos n with rfl | hn
  · rw [Nat.toDigits_zero] at h
    exact ⟨rfl, (List.cons.inj h).2.symm⟩
  · refine absurd ?_ (head_digits_ne_zero hn)
    rw [h]
    rfl

theorem isWhole_digits (n : Nat) : IsWhole (utf8 (Nat.toDigits 10 n)) :=
  IsWhole.of_chars Nat.toDigits_ne_nil (fun _ hc => isDigit_of_mem_digits hc)
    fun _ hrest => (digits_zero_first hrest).2

theorem isUnsigned_digits (n : Nat) : IsUnsigned (utf8 (Nat.toDigits 10 n)) := by
  simpa using IsUnsigned.intro (isWhole_digits n) .none .none

theorem le_ofDigitChars (cs : List Char) (n : Nat) : n ≤ Nat.ofDigitChars 10 cs n := by
  rw [Nat.ofDigitChars_eq_ofDigitChars_zero]
  have := Nat.le_mul_of_pos_left n (Nat.pow_pos (n := cs.length) (show 0 < 10 by decide))
  omega

theorem absorb_digits (h : ∀ c ∈ cs, c.isDigit) (n : Nat)
    (hbound : Nat.ofDigitChars 10 cs n < Nat.pow 2 64) :
    absorb n (cs.map byteOf) = (Nat.ofDigitChars 10 cs n, cs.length) := by
  induction cs generalizing n with
  | nil => rfl
  | cons c cs ih =>
    rw [List.forall_mem_cons] at h
    have hnext : 10 * n + digitValue (byteOf c) = 10 * n + (c.toNat - '0'.toNat) := by
      rw [digitValue_byteOf h.1]
      rfl
    rw [Nat.ofDigitChars_cons] at hbound ⊢
    have hle := le_ofDigitChars cs (10 * n + (c.toNat - '0'.toNat))
    rw [List.map_cons, absorb, hnext]
    dsimp only
    rw [if_pos (Nat.lt_of_le_of_lt hle hbound), ih h.2 _ hbound]
    rfl

theorem reads_natural_digits {n : Nat} (hn : n < Nat.pow 2 64) :
    Reads (readNumber false) (utf8 (Nat.toDigits 10 n)) (.whole n) := by
  have hdigits : ∀ c ∈ Nat.toDigits 10 n, c.isDigit := fun c hc => isDigit_of_mem_digits hc
  have habsorb : absorb 0 (utf8 (Nat.toDigits 10 n)) = (n, (Nat.toDigits 10 n).length) := by
    rw [utf8_digits hdigits, absorb_digits hdigits, Nat.ofDigitChars_ten_toDigits]
    rwa [Nat.ofDigitChars_ten_toDigits]
  have hlength : (utf8 (Nat.toDigits 10 n)).length = (Nat.toDigits 10 n).length := by
    rw [utf8_digits hdigits, List.length_map]
  have hwhole := isWhole_digits n
  have hread : readNumber false (utf8 (Nat.toDigits 10 n)) = .ok (.whole n, []) := by
    obtain ⟨d, ds, heq, hlead⟩ := hwhole.not_padded
    have htake := readDigits_append hwhole.1.2 ends_nil.noDigit
    rw [List.append_nil, heq] at htake
    rw [heq] at habsorb hlength ⊢
    rw [readNumber, bind_ok htake]
    dsimp only
    rw [if_neg hlead, habsorb, hlength]
    simp only [get_bind, List.head?_nil, reduceCtorEq, if_false, atExponent, Bool.false_eq_true,
      Int.sub_self, ne_eq, not_true_eq_false, Bool.not_false, if_true]
    rfl
  exact ((local_readNumber false (isUnsigned_digits n)).reads hread).1

theorem IsFraction.of_chars (hne : cs ≠ []) (h : ∀ c ∈ cs, c.isDigit) :
    IsFraction (utf8 ('.' :: cs)) := by
  rw [utf8_cons_ascii (by decide)]
  exact .digits (IsDigits.of_chars hne h)

theorem isUnsigned_point {whole fraction : List Char} (hwhole : IsWhole (utf8 whole))
    (hne : fraction ≠ []) (h : ∀ c ∈ fraction, c.isDigit) :
    IsUnsigned (utf8 (whole ++ '.' :: fraction)) := by
  simpa using IsUnsigned.intro hwhole (IsFraction.of_chars hne h) .none

theorem isUnsigned_positional {n : Nat} {whole : Int} (hzero : n = 0 → whole ≤ 1) :
    IsUnsigned (utf8 (positionalText true (Nat.toDigits 10 n) whole)) := by
  have hdigits : ∀ c ∈ Nat.toDigits 10 n, c.isDigit := fun c hc => isDigit_of_mem_digits hc
  have hzeros (k : Nat) : ∀ c ∈ List.replicate k '0', c.isDigit := fun c hc => by
    rw [List.eq_of_mem_replicate hc]
    rfl
  have hpos := Nat.length_toDigits_pos (b := 10) (n := n)
  rw [positionalText]
  dsimp only
  rw [if_pos rfl]
  split_ifs with hwhole hlt
  · show IsUnsigned (utf8 (['0'] ++ '.' :: (_ ++ _)))
    refine isUnsigned_point (isWhole_digits 0) ?_ ?_
    · exact List.append_ne_nil_of_right_ne_nil _ Nat.toDigits_ne_nil
    · exact List.forall_mem_append.mpr ⟨hzeros _, hdigits⟩
  · refine isUnsigned_point (IsWhole.of_chars ?_ ?_ fun rest hrest => ?_) ?_ ?_
    · rw [← List.length_pos_iff, List.length_take]
      omega
    · exact fun c hc => hdigits c (List.mem_of_mem_take hc)
    · have hlead := List.take_append_drop whole.toNat (Nat.toDigits 10 n)
      rw [hrest, List.cons_append] at hlead
      exact (List.append_eq_nil_iff.mp (digits_zero_first hlead.symm).2).1
    · rw [← List.length_pos_iff, List.length_drop]
      omega
    · exact fun c hc => hdigits c (List.mem_of_mem_drop hc)
  · refine isUnsigned_point (IsWhole.of_chars ?_ ?_ fun rest hrest => ?_) (List.cons_ne_nil _ _) ?_
    · exact List.append_ne_nil_of_left_ne_nil Nat.toDigits_ne_nil _
    · exact List.forall_mem_append.mpr ⟨hdigits, hzeros _⟩
    · obtain ⟨c, cs, hcs⟩ := List.exists_cons_of_ne_nil (Nat.toDigits_ne_nil (n := n) (b := 10))
      rw [hcs, List.cons_append, List.cons.injEq] at hrest
      obtain ⟨rfl, rfl⟩ := hrest
      obtain ⟨hn, rfl⟩ := digits_zero_first hcs
      have hone := hzero hn
      rw [List.length_singleton, show whole.toNat - 1 = 0 by omega]
      rfl
    · exact hzeros 1

/-- One digit, a point before any others, and an exponent. -/
theorem isUnsigned_scientific (n : Nat) (e : Int) :
    IsUnsigned (utf8 (scientificText (Nat.toDigits 10 n) e)) := by
  have hdigits : ∀ c ∈ Nat.toDigits 10 n, c.isDigit := fun c hc => isDigit_of_mem_digits hc
  have hwhole : IsWhole (utf8 ((Nat.toDigits 10 n).take 1)) := by
    have hpos := Nat.length_toDigits_pos (b := 10) (n := n)
    refine IsWhole.of_chars ?_ (fun c hc => hdigits c (List.mem_of_mem_take hc))
      fun rest hrest => ?_
    · rw [← List.length_pos_iff, List.length_take]
      omega
    · have hlength := congrArg List.length hrest
      rw [List.length_take, List.length_cons] at hlength
      exact List.eq_nil_of_length_eq_zero (by omega)
  have hsign : IsSign (utf8 [if e < 0 then '-' else '+']) := by
    split_ifs
    · exact .minus
    · exact .plus
  have hexponent := IsExponent.digits (.inl rfl) hsign (isWhole_digits e.natAbs).1
  have htail : utf8 ((if e < 0 then '-' else '+') :: Nat.toDigits 10 e.natAbs) = _ :=
    utf8_append [_] _
  rw [scientificText, List.append_assoc, utf8_append, utf8_append, utf8_cons_ascii (by decide),
    htail]
  refine .intro hwhole ?_ hexponent
  split
  · exact .none
  · rename_i rest hne
    exact .of_chars (fun hnil => hne hnil) fun c hc => hdigits c (List.mem_of_mem_drop hc)

theorem stripZeros_pos {d : Decimal.Numeral} (hd : 0 < d.digits) : 0 < d.stripZeros.digits := by
  induction d using Decimal.Numeral.stripZeros.induct with
  | case1 d h ih =>
    rw [Decimal.Numeral.stripZeros, dif_pos h]
    exact ih (by dsimp only; omega)
  | case2 d h =>
    rw [Decimal.Numeral.stripZeros, dif_neg h]
    exact hd

theorem compareScaled_zero {b : Nat} (hb : 0 < b) (i j : Int) : compareScaled 0 i b j = .lt := by
  have hpos : 0 < b * Nat.pow 2 j.toNat * Nat.pow 10 (-i).toNat :=
    Nat.mul_pos (Nat.mul_pos hb (Nat.pow_pos (by decide))) (Nat.pow_pos (by decide))
  rw [compareScaled, Nat.zero_mul, Nat.zero_mul, Nat.compare_eq_lt]
  exact hpos

/-- Zero does not round to a magnitude above zero. -/
theorem pos_of_readsBack {x : Magnitude} (hx : 0 < x.significand) {d : Decimal.Numeral}
    (h : x.readsBack d) : 0 < d.digits := by
  refine Nat.pos_of_ne_zero fun hd => ?_
  have hlow : 0 < (if x.narrowBelow then 4 * x.significand - 1 else 4 * x.significand - 2) := by
    split_ifs <;> omega
  rw [Magnitude.readsBack, hd, compareScaled_zero hlow] at h
  simp at h

theorem pos_of_ofLength? {x : Magnitude} (hx : 0 < x.significand) {tie : Tie} {scale : Int}
    {n : Nat} {d : Decimal.Numeral} (h : x.ofLength? tie scale n = some d) : 0 < d.digits := by
  rw [Magnitude.ofLength?] at h
  dsimp only at h
  split at h
  · cases h
  · rename_i hbelow _
    cases h
    exact pos_of_readsBack hx hbelow
  · cases h
    exact Nat.succ_pos _
  · rename_i hbelow _
    split at h
    · cases h
      exact pos_of_readsBack hx hbelow
    · cases h
      exact Nat.succ_pos _
    · cases h
      exact Nat.succ_pos _
    · rw [Option.some.injEq] at h
      subst h
      split_ifs
      · exact pos_of_readsBack hx hbelow
      · exact Nat.succ_pos _

theorem shortest_pos {x : Magnitude} (hx : 0 < x.significand) (tie : Tie) :
    0 < (x.shortest tie).digits := by
  rw [Magnitude.shortest, if_neg (Nat.ne_of_gt hx)]
  refine stripZeros_pos ?_
  cases hfound : (List.range 17).findSome? fun n => x.ofLength? tie x.scale (n + 1) with
  | none =>
    exact Nat.mul_pos (Nat.mul_pos hx (Nat.pow_pos (by decide))) (Nat.pow_pos (by decide))
  | some d =>
    obtain ⟨n, -, hn⟩ := List.exists_of_findSome?_eq_some hfound
    exact pos_of_ofLength? hx hn

theorem shortest_zero {x : Magnitude} {tie : Tie} (h : (x.shortest tie).digits = 0) :
    x.shortest tie = ⟨0, 0⟩ := by
  rcases Nat.eq_zero_or_pos x.significand with hx | hx
  · rw [Magnitude.shortest, if_pos hx]
  · have := shortest_pos hx tie
    omega

theorem not_isNaN_isInf {x : Float} (hx : x.isFinite) : ¬ x.isNaN ∧ ¬ x.isInf := by
  have key : ∀ u : Float.Model.UnpackedFloat, u.isFinite → ¬ u.isNaN ∧ ¬ u.isInf := by
    intro u hu
    cases u with
    | notANumber => cases hu
    | infinity s => cases hu
    | zero s => exact ⟨nofun, nofun⟩
    | finite s m e hm => exact ⟨nofun, nofun⟩
  exact key x.toModel.unpack hx

theorem isNumber_realText {x : Float} (hx : x.isFinite) : IsNumber (utf8 (realText x)) := by
  obtain ⟨hnan, hinf⟩ := not_isNaN_isInf hx
  rw [realText, if_pos hx, Layout.render, if_neg hnan, if_neg hinf, String.toList_ofList, withSign]
  have hunsigned : IsUnsigned (utf8 (numberLayout.decimalText
      ((Magnitude.ofBits x.toBits).shortest numberLayout.tie))) := by
    rw [Layout.decimalText]
    split_ifs with hpositional
    · refine isUnsigned_positional fun hd => ?_
      rw [shortest_zero hd]
      decide
    · exact isUnsigned_scientific _ _
  split_ifs
  · rw [utf8_cons_ascii (by decide)]
    exact .negative hunsigned
  · exact .positive hunsigned

end Linkage.Json
