import Linkage.Json.Shape
import Linkage.Proofs.Text.Lines

/-!
# Numbers in a JSON text

The form that a number has in a JSON text, and how it is read: as far as the number goes and no
further, whatever stands behind it, and with a result that depends on the number alone.
-/

namespace Linkage.Json
open Text

section readers

variable {α β : Type} {input rest : Bytes}

theorem bind_ok {r : Reader α} {f : α → Reader β} {a : α} (h : r input = .ok (a, rest)) :
    (r >>= f) input = f a rest := by
  show (r input >>= fun p => f p.1 p.2) = _
  rw [h]
  rfl

theorem get_bind (f : Bytes → Reader β) (input : Bytes) : (get >>= f) input = f input input := rfl

theorem advance_bind (f : Unit → Reader β) (b : UInt8) (rest : Bytes) :
    (advance >>= f) (b :: rest) = f () rest := rfl

theorem set_bind (f : Unit → Reader β) (input rest : Bytes) :
    (set rest >>= f) input = f () rest := rfl

/-- What may follow a number: nothing that continues it. -/
def Ends (rest : Bytes) : Prop := ∀ b ∈ rest.head?,
  isDigit b = false ∧ b ≠ byteOf '.' ∧ b ≠ byteOf 'e' ∧ b ≠ byteOf 'E'

/-- The reader takes the text off the front, whatever follows, and returns the value. -/
def Reads (r : Reader α) (text : Bytes) (a : α) : Prop :=
  ∀ rest, Ends rest → r (text ++ rest) = .ok (a, rest)

/-- The reader takes the text off the front, or fails, and what follows makes no difference. -/
def Local (r : Reader α) (text : Bytes) : Prop :=
  ∃ outcome : Except Fault α, ∀ rest, Ends rest → r (text ++ rest) = outcome.map fun a => (a, rest)

theorem ends_nil : Ends [] := nofun

theorem Local.reads {r : Reader α} {text : Bytes} {a : α} (h : Local r text)
    (hr : r text = .ok (a, rest)) : Reads r text a ∧ rest = [] := by
  obtain ⟨outcome, houtcome⟩ := h
  have hnil := houtcome [] ends_nil
  rw [List.append_nil, hr] at hnil
  cases outcome with
  | error fault => cases hnil
  | ok b =>
    cases hnil
    exact ⟨fun rest hrest => houtcome rest hrest, rfl⟩

end readers

def IsDigits (ds : Bytes) : Prop := ds ≠ [] ∧ ∀ b ∈ ds, isDigit b

/-- Digits without a zero in front of others. -/
def IsWhole (ds : Bytes) : Prop := IsDigits ds ∧ ∀ rest, ds = byteOf '0' :: rest → rest = []

inductive IsFraction : Bytes → Prop
  | none : IsFraction []
  | digits {ds : Bytes} (h : IsDigits ds) : IsFraction (byteOf '.' :: ds)

inductive IsSign : Bytes → Prop
  | none : IsSign []
  | plus : IsSign [byteOf '+']
  | minus : IsSign [byteOf '-']

inductive IsExponent : Bytes → Prop
  | none : IsExponent []
  | digits {letter : UInt8} {sign ds : Bytes} (hletter : letter = byteOf 'e' ∨ letter = byteOf 'E')
      (hsign : IsSign sign) (h : IsDigits ds) : IsExponent (letter :: (sign ++ ds))

inductive IsUnsigned : Bytes → Prop
  | intro {whole fraction exponent : Bytes} (hwhole : IsWhole whole)
      (hfraction : IsFraction fraction) (hexponent : IsExponent exponent) :
      IsUnsigned (whole ++ (fraction ++ exponent))

inductive IsNumber : Bytes → Prop
  | positive {bs : Bytes} (h : IsUnsigned bs) : IsNumber bs
  | negative {bs : Bytes} (h : IsUnsigned bs) : IsNumber (byteOf '-' :: bs)

variable {rest ds fraction exponent : Bytes}

def NoDigit (rest : Bytes) : Prop := ∀ b ∈ rest.head?, isDigit b = false

theorem readDigits_append (hds : ∀ b ∈ ds, isDigit b) (hrest : NoDigit rest) :
    readDigits (ds ++ rest) = .ok (ds, rest) := by
  have hstop : rest.takeWhile isDigit = [] ∧ rest.dropWhile isDigit = rest := by
    cases rest with
    | nil => exact ⟨rfl, rfl⟩
    | cons b rest =>
      have hb := hrest b rfl
      simp [hb]
  show Except.ok (_, _) = _
  rw [List.takeWhile_append_of_pos hds, List.dropWhile_append_of_pos hds, hstop.1, hstop.2,
    List.append_nil]

theorem IsWhole.not_padded (h : IsWhole ds) :
    ∃ d rest, ds = d :: rest ∧ ¬ (d = byteOf '0' ∧ rest ≠ []) := by
  obtain ⟨⟨hne, -⟩, hzero⟩ := h
  cases ds with
  | nil => exact absurd rfl hne
  | cons d ds => exact ⟨d, ds, rfl, fun h => h.2 (hzero ds (h.1 ▸ rfl))⟩

theorem IsDigits.not_sign (h : IsDigits ds) :
    ∃ d rest, ds = d :: rest ∧ ¬ (d = byteOf '+' ∨ d = byteOf '-') := by
  obtain ⟨hne, hdigits⟩ := h
  cases ds with
  | nil => exact absurd rfl hne
  | cons d ds =>
    have hdigit : isDigit d = true := hdigits d List.mem_cons_self
    refine ⟨d, ds, rfl, ?_⟩
    rintro (rfl | rfl) <;> cases hdigit

theorem Ends.noDigit (h : Ends rest) : NoDigit rest := fun b hb => (h b hb).1

theorem IsExponent.noDigit (h : IsExponent exponent) (hrest : Ends rest) :
    NoDigit (exponent ++ rest) := by
  cases h with
  | none => exact hrest.noDigit
  | digits hletter hsign h =>
    rintro b hb
    cases hb
    rcases hletter with rfl | rfl <;> decide

theorem IsFraction.noDigit (h : IsFraction fraction) (hexponent : IsExponent exponent)
    (hrest : Ends rest) : NoDigit (fraction ++ (exponent ++ rest)) := by
  cases h with
  | none => exact hexponent.noDigit hrest
  | digits h =>
    rintro b hb
    cases hb
    decide

theorem IsExponent.not_point (h : IsExponent exponent) (hrest : Ends rest) :
    (exponent ++ rest).head? ≠ some (byteOf '.') := by
  cases h with
  | none => exact fun heq => (hrest _ heq).2.1 rfl
  | digits hletter hsign h =>
    intro heq
    rcases hletter with rfl | rfl <;> cases heq

theorem Ends.not_atExponent (h : Ends rest) : atExponent rest = false := by
  cases rest with
  | nil => rfl
  | cons b rest =>
    obtain ⟨-, -, he, hE⟩ := h b rfl
    simp [atExponent, he, hE]

theorem Local.congr {α : Type} {r r' : Reader α} {text text' : Bytes} (h : Local r' text')
    (heq : ∀ rest, Ends rest → r (text ++ rest) = r' (text' ++ rest)) : Local r text := by
  obtain ⟨outcome, houtcome⟩ := h
  exact ⟨outcome, fun rest hrest => (heq rest hrest).trans (houtcome rest hrest)⟩

theorem local_pure {α : Type} (a : α) : Local (pure a) [] := ⟨.ok a, fun _ _ => rfl⟩

theorem local_throw {α : Type} (fault : Fault) : Local (throw fault : Reader α) [] :=
  ⟨.error fault, fun _ _ => rfl⟩

theorem local_digits {α : Type} {f : Bytes → Reader α} {text : Bytes} (hds : IsDigits ds)
    (htext : ∀ rest, Ends rest → NoDigit (text ++ rest)) (h : Local (f ds) text) :
    Local (readDigits >>= f) (ds ++ text) :=
  h.congr fun rest hrest => by
    rw [List.append_assoc, bind_ok (readDigits_append hds.2 (htext rest hrest))]

theorem local_readScaled (negative : Bool) (significand : Nat) (e : Int) :
    Local (readScaled negative significand e) [] := by
  rw [readScaled]
  cases scaled? (Float.ofNat significand) e with
  | none => exact local_throw _
  | some x => exact local_pure _

/-- The digits of an exponent, whose sign is read. -/
def readPlaces (negative : Bool) (significand : Nat) (start : Int) (down : Bool) :
    Reader Number := do
  let digits ← readDigits
  if digits = [] then
    match ← get with
    | [] => throw .endInValue
    | _ => throw .invalidNumber
  else
    let e := digits.foldl (fun n d => 10 * n + digitValue d) 0
    if e < Nat.pow 2 31 then readScaled negative significand (if down then start - e else start + e)
    else if significand ≠ 0 ∧ !down then throw .outOfRange
    else return .real (signed negative 0)

variable (negative : Bool) (significand : Nat) (start : Int)

theorem local_readPlaces (down : Bool) (hds : IsDigits ds) :
    Local (readPlaces negative significand start down) ds := by
  rw [← List.append_nil ds]
  refine local_digits hds (fun rest hrest => hrest.noDigit) ?_
  rw [if_neg hds.1]
  dsimp only
  split_ifs
  · exact local_readScaled ..
  · exact local_readScaled ..
  · exact local_throw _
  · exact local_pure _

theorem local_readExponent {sign : Bytes} (hsign : IsSign sign) (hds : IsDigits ds) :
    Local (readExponent negative significand start) (sign ++ ds) := by
  cases hsign with
  | none =>
    refine (local_readPlaces negative significand start false hds).congr fun rest hrest => ?_
    obtain ⟨d, ds, rfl, hd⟩ := hds.not_sign
    obtain ⟨hplus, hminus⟩ := not_or.mp hd
    rw [readExponent, List.nil_append, List.cons_append]
    simp only [get_bind, if_neg hminus, if_neg hplus, pure_bind]
    rfl
  | plus => exact (local_readPlaces negative significand start false hds).congr fun _ _ => rfl
  | minus => exact (local_readPlaces negative significand start true hds).congr fun _ _ => rfl

/-- An exponent where there is one, and something else where there is none. -/
theorem local_exponentOr {r : Reader Number} (hr : Local r []) (h : IsExponent exponent) :
    Local (do
      if atExponent (← get) then
        advance
        readExponent negative significand start
      else r) exponent := by
  cases h with
  | none =>
    refine hr.congr fun rest hrest => ?_
    rw [get_bind, List.nil_append, if_neg (Bool.eq_false_iff.mp hrest.not_atExponent)]
  | digits hletter hsign hds =>
    refine (local_readExponent negative significand start hsign hds).congr fun rest hrest => ?_
    rw [get_bind, List.cons_append]
    rw [if_pos (by rcases hletter with rfl | rfl <;> rfl)]
    rfl

/-- A point where there is one, and something else where there is none. -/
theorem local_point {r : Reader Number} {f : Bytes → Reader Number} {text : Bytes}
    (h : Local r text) : Local (do
      let input ← get
      if input.head? = some (byteOf '.') then
        advance
        r
      else f input) (byteOf '.' :: text) :=
  h.congr fun _ _ => rfl

theorem local_noPoint {r : Reader Number} {f : Bytes → Reader Number}
    (h : Local (get >>= f) exponent) (hexponent : IsExponent exponent) : Local (do
      let input ← get
      if input.head? = some (byteOf '.') then
        advance
        r
      else f input) exponent :=
  h.congr fun rest hrest => by
    rw [get_bind, get_bind, if_neg (hexponent.not_point hrest)]

theorem local_readNumber {bs : Bytes} (h : IsUnsigned bs) : Local (readNumber negative) bs := by
  obtain ⟨hwhole, hfraction, hexponent⟩ := h
  rename_i whole fraction exponent
  refine local_digits hwhole.1 (fun rest hrest => ?_) ?_
  · rw [List.append_assoc]
    exact hfraction.noDigit hexponent hrest
  obtain ⟨d, ds, rfl, hlead⟩ := hwhole.not_padded
  dsimp only
  rw [if_neg hlead]
  cases hfraction with
  | none =>
    refine local_noPoint (local_exponentOr _ _ _ ?_ hexponent) hexponent
    split_ifs
    · exact local_readScaled ..
    · exact local_pure _
    · exact local_pure _
    · exact local_pure _
  | digits hfs =>
    refine local_point (local_digits hfs (fun rest hrest => hexponent.noDigit hrest) ?_)
    rw [if_neg hfs.1]
    exact local_exponentOr _ _ _ (local_readScaled ..) hexponent

/-! ### Skipping numbers -/

theorem skipDigits_append (hds : IsDigits ds) (hrest : NoDigit rest) :
    skipDigits (ds ++ rest) = .ok ((), rest) := by
  rw [skipDigits, bind_ok (readDigits_append hds.2 hrest), if_neg hds.1]
  rfl

def skipExponent : Reader Unit := do
  if atExponent (← get) then
    advance
    match (← get).head? with
    | some b => if b = byteOf '+' ∨ b = byteOf '-' then advance
    | none => pure ()
    skipDigits

theorem reads_skipExponent (h : IsExponent exponent) : Reads skipExponent exponent () := by
  intro rest hrest
  cases h with
  | none =>
    rw [skipExponent, get_bind, List.nil_append,
      if_neg (Bool.eq_false_iff.mp hrest.not_atExponent)]
    rfl
  | digits hletter hsign hds =>
    rename_i letter sign ds
    have hat : atExponent (letter :: (sign ++ ds) ++ rest) = true := by
      rcases hletter with rfl | rfl <;> rfl
    have hskip := skipDigits_append hds hrest.noDigit
    rw [skipExponent, get_bind, if_pos hat]
    cases hsign with
    | none =>
      obtain ⟨d, ds, rfl, hd⟩ := hds.not_sign
      rw [List.nil_append, List.cons_append, advance_bind, get_bind, List.cons_append]
      dsimp only [List.head?_cons]
      rw [if_neg hd]
      exact hskip
    | plus => exact hskip
    | minus => exact hskip

theorem reads_skipNumber {bs : Bytes} (h : IsUnsigned bs) : Reads skipNumber bs () := by
  intro rest hrest
  obtain ⟨hwhole, hfraction, hexponent⟩ := h
  rename_i whole fraction exponent
  have htail : NoDigit (exponent ++ rest) := hexponent.noDigit hrest
  rw [skipNumber, List.append_assoc, List.append_assoc,
    bind_ok (readDigits_append hwhole.1.2 (hfraction.noDigit hexponent hrest))]
  obtain ⟨d, ds, rfl, hlead⟩ := hwhole.not_padded
  dsimp only
  rw [if_neg hlead, get_bind]
  cases hfraction with
  | none =>
    rw [List.nil_append, if_neg (hexponent.not_point hrest)]
    exact reads_skipExponent hexponent rest hrest
  | digits hfs =>
    exact (bind_ok (f := fun _ => skipExponent) (skipDigits_append hfs htail)).trans
      (reads_skipExponent hexponent rest hrest)

end Linkage.Json
