import Linkage.Json.Shape
import Linkage.Proofs.Json.Number
import Linkage.Proofs.Text.Lines

/-!
# Strings in a JSON text

The ways to spell a character inside a string, and what a string of such spellings is read as. Every
character is written in one of these ways, so every text is read as it was written.
-/

namespace Linkage.Json
open Text

/-- One character inside a string: itself, a letter after a backslash, or one or two units. -/
inductive Spelling : Bytes → Char → Prop
  | plain {c : Char} (hcontrol : 0x20 ≤ c.toNat) (hquote : c ≠ '"') (hslash : c ≠ '\\') :
      Spelling (String.utf8EncodeChar c) c
  | letter {e b : UInt8} (h : escapedByte? e = some b) :
      Spelling [byteOf '\\', e] (Char.ofNat b.toNat)
  | unit {h₁ h₂ h₃ h₄ : UInt8} {n : Nat} (h : hexUnit? h₁ h₂ h₃ h₄ = some n)
      (hopen : opensPair n = false) (hclose : closesPair n = false) :
      Spelling [byteOf '\\', byteOf 'u', h₁, h₂, h₃, h₄] (Char.ofNat n)
  | pair {h₁ h₂ h₃ h₄ l₁ l₂ l₃ l₄ : UInt8} {high low : Nat}
      (hhigh : hexUnit? h₁ h₂ h₃ h₄ = some high) (hlow : hexUnit? l₁ l₂ l₃ l₄ = some low)
      (hopen : opensPair high) (hclose : closesPair low) :
      Spelling [byteOf '\\', byteOf 'u', h₁, h₂, h₃, h₄, byteOf '\\', byteOf 'u', l₁, l₂, l₃, l₄]
        (Char.ofNat (pairValue high low))

/-- The inside of a string, by the characters that it stands for. -/
inductive Spells : Bytes → List Char → Prop
  | nil : Spells [] []
  | cons {bs rest : Bytes} {c : Char} {cs : List Char} (hc : Spelling bs c) (hcs : Spells rest cs) :
      Spells (bs ++ rest) (c :: cs)

variable {bs rest input : Bytes} {c : Char} {cs : List Char}

theorem prependTo_append (front back : Bytes) (outcome : Except Fault (Bytes × Bytes)) :
    prependTo front (prependTo back outcome) = prependTo (front ++ back) outcome := by
  cases outcome with
  | error fault => rfl
  | ok result => exact congrArg (fun body => Except.ok (body, result.2)) (List.append_assoc ..).symm

/-- A byte that stands for itself inside a string. -/
def IsPlain (b : UInt8) : Prop := b ≠ byteOf '"' ∧ b ≠ byteOf '\\' ∧ ¬ b < 0x20

theorem stringBody_plain (h : ∀ b ∈ bs, IsPlain b) (input : Bytes) :
    stringBody (bs ++ input) = prependTo bs (stringBody input) := by
  induction bs with
  | nil =>
    cases hinput : stringBody input <;> simp [prependTo, hinput, Except.map]
  | cons b bs ih =>
    rw [List.forall_mem_cons] at h
    obtain ⟨⟨hquote, hslash, hcontrol⟩, hbs⟩ := h
    rw [List.cons_append, stringBody.eq_def]
    dsimp only
    rw [if_neg hquote, if_neg hslash, if_neg hcontrol, ih hbs, prependTo_append]
    rfl

theorem afterString_plain (h : ∀ b ∈ bs, IsPlain b) (input : Bytes) :
    afterString (bs ++ input) = afterString input := by
  induction bs with
  | nil => rfl
  | cons b bs ih =>
    rw [List.forall_mem_cons] at h
    obtain ⟨⟨hquote, hslash, hcontrol⟩, hbs⟩ := h
    rw [List.cons_append, afterString.eq_def]
    dsimp only
    rw [if_neg hquote, if_neg hslash, if_neg hcontrol, ih hbs]

theorem isPlain_of_mem_utf8EncodeChar (hcontrol : 0x20 ≤ c.toNat) (hquote : c ≠ '"')
    (hslash : c ≠ '\\') {b : UInt8} (hb : b ∈ String.utf8EncodeChar c) : IsPlain b := by
  refine ⟨?_, ?_, fun hlt => ?_⟩
  · rintro rfl
    exact hquote (Char.toNat_inj.mp ((ascii_mem_utf8EncodeChar (by decide)).mp hb))
  · rintro rfl
    exact hslash (Char.toNat_inj.mp ((ascii_mem_utf8EncodeChar (by decide)).mp hb))
  · have hlt : b.toNat < 0x20 := UInt8.lt_iff_toNat_lt.mp hlt
    have hc := (ascii_mem_utf8EncodeChar (by omega)).mp hb
    omega

theorem codePointBytes_eq (n : Nat) : codePointBytes n = String.utf8EncodeChar (Char.ofNat n) := by
  rw [codePointBytes, encode_eq_flatMap, String.toList_singleton, List.flatMap_singleton]

theorem not_unit_of_escapedByte? {e b : UInt8} (h : escapedByte? e = some b) : e ≠ byteOf 'u' := by
  rintro rfl
  cases h

theorem escapedByte?_bytes {e b : UInt8} (h : escapedByte? e = some b) :
    String.utf8EncodeChar (Char.ofNat b.toNat) = [b] := by
  unfold escapedByte? at h
  split_ifs at h with hself <;> cases h
  · rcases hself with rfl | rfl | rfl <;> rfl
  all_goals rfl

/-! What follows a backslash. -/

theorem stringBody_letter {e b : UInt8} (h : escapedByte? e = some b) (input : Bytes) :
    stringBody (byteOf '\\' :: e :: input) = prependTo [b] (stringBody input) := by
  rw [stringBody.eq_def]
  dsimp only
  rw [if_neg (by decide), if_pos rfl, if_neg (not_unit_of_escapedByte? h), h]

theorem stringBody_unit {h₁ h₂ h₃ h₄ : UInt8} {n : Nat} (h : hexUnit? h₁ h₂ h₃ h₄ = some n)
    (hopen : opensPair n = false) (hclose : closesPair n = false) (input : Bytes) :
    stringBody (byteOf '\\' :: byteOf 'u' :: h₁ :: h₂ :: h₃ :: h₄ :: input) =
      prependTo (codePointBytes n) (stringBody input) := by
  rw [stringBody.eq_def]
  dsimp only
  rw [if_neg (by decide), if_pos rfl, if_pos rfl, h]
  dsimp only
  rw [hclose, hopen, if_neg Bool.false_ne_true, if_neg Bool.false_ne_true]

theorem stringBody_pair {h₁ h₂ h₃ h₄ l₁ l₂ l₃ l₄ : UInt8} {high low : Nat}
    (hhigh : hexUnit? h₁ h₂ h₃ h₄ = some high) (hlow : hexUnit? l₁ l₂ l₃ l₄ = some low)
    (hopen : opensPair high) (hclose : closesPair low) (input : Bytes) :
    stringBody (byteOf '\\' :: byteOf 'u' :: h₁ :: h₂ :: h₃ :: h₄ ::
        byteOf '\\' :: byteOf 'u' :: l₁ :: l₂ :: l₃ :: l₄ :: input) =
      prependTo (codePointBytes (pairValue high low)) (stringBody input) := by
  have hnotClose : ¬ closesPair high := by
    unfold opensPair at hopen
    unfold closesPair
    simp only [Bool.and_eq_true, decide_eq_true_eq] at hopen ⊢
    omega
  rw [stringBody.eq_def]
  dsimp only
  rw [if_neg (by decide), if_pos rfl, if_pos rfl, hhigh]
  dsimp only
  rw [if_neg hnotClose, if_pos hopen, if_pos rfl, if_pos rfl, hlow]
  dsimp only
  rw [if_pos hclose]

theorem Spelling.stringBody (h : Spelling bs c) (input : Bytes) :
    Json.stringBody (bs ++ input) =
      prependTo (String.utf8EncodeChar c) (Json.stringBody input) := by
  cases h with
  | plain hcontrol hquote hslash =>
    exact stringBody_plain
      (fun b hb => isPlain_of_mem_utf8EncodeChar hcontrol hquote hslash hb) input
  | letter h =>
    rw [escapedByte?_bytes h]
    exact stringBody_letter h input
  | unit h hopen hclose =>
    rw [← codePointBytes_eq]
    exact stringBody_unit h hopen hclose input
  | pair hhigh hlow hopen hclose =>
    rw [← codePointBytes_eq]
    exact stringBody_pair hhigh hlow hopen hclose input

theorem afterString_unit {h₁ h₂ h₃ h₄ : UInt8} {n : Nat} (h : hexUnit? h₁ h₂ h₃ h₄ = some n)
    (input : Bytes) :
    afterString (byteOf '\\' :: byteOf 'u' :: h₁ :: h₂ :: h₃ :: h₄ :: input) =
      afterString input := by
  rw [afterString.eq_def]
  dsimp only
  rw [if_neg (by decide), if_pos rfl, if_pos rfl, h, if_pos (Option.isSome_some)]

theorem Spelling.afterString (h : Spelling bs c) (input : Bytes) :
    Json.afterString (bs ++ input) = Json.afterString input := by
  cases h with
  | plain hcontrol hquote hslash =>
    exact afterString_plain
      (fun b hb => isPlain_of_mem_utf8EncodeChar hcontrol hquote hslash hb) input
  | letter h =>
    show Json.afterString (byteOf '\\' :: _ :: input) = _
    rw [afterString.eq_def]
    dsimp only
    rw [if_neg (by decide), if_pos rfl, if_neg (not_unit_of_escapedByte? h), h,
      if_pos Option.isSome_some]
  | unit h hopen hclose => exact afterString_unit h input
  | pair hhigh hlow hopen hclose =>
    exact (afterString_unit hhigh _).trans (afterString_unit hlow input)

/-- A string is read up to its closing quote. -/
theorem Spells.stringBody (h : Spells bs cs) (rest : Bytes) :
    Json.stringBody (bs ++ byteOf '"' :: rest) = .ok (utf8 cs, rest) := by
  induction h with
  | nil =>
    rw [List.nil_append, stringBody.eq_def]
    rfl
  | cons hc hcs ih =>
    rw [List.append_assoc, hc.stringBody, ih]
    rfl

theorem Spells.afterString (h : Spells bs cs) (rest : Bytes) :
    Json.afterString (bs ++ byteOf '"' :: rest) = .ok rest := by
  induction h with
  | nil =>
    rw [List.nil_append, afterString.eq_def]
    rfl
  | cons hc hcs ih => rw [List.append_assoc, hc.afterString, ih]

theorem Spells.readString {s : String} (h : Spells bs s.toList) (rest : Bytes) :
    Json.readString (bs ++ byteOf '"' :: rest) = .ok (s, rest) := by
  have hbody : Json.stringBody (bs ++ byteOf '"' :: rest) = .ok (encode s, rest) := by
    rw [h.stringBody, encode_eq_flatMap]
    rfl
  have hlift (input : Bytes) :
      (liftM (Except.ok (encode s, rest) : Except Fault (Bytes × Bytes)) : Reader _) input =
        .ok ((encode s, rest), input) := rfl
  rw [Json.readString, get_bind, hbody, bind_ok (hlift _)]
  dsimp only
  rw [set_bind, decode?_encode]
  rfl

theorem Spells.skipString (h : Spells bs cs) (rest : Bytes) :
    Json.skipString (bs ++ byteOf '"' :: rest) = .ok ((), rest) := by
  rw [Json.skipString, get_bind, h.afterString]
  rfl

theorem hexUnit?_control : ∀ n < 0x20,
    utf8 ['\\', 'u', '0', '0', Nat.digitChar (n / 16), Nat.digitChar (n % 16)] =
        [byteOf '\\', byteOf 'u', byteOf '0', byteOf '0', byteOf (Nat.digitChar (n / 16)),
          byteOf (Nat.digitChar (n % 16))] ∧
      hexUnit? (byteOf '0') (byteOf '0') (byteOf (Nat.digitChar (n / 16)))
        (byteOf (Nat.digitChar (n % 16))) = some n := by
  decide

theorem spelling_escapeChar (c : Char) : Spelling (utf8 (escapeChar c)) c := by
  rw [escapeChar]
  cases hletter : escapeLetter? c with
  | some l =>
    unfold escapeLetter? at hletter
    split at hletter <;> cases hletter
    · exact Spelling.letter (b := 0x22) rfl
    · exact Spelling.letter (b := 0x5C) rfl
    · exact Spelling.letter (b := 0x08) rfl
    · exact Spelling.letter (b := 0x0C) rfl
    · exact Spelling.letter (b := 0x0A) rfl
    · exact Spelling.letter (b := 0x0D) rfl
    · exact Spelling.letter (b := 0x09) rfl
  | none =>
    dsimp only
    split_ifs with hcontrol
    · obtain ⟨hbytes, hunit⟩ := hexUnit?_control c.toNat hcontrol
      have hopen : opensPair c.toNat = false := by
        simp only [opensPair, Bool.and_eq_false_iff, decide_eq_false_iff_not]
        omega
      have hclose : closesPair c.toNat = false := by
        simp only [closesPair, Bool.and_eq_false_iff, decide_eq_false_iff_not]
        omega
      have h := Spelling.unit hunit hopen hclose
      rwa [Char.ofNat_toNat, ← hbytes] at h
    · have hplain : utf8 [c] = String.utf8EncodeChar c := List.flatMap_singleton ..
      rw [hplain]
      refine .plain (Nat.le_of_not_lt hcontrol) ?_ ?_
      · rintro rfl
        cases hletter
      · rintro rfl
        cases hletter

theorem spells_escapeChar (cs : List Char) : Spells (utf8 (cs.flatMap escapeChar)) cs := by
  induction cs with
  | nil => exact .nil
  | cons c cs ih =>
    rw [List.flatMap_cons, utf8_append]
    exact .cons (spelling_escapeChar c) ih

end Linkage.Json
