import Linkage.Proofs.Json.Tree

/-!
# Spelled trees as texts

Whatever spells a tree is a text: outside of its strings there is only ASCII, and inside of them a
character either stands for itself or is escaped in ASCII.
-/

namespace Linkage.Json
open Text

/-- The bytes are those of a text. -/
def IsText (bs : Bytes) : Prop := ∃ cs : List Char, bs = utf8 cs

variable {bs rest : Bytes}

theorem IsText.decode?_isSome (h : IsText bs) : (decode? bs).isSome := by
  obtain ⟨cs, rfl⟩ := h
  rw [← encode_ofList, decode?_encode]
  rfl

theorem isText_nil : IsText [] := ⟨[], rfl⟩

theorem IsText.append (h : IsText bs) (hrest : IsText rest) : IsText (bs ++ rest) := by
  obtain ⟨cs, rfl⟩ := h
  obtain ⟨ds, rfl⟩ := hrest
  exact ⟨cs ++ ds, (utf8_append cs ds).symm⟩

theorem isText_char (c : Char) : IsText (String.utf8EncodeChar c) :=
  ⟨[c], (List.flatMap_singleton ..).symm⟩

theorem isText_singleton {b : UInt8} (hb : b.toNat < 128) : IsText [b] := by
  have hc : (Char.ofNat b.toNat).toNat = b.toNat := by
    rw [Char.ofNat, dif_pos (Or.inl (by omega))]
    rfl
  have hchar := isText_char (Char.ofNat b.toNat)
  rwa [utf8EncodeChar_ascii (hc.symm ▸ hb), hc, Nat.toUInt8_eq, UInt8.ofNat_toNat] at hchar

theorem IsText.cons {b : UInt8} (h : IsText bs) (hb : b.toNat < 128) : IsText (b :: bs) :=
  (isText_singleton hb).append h

theorem isText_ascii (h : ∀ b ∈ bs, b.toNat < 128) : IsText bs := by
  induction bs with
  | nil => exact isText_nil
  | cons b bs ih =>
    obtain ⟨hb, hbs⟩ := List.forall_mem_cons.mp h
    exact (ih hbs).cons hb

theorem isText_of_all (h : bs.all (·.toNat < 128)) : IsText bs :=
  isText_ascii fun b hb => of_decide_eq_true (List.all_eq_true.mp h b hb)

theorem Blanks.isText (h : Blanks bs) : IsText bs := by
  refine isText_ascii fun b hb => ?_
  rcases isSpace_cases (h b hb) with rfl | rfl | rfl | rfl <;> decide

theorem toNat_lt_of_isDigit {b : UInt8} (hb : isDigit b) : b.toNat < 128 := by
  simp only [isDigit, Bool.and_eq_true, decide_eq_true_eq, UInt8.le_iff_toNat_le] at hb
  exact Nat.lt_of_le_of_lt hb.2 (by decide)

theorem IsDigits.isText (h : IsDigits bs) : IsText bs :=
  isText_ascii fun b hb => toNat_lt_of_isDigit (h.2 b hb)

theorem IsFraction.isText (h : IsFraction bs) : IsText bs := by
  cases h with
  | none => exact isText_nil
  | digits h => exact h.isText.cons (by decide)

theorem IsSign.isText (h : IsSign bs) : IsText bs := by
  cases h with
  | none => exact isText_nil
  | plus => exact isText_singleton (by decide)
  | minus => exact isText_singleton (by decide)

theorem IsExponent.isText (h : IsExponent bs) : IsText bs := by
  cases h with
  | none => exact isText_nil
  | digits hletter hsign h =>
    refine (hsign.isText.append h.isText).cons ?_
    rcases hletter with rfl | rfl <;> decide

theorem IsUnsigned.isText (h : IsUnsigned bs) : IsText bs := by
  obtain ⟨hwhole, hfraction, hexponent⟩ := h
  exact hwhole.1.isText.append (hfraction.isText.append hexponent.isText)

theorem IsNumber.isText (h : IsNumber bs) : IsText bs := by
  cases h with
  | positive h => exact h.isText
  | negative h => exact h.isText.cons (by decide)

theorem hexValue?_ascii {b : UInt8} {n : Nat} (h : hexValue? b = some n) : b.toNat < 128 := by
  rw [hexValue?] at h
  split_ifs at h with hdigit hlower hupper
  · exact toNat_lt_of_isDigit hdigit
  · exact Nat.lt_of_le_of_lt (UInt8.le_iff_toNat_le.mp hlower.2) (by decide)
  · exact Nat.lt_of_le_of_lt (UInt8.le_iff_toNat_le.mp hupper.2) (by decide)

theorem hexUnit?_isText {h₁ h₂ h₃ h₄ : UInt8} {n : Nat} (h : hexUnit? h₁ h₂ h₃ h₄ = some n) :
    IsText [h₁, h₂, h₃, h₄] := by
  simp only [hexUnit?, Option.bind_eq_bind, Option.bind_eq_some_iff] at h
  obtain ⟨_, hfirst, _, hsecond, _, hthird, _, hfourth, -⟩ := h
  exact (((isText_singleton (hexValue?_ascii hfourth)).cons (hexValue?_ascii hthird)).cons
    (hexValue?_ascii hsecond)).cons (hexValue?_ascii hfirst)

theorem Spelling.isText {c : Char} (h : Spelling bs c) : IsText bs := by
  cases h with
  | plain => exact isText_char c
  | letter h =>
    refine isText_ascii (List.forall_mem_cons.mpr ⟨by decide, List.forall_mem_singleton.mpr ?_⟩)
    unfold escapedByte? at h
    split_ifs at h with hself hb hf hn hr ht
    · rcases hself with rfl | rfl | rfl <;> decide
    all_goals subst_vars; decide
  | unit h => exact ((hexUnit?_isText h).cons (by decide)).cons (by decide)
  | pair hhigh hlow =>
    exact (((hexUnit?_isText hhigh).append
      (((hexUnit?_isText hlow).cons (by decide)).cons (by decide))).cons (by decide)).cons
        (by decide)

theorem Spells.isText {cs : List Char} (h : Spells bs cs) : IsText bs := by
  induction h with
  | nil => exact isText_nil
  | cons hc _ ih => exact hc.isText.append ih

mutual

theorem Tree.Spelled.isText : ∀ {t : Tree} {bs : Bytes}, t.Spelled bs → IsText bs
  | _, _, .null => isText_of_all rfl
  | _, _, .true => isText_of_all rfl
  | _, _, .false => isText_of_all rfl
  | _, _, .number h => h.isText
  | _, _, .text h => (h.isText.append (isText_singleton (by decide))).cons (by decide)
  | _, _, .noItems hws => (hws.isText.append (isText_singleton (by decide))).cons (by decide)
  | _, _, .array h => (h.isText.append (isText_singleton (by decide))).cons (by decide)
  | _, _, .noMembers hws => (hws.isText.append (isText_singleton (by decide))).cons (by decide)
  | _, _, .object h => (h.isText.append (isText_singleton (by decide))).cons (by decide)

theorem ItemsSpelled.isText : ∀ {ts : List Tree} {bs : Bytes}, ItemsSpelled ts bs → IsText bs
  | _, _, .last hbefore h hafter => hbefore.isText.append (h.isText.append hafter.isText)
  | _, _, .more hbefore h hafter hts =>
    hbefore.isText.append (h.isText.append (hafter.isText.append (hts.isText.cons (by decide))))

theorem MembersSpelled.isText : ∀ {ms : List (String × Tree)} {bs : Bytes},
    MembersSpelled ms bs → IsText bs
  | _, _, .last hbefore h hafter => hbefore.isText.append (h.isText.append hafter.isText)
  | _, _, .more hbefore h hafter hms =>
    hbefore.isText.append (h.isText.append (hafter.isText.append (hms.isText.cons (by decide))))

theorem MemberSpelled.isText : ∀ {m : String × Tree} {bs : Bytes}, MemberSpelled m bs → IsText bs
  | _, _, .intro hname hcolon hvalue h =>
    (hname.isText.append ((hcolon.isText.append
      ((hvalue.isText.append h.isText).cons (by decide))).cons (by decide))).cons (by decide)

end

end Linkage.Json
