import Linkage.Proofs.Text.ByteOrder

/-!
# Bytes of texts and lines

A text is known by its bytes. No byte of a longer character is one of ASCII, so the line feeds among
the bytes of a text are its line feed characters, and lines that are written one after the other are
found again.
-/

namespace Linkage.Text

theorem decode?_encode (s : String) : decode? (encode s) = some s := by
  have hbytes : (⟨(encode s).toArray⟩ : ByteArray) = s.toByteArray := by
    simp [encode, String.toUTF8]
  rw [decode?, hbytes, String.fromUTF8?, dif_pos s.isValidUTF8]
  rfl

theorem encode_of_decode? {bs : Bytes} {s : String} (h : decode? bs = some s) : encode s = bs := by
  unfold decode? String.fromUTF8? at h
  split at h
  · cases h
    simp [encode, String.toUTF8, String.fromUTF8]
  · cases h

@[simp] theorem encode_append (s t : String) : encode (s ++ t) = encode s ++ encode t := by
  simp [encode_eq_flatMap]

/-- The bytes of a text that is given by its characters. -/
def utf8 (cs : List Char) : Bytes := cs.flatMap String.utf8EncodeChar

@[simp] theorem utf8_nil : utf8 [] = [] := rfl

@[simp] theorem utf8_append (cs ds : List Char) : utf8 (cs ++ ds) = utf8 cs ++ utf8 ds :=
  List.flatMap_append

theorem utf8_cons (c : Char) (cs : List Char) :
    utf8 (c :: cs) = String.utf8EncodeChar c ++ utf8 cs := rfl

theorem encode_ofList (cs : List Char) : encode (String.ofList cs) = utf8 cs := by
  rw [encode_eq_flatMap, String.toList_ofList]
  rfl

theorem utf8EncodeChar_ascii {c : Char} (hc : c.toNat < 128) :
    String.utf8EncodeChar c = [c.toNat.toUInt8] := by
  have hc : c.val.toNat ≤ 0x7f := Nat.le_of_lt_succ hc
  rw [String.utf8EncodeChar, if_pos hc]
  rfl

/-- A byte of ASCII stands for itself only. -/
theorem ascii_mem_utf8EncodeChar {b : UInt8} (hb : b.toNat < 128) {c : Char} :
    b ∈ String.utf8EncodeChar c ↔ c.toNat = b.toNat := by
  have hc : c.val.toNat < 0x110000 := by
    rcases c.valid with hc | hc <;> omega
  show _ ↔ c.val.toNat = b.toNat
  unfold String.utf8EncodeChar
  generalize c.val.toNat = n at *
  dsimp only
  split_ifs <;>
    simp only [List.mem_cons, List.not_mem_nil, or_false, ← UInt8.toNat_inj, UInt8.toNat_ofNat'] <;>
    omega

theorem lineFeed_mem_encode {s : String} : lineFeed ∈ encode s ↔ '\n' ∈ s.toList := by
  have hchar (c : Char) : lineFeed ∈ String.utf8EncodeChar c ↔ c = '\n' :=
    (ascii_mem_utf8EncodeChar (by decide)).trans (Char.toNat_inj (d := '\n'))
  simp [encode_eq_flatMap, hchar]

namespace Line

theorem ofBytes_cons (b : UInt8) (bs : Bytes) : ofBytes (b :: bs) = consByte b (ofBytes bs) := rfl

/-- Bytes up to a line feed are a line. -/
theorem ofBytes_append_lineFeed {bs : Bytes} (hbs : lineFeed ∉ bs) (rest : Bytes) :
    ofBytes (bs ++ lineFeed :: rest) = ⟨bs, true⟩ :: ofBytes rest := by
  induction bs with
  | nil => rfl
  | cons b bs ih =>
    rw [List.mem_cons, not_or] at hbs
    rw [List.cons_append, ofBytes_cons, ih hbs.2, consByte, if_neg (Ne.symm hbs.1)]

theorem lineFeed_not_mem_ofBytes {bs : Bytes} : ∀ l ∈ ofBytes bs, lineFeed ∉ l.bytes := by
  induction bs with
  | nil => exact nofun
  | cons b bs ih =>
    rw [ofBytes_cons]
    unfold consByte
    split
    · exact List.forall_mem_cons.mpr ⟨List.not_mem_nil, ih⟩
    · rename_i hb
      have hb : lineFeed ≠ b := Ne.symm hb
      split
      · simpa using hb
      · rename_i l ls hlines
        rw [hlines, List.forall_mem_cons] at ih
        refine List.forall_mem_cons.mpr ⟨?_, ih.2⟩
        rw [List.mem_cons, not_or]
        exact ⟨hb, ih.1⟩

theorem content_sublist (l : Line) : l.content.Sublist l.bytes := by
  rw [content]
  split
  · exact List.dropLast_sublist _
  · exact List.Sublist.refl _

theorem text?_lineFeed {bs : Bytes} {l : Line} (hl : l ∈ ofBytes bs) {s : String}
    (hs : l.text? = some s) : '\n' ∉ s.toList := by
  rw [← lineFeed_mem_encode, encode_of_decode? hs]
  exact fun h => lineFeed_not_mem_ofBytes l hl (l.content_sublist.subset h)

/-- A line that does not end in a carriage return is read as it was written. -/
theorem text?_encode {s : String} (hs : '\r' ∉ s.toList.getLast?) (ended : Bool) :
    (⟨encode s, ended⟩ : Line).text? = some s := by
  have hlast : (encode s).getLast? ≠ some carriageReturn := by
    rw [encode_eq_flatMap]
    cases hc : s.toList.getLast? with
    | none => simp_all
    | some c =>
      obtain ⟨front, hfront⟩ := List.getLast?_eq_some_iff.mp hc
      have hne : c.toNat ≠ carriageReturn.toNat := fun heq =>
        hs (by rw [hc, (Char.toNat_inj (d := '\r')).mp heq]; rfl)
      intro hmem
      rw [hfront, List.flatMap_append, List.flatMap_singleton,
        List.getLast?_append_of_ne_nil _ String.utf8EncodeChar_ne_nil] at hmem
      exact hne ((ascii_mem_utf8EncodeChar (by decide)).mp (List.mem_of_getLast? hmem))
  rw [text?, content, if_neg (by simp [hlast]), decode?_encode]

end Line

/-- The bytes end where a line ends. -/
def Terminated (bs : Bytes) : Prop := bs = [] ∨ bs.getLast? = some lineFeed

instance (bs : Bytes) : Decidable (Terminated bs) :=
  inferInstanceAs (Decidable (_ ∨ _))

theorem Terminated.cases_cons {b : UInt8} {bs : Bytes} (h : Terminated (b :: bs)) :
    bs = [] ∧ b = lineFeed ∨ bs ≠ [] ∧ Terminated bs := by
  have hlast := h.resolve_left (List.cons_ne_nil b bs)
  cases bs with
  | nil => exact Or.inl ⟨rfl, Option.some.inj hlast⟩
  | cons c bs =>
    rw [List.getLast?_cons_cons] at hlast
    exact Or.inr ⟨List.cons_ne_nil c bs, Or.inr hlast⟩

namespace Line

theorem ofBytes_ne_nil {bs : Bytes} (h : bs ≠ []) : ofBytes bs ≠ [] := by
  obtain ⟨b, bs, rfl⟩ := List.exists_cons_of_ne_nil h
  rw [ofBytes_cons]
  unfold consByte
  split
  · exact List.cons_ne_nil _ _
  · split <;> exact List.cons_ne_nil _ _

/-- Where a line ends, the lines before and those after have nothing to do with each other. -/
theorem ofBytes_append {x : Bytes} (hx : Terminated x) (y : Bytes) :
    ofBytes (x ++ y) = ofBytes x ++ ofBytes y := by
  induction x with
  | nil => rfl
  | cons b x ih =>
    rcases hx.cases_cons with ⟨rfl, rfl⟩ | ⟨hne, hx⟩
    · rfl
    · obtain ⟨l, ls, hlines⟩ := List.exists_cons_of_ne_nil (ofBytes_ne_nil hne)
      rw [List.cons_append, ofBytes_cons, ofBytes_cons, ih hx, hlines]
      unfold consByte
      split <;> rfl

theorem length_ofBytes {x : Bytes} (hx : Terminated x) :
    (ofBytes x).length = x.count lineFeed := by
  induction x with
  | nil => rfl
  | cons b x ih =>
    rcases hx.cases_cons with ⟨rfl, rfl⟩ | ⟨hne, hx⟩
    · rfl
    · obtain ⟨l, ls, hlines⟩ := List.exists_cons_of_ne_nil (ofBytes_ne_nil hne)
      rw [ofBytes_cons, List.count_cons, ← ih hx, hlines, consByte]
      by_cases hb : b = lineFeed
      · rw [if_pos hb, if_pos (beq_iff_eq.mpr hb), List.length_cons]
      · rw [if_neg hb, if_neg (by simpa using hb), List.length_cons, List.length_cons]

end Line

end Linkage.Text
