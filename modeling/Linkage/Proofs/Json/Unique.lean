import Linkage.Proofs.Json.Tree

/-!
# Texts with one tree

A text spells no two trees: its first byte tells what kind of value it is, and where a part of the
value ends can be seen from the text.
-/

namespace Linkage.Json
open Text

section cut

variable {bs bs' rest rest' : Bytes}

theorem Tree.Spelled.cut {t t' : Tree} (h : t.Spelled bs) (h' : t'.Spelled bs') (hrest : Ends rest)
    (hrest' : Ends rest') (heq : bs ++ rest = bs' ++ rest') : bs = bs' ∧ rest = rest' := by
  have hskip := h.skip (Nat.le_max_left bs.length bs'.length) rest hrest
  have hskip' := h'.skip (Nat.le_max_right bs.length bs'.length) rest' hrest'
  rw [heq, hskip'] at hskip
  cases hskip
  exact ⟨List.append_cancel_right heq, rfl⟩

theorem Spells.cut {s s' : String} (h : Spells bs s.toList) (h' : Spells bs' s'.toList)
    (heq : bs ++ byteOf '"' :: rest = bs' ++ byteOf '"' :: rest') : s = s' ∧ rest = rest' := by
  have hread := h.readString rest
  rw [heq, h'.readString rest'] at hread
  cases hread
  exact ⟨rfl, rfl⟩

/-- What does not begin with a blank. -/
def NoBlank (rest : Bytes) : Prop := ∀ b ∈ rest.head?, isSpace b = false

theorem noBlank_nil : NoBlank [] := nofun

theorem noBlank_cons {b : UInt8} (hb : isSpace b = false) (rest : Bytes) : NoBlank (b :: rest) := by
  rintro _ ⟨⟩
  exact hb

theorem Tree.Spelled.noBlank {t : Tree} (h : t.Spelled bs) (rest : Bytes) :
    NoBlank (bs ++ rest) := by
  obtain ⟨b, tail, rfl, hb⟩ := h.starts
  exact noBlank_cons hb.1 _

theorem Blanks.cut {ws ws' : Bytes} (hws : Blanks ws) (hws' : Blanks ws') (hrest : NoBlank rest)
    (hrest' : NoBlank rest') (heq : ws ++ rest = ws' ++ rest') : rest = rest' := by
  have hdrop {l : Bytes} (hl : NoBlank l) : l.dropWhile isSpace = l := by
    cases l with
    | nil => rfl
    | cons b l => exact List.dropWhile_cons_of_neg (Bool.eq_false_iff.mp (hl b rfl))
  rw [← hdrop hrest, ← hdrop hrest', ← dropWhile_blanks hws, heq, dropWhile_blanks hws']

end cut

inductive Kind where
  | null
  | truth (b : Bool)
  | number
  | text
  | array
  | object

def Tree.kind : Tree → Kind
  | .null => .null
  | .truth b => .truth b
  | .number _ => .number
  | .text _ => .text
  | .array _ => .array
  | .object _ => .object

/-- The kind of the values that begin with a byte. -/
def kindOf (b : UInt8) : Kind :=
  if b = byteOf 'n' then .null
  else if b = byteOf 't' then .truth true
  else if b = byteOf 'f' then .truth false
  else if b = byteOf '"' then .text
  else if b = byteOf '[' then .array
  else if b = byteOf '{' then .object
  else .number

theorem Tree.Spelled.kindOf_head {t : Tree} {bs : Bytes} (h : t.Spelled bs) :
    bs.head?.map kindOf = some t.kind := by
  cases h with
  | number h =>
    cases h with
    | positive h =>
      obtain ⟨hwhole, -, -⟩ := h
      obtain ⟨d, ds, rfl, -⟩ := hwhole.not_padded
      have hd : isDigit d := hwhole.1.2 d List.mem_cons_self
      show some (kindOf d) = some Kind.number
      rw [kindOf, if_neg (digit_ne hd rfl), if_neg (digit_ne hd rfl), if_neg (digit_ne hd rfl),
        if_neg (digit_ne hd rfl), if_neg (digit_ne hd rfl), if_neg (digit_ne hd rfl)]
    | negative h => rfl
  | _ => rfl

theorem Tree.Spelled.kind_eq {t t' : Tree} {bs : Bytes} (h : t.Spelled bs) (h' : t'.Spelled bs) :
    t.kind = t'.kind :=
  Option.some.inj (h.kindOf_head.symm.trans h'.kindOf_head)

/-- What stands behind the first part of a list: nothing, or a comma and the other parts. -/
inductive Continued {α : Type} (spelled : List α → Bytes → Prop) : List α → Bytes → Prop
  | last : Continued spelled [] []
  | more {xs : List α} {rest : Bytes} (h : spelled xs rest) :
      Continued spelled xs (byteOf ',' :: rest)

namespace Continued

variable {α : Type} {spelled : List α → Bytes → Prop} {xs xs' : List α} {tail : Bytes}

theorem noBlank (h : Continued spelled xs tail) : NoBlank tail := by
  cases h with
  | last => exact noBlank_nil
  | more h => exact noBlank_cons rfl _

theorem ends (h : Continued spelled xs tail) : Ends tail := by
  cases h with
  | last => exact ends_nil
  | more h => exact ends_cons (.inr (.inl rfl)) _

theorem unique (h : Continued spelled xs tail) (h' : Continued spelled xs' tail)
    (hunique : ∀ rest, spelled xs rest → spelled xs' rest → xs = xs') : xs = xs' := by
  cases h with
  | last =>
    cases h'
    rfl
  | more h =>
    cases h' with
    | more h' => exact hunique _ h h'

end Continued

theorem ItemsSpelled.first {t : Tree} {ts : List Tree} {bs : Bytes}
    (h : ItemsSpelled (t :: ts) bs) :
    ∃ before own after tail, bs = before ++ (own ++ (after ++ tail)) ∧ Blanks before ∧
      t.Spelled own ∧ Blanks after ∧ Continued ItemsSpelled ts tail := by
  cases h with
  | last hbefore h hafter => exact ⟨_, _, _, [], by simp, hbefore, h, hafter, .last⟩
  | more hbefore h hafter hts => exact ⟨_, _, _, _, rfl, hbefore, h, hafter, .more hts⟩

theorem MembersSpelled.first {name : String} {t : Tree} {ms : List (String × Tree)} {bs : Bytes}
    (h : MembersSpelled ((name, t) :: ms) bs) : ∃ before key colon value own after tail,
      bs = before ++ byteOf '"' :: (key ++ byteOf '"' ::
        (colon ++ byteOf ':' :: (value ++ (own ++ (after ++ tail))))) ∧
      Blanks before ∧ Spells key name.toList ∧ Blanks colon ∧ Blanks value ∧ t.Spelled own ∧
      Blanks after ∧ Continued MembersSpelled ms tail := by
  cases h with
  | last hbefore h hafter =>
    obtain ⟨hname, hcolon, hvalue, h⟩ := h
    exact ⟨_, _, _, _, _, _, [], by simp, hbefore, hname, hcolon, hvalue, h, hafter, .last⟩
  | more hbefore h hafter hms =>
    obtain ⟨hname, hcolon, hvalue, h⟩ := h
    exact ⟨_, _, _, _, _, _, _, by simp, hbefore, hname, hcolon, hvalue, h, hafter, .more hms⟩

theorem ItemsSpelled.not_blanks {ts : List Tree} {bs : Bytes} (h : ItemsSpelled ts bs) :
    ¬ Blanks bs := by
  obtain ⟨before, b, rest, rfl, -, hb⟩ := h.starts
  intro hblanks
  exact Bool.false_ne_true (hb.1.symm.trans (hblanks b (by simp)))

theorem MembersSpelled.not_blanks {ms : List (String × Tree)} {bs : Bytes}
    (h : MembersSpelled ms bs) : ¬ Blanks bs := by
  obtain ⟨before, rest, rfl, -⟩ := h.starts
  intro hblanks
  exact absurd (hblanks (byteOf '"') (by simp)) (by decide)

/-- Brackets or braces with blanks, or with one or more parts, between them. -/
def Inner {α : Type} (spelled : List α → Bytes → Prop) (xs : List α) (inner : Bytes) : Prop :=
  xs = [] ∧ Blanks inner ∨ spelled xs inner

theorem Inner.unique {α : Type} {spelled : List α → Bytes → Prop} {xs xs' : List α}
    {inner : Bytes} (h : Inner spelled xs inner) (h' : Inner spelled xs' inner)
    (hblanks : ∀ {ys}, spelled ys inner → ¬ Blanks inner)
    (hunique : spelled xs inner → spelled xs' inner → xs = xs') : xs = xs' := by
  rcases h with ⟨rfl, hws⟩ | h
  · rcases h' with ⟨rfl, -⟩ | h'
    · rfl
    · exact absurd hws (hblanks h')
  · rcases h' with ⟨-, hws⟩ | h'
    · exact absurd hws (hblanks h)
    · exact hunique h h'

theorem Tree.Spelled.inner_text {s : String} {bs : Bytes} (h : (Tree.text s).Spelled bs) :
    ∃ inner, bs = byteOf '"' :: (inner ++ [byteOf '"']) ∧ Spells inner s.toList := by
  cases h with
  | text h => exact ⟨_, rfl, h⟩

theorem Tree.Spelled.inner_array {ts : List Tree} {bs : Bytes} (h : (Tree.array ts).Spelled bs) :
    ∃ inner, bs = byteOf '[' :: (inner ++ [byteOf ']']) ∧ Inner ItemsSpelled ts inner := by
  cases h with
  | noItems hws => exact ⟨_, rfl, .inl ⟨rfl, hws⟩⟩
  | array h => exact ⟨_, rfl, .inr h⟩

theorem Tree.Spelled.inner_object {ms : List (String × Tree)} {bs : Bytes}
    (h : (Tree.object ms).Spelled bs) : ∃ inner, bs = byteOf '{' :: (inner ++ [byteOf '}']) ∧
      Inner MembersSpelled ms inner := by
  cases h with
  | noMembers hws => exact ⟨_, rfl, .inl ⟨rfl, hws⟩⟩
  | object h => exact ⟨_, rfl, .inr h⟩

mutual

/-- A text spells at most one tree. -/
theorem Tree.Spelled.unique : ∀ {t t' : Tree} {bs : Bytes}, t.Spelled bs → t'.Spelled bs → t = t'
  | .null, t', _, h, h' => by
    have hkind := h.kind_eq h'
    cases t' with
    | null => rfl
    | _ => cases hkind
  | .truth b, t', _, h, h' => by
    have hkind := h.kind_eq h'
    cases t' <;> cases hkind
    rfl
  | .number text, t', _, h, h' => by
    have hkind := h.kind_eq h'
    cases t' with
    | number text' =>
      cases h
      cases h'
      rfl
    | _ => cases hkind
  | .text s, t', _, h, h' => by
    have hkind := h.kind_eq h'
    cases t' with
    | text s' =>
      obtain ⟨inner, rfl, hinner⟩ := h.inner_text
      obtain ⟨inner', heq, hinner'⟩ := h'.inner_text
      rw [(hinner.cut hinner' (List.cons.inj heq).2).1]
    | _ => cases hkind
  | .array ts, t', _, h, h' => by
    have hkind := h.kind_eq h'
    cases t' with
    | array ts' =>
      obtain ⟨inner, rfl, hinner⟩ := h.inner_array
      obtain ⟨inner', heq, hinner'⟩ := h'.inner_array
      cases List.append_cancel_right (List.cons.inj heq).2
      rw [hinner.unique hinner' ItemsSpelled.not_blanks ItemsSpelled.unique]
    | _ => cases hkind
  | .object ms, t', _, h, h' => by
    have hkind := h.kind_eq h'
    cases t' with
    | object ms' =>
      obtain ⟨inner, rfl, hinner⟩ := h.inner_object
      obtain ⟨inner', heq, hinner'⟩ := h'.inner_object
      cases List.append_cancel_right (List.cons.inj heq).2
      rw [hinner.unique hinner' MembersSpelled.not_blanks MembersSpelled.unique]
    | _ => cases hkind

theorem ItemsSpelled.unique : ∀ {ts ts' : List Tree} {bs : Bytes}, ItemsSpelled ts bs →
    ItemsSpelled ts' bs → ts = ts'
  | t :: ts, t' :: ts', _, h, h' => by
    obtain ⟨before, own, after, tail, rfl, hbefore, hown, hafter, htail⟩ := h.first
    obtain ⟨before', own', after', tail', heq, hbefore', hown', hafter', htail'⟩ := h'.first
    obtain ⟨rfl, hrest⟩ := hown.cut hown' (hafter.ends htail.ends) (hafter'.ends htail'.ends)
      (hbefore.cut hbefore' (hown.noBlank _) (hown'.noBlank _) heq)
    cases hafter.cut hafter' htail.noBlank htail'.noBlank hrest
    rw [hown.unique hown', htail.unique htail' fun _ => ItemsSpelled.unique]

theorem MembersSpelled.unique : ∀ {ms ms' : List (String × Tree)} {bs : Bytes},
    MembersSpelled ms bs → MembersSpelled ms' bs → ms = ms'
  | (name, t) :: ms, (name', t') :: ms', _, h, h' => by
    obtain ⟨before, key, colon, value, own, after, tail, rfl, hbefore, hkey, hcolon, hvalue, hown,
      hafter, htail⟩ := h.first
    obtain ⟨before', key', colon', value', own', after', tail', heq, hbefore', hkey', hcolon',
      hvalue', hown', hafter', htail'⟩ := h'.first
    have hquote := hbefore.cut hbefore' (noBlank_cons rfl _) (noBlank_cons rfl _) heq
    obtain ⟨rfl, hname⟩ := hkey.cut hkey' (List.cons.inj hquote).2
    have hpoint := hcolon.cut hcolon' (noBlank_cons rfl _) (noBlank_cons rfl _) hname
    obtain ⟨rfl, hrest⟩ := hown.cut hown' (hafter.ends htail.ends) (hafter'.ends htail'.ends)
      (hvalue.cut hvalue' (hown.noBlank _) (hown'.noBlank _) (List.cons.inj hpoint).2)
    cases hafter.cut hafter' htail.noBlank htail'.noBlank hrest
    rw [hown.unique hown', htail.unique htail' fun _ => MembersSpelled.unique]

end

end Linkage.Json
