import Linkage.Proofs.Json.Numeral
import Linkage.Proofs.Json.Text
import Mathlib.Data.List.DropRight

/-!
# JSON texts and their trees

What a JSON text says, as a tree whose numbers are kept as they are written, and the texts that
spell a tree: with any blanks between their parts. A value that is skipped is skipped as a whole.
-/

namespace Linkage.Json
open Text

def Blanks (ws : Bytes) : Prop := ∀ b ∈ ws, isSpace b

/-- Blanks in front make no difference to the reader. -/
def SkipsBlanks {α : Type} (r : Reader α) : Prop := ∀ input, r (input.dropWhile isSpace) = r input

section peek

variable {α : Type} {ws input rest : Bytes} {b : UInt8} {fault : Fault} {f : UInt8 → Reader α}

theorem dropWhile_blanks (hws : Blanks ws) (input : Bytes) :
    (ws ++ input).dropWhile isSpace = input.dropWhile isSpace :=
  List.dropWhile_append_of_pos hws

theorem SkipsBlanks.append {r : Reader α} (h : SkipsBlanks r) (hws : Blanks ws) (input : Bytes) :
    r (ws ++ input) = r input := by
  rw [← h (ws ++ input), dropWhile_blanks hws, h]

theorem SkipsBlanks.bind {β : Type} {r : Reader α} (h : SkipsBlanks r) (f : α → Reader β) :
    SkipsBlanks (r >>= f) := by
  intro input
  show (r _ >>= _) = (r input >>= _)
  rw [h]

theorem peek_eq (fault : Fault) (f : UInt8 → Reader α) (input : Bytes) :
    (peekOr fault >>= f) input = match input.dropWhile isSpace with
      | [] => .error fault
      | b :: rest => f b (b :: rest) := by
  show ((match input.dropWhile isSpace with
    | [] => throw fault
    | b :: _ => pure b : Reader UInt8) >>= f) (input.dropWhile isSpace) = _
  split <;> rename_i heq <;> rw [heq] <;> rfl

theorem skipsBlanks_peek (fault : Fault) (f : UInt8 → Reader α) :
    SkipsBlanks (peekOr fault >>= f) := by
  intro input
  rw [peek_eq, peek_eq, List.dropWhile_idempotent]

theorem peek_cons (hb : isSpace b = false) (fault : Fault) (f : UInt8 → Reader α) (rest : Bytes) :
    (peekOr fault >>= f) (b :: rest) = f b (b :: rest) := by
  rw [peek_eq, List.dropWhile_cons_of_neg (Bool.eq_false_iff.mp hb)]

theorem peek_blanks (hws : Blanks ws) (fault : Fault) (f : UInt8 → Reader α) (input : Bytes) :
    (peekOr fault >>= f) (ws ++ input) = (peekOr fault >>= f) input :=
  (skipsBlanks_peek fault f).append hws input

end peek

inductive Tree where
  | null
  | truth (b : Bool)
  /-- A number, as it is written. -/
  | number (text : Bytes)
  | text (s : String)
  | array (items : List Tree)
  | object (members : List (String × Tree))

mutual

/-- The texts of a tree, without blanks around them. -/
inductive Tree.Spelled : Tree → Bytes → Prop
  | null : Tree.Spelled .null (['n', 'u', 'l', 'l'].map byteOf)
  | true : Tree.Spelled (.truth true) (['t', 'r', 'u', 'e'].map byteOf)
  | false : Tree.Spelled (.truth false) (['f', 'a', 'l', 's', 'e'].map byteOf)
  | number {bs : Bytes} (h : IsNumber bs) : Tree.Spelled (.number bs) bs
  | text {s : String} {bs : Bytes} (h : Spells bs s.toList) :
      Tree.Spelled (.text s) (byteOf '"' :: (bs ++ [byteOf '"']))
  | noItems {ws : Bytes} (hws : Blanks ws) :
      Tree.Spelled (.array []) (byteOf '[' :: (ws ++ [byteOf ']']))
  | array {ts : List Tree} {bs : Bytes} (h : ItemsSpelled ts bs) :
      Tree.Spelled (.array ts) (byteOf '[' :: (bs ++ [byteOf ']']))
  | noMembers {ws : Bytes} (hws : Blanks ws) :
      Tree.Spelled (.object []) (byteOf '{' :: (ws ++ [byteOf '}']))
  | object {ms : List (String × Tree)} {bs : Bytes} (h : MembersSpelled ms bs) :
      Tree.Spelled (.object ms) (byteOf '{' :: (bs ++ [byteOf '}']))

/-- The texts of one or more items between the brackets. -/
inductive ItemsSpelled : List Tree → Bytes → Prop
  | last {t : Tree} {before bs after : Bytes} (hbefore : Blanks before) (h : t.Spelled bs)
      (hafter : Blanks after) : ItemsSpelled [t] (before ++ (bs ++ after))
  | more {t : Tree} {ts : List Tree} {before bs after rest : Bytes} (hbefore : Blanks before)
      (h : t.Spelled bs) (hafter : Blanks after) (hts : ItemsSpelled ts rest) :
      ItemsSpelled (t :: ts) (before ++ (bs ++ (after ++ byteOf ',' :: rest)))

/-- The texts of one or more members between the braces. -/
inductive MembersSpelled : List (String × Tree) → Bytes → Prop
  | last {m : String × Tree} {before bs after : Bytes} (hbefore : Blanks before)
      (h : MemberSpelled m bs) (hafter : Blanks after) :
      MembersSpelled [m] (before ++ (bs ++ after))
  | more {m : String × Tree} {ms : List (String × Tree)} {before bs after rest : Bytes}
      (hbefore : Blanks before) (h : MemberSpelled m bs) (hafter : Blanks after)
      (hms : MembersSpelled ms rest) :
      MembersSpelled (m :: ms) (before ++ (bs ++ (after ++ byteOf ',' :: rest)))

/-- The texts of a member, from the quote of its name to the end of its value. -/
inductive MemberSpelled : String × Tree → Bytes → Prop
  | intro {name : String} {t : Tree} {key colon value bs : Bytes} (hname : Spells key name.toList)
      (hcolon : Blanks colon) (hvalue : Blanks value) (h : t.Spelled bs) :
      MemberSpelled (name, t)
        (byteOf '"' :: (key ++ byteOf '"' :: (colon ++ byteOf ':' :: (value ++ bs))))

end

/-- A byte that can stand at the front of a value. -/
abbrev Starts (b : UInt8) : Prop := isSpace b = false ∧ b ≠ byteOf ']' ∧ b ≠ byteOf '}'

theorem isSpace_cases {b : UInt8} (hb : isSpace b) : b = 0x20 ∨ b = 0x09 ∨ b = 0x0A ∨ b = 0x0D := by
  simpa [isSpace, or_assoc] using hb

theorem digit_ne {b : UInt8} (hb : isDigit b) {other : UInt8} (hother : isDigit other = false) :
    b ≠ other := by
  rintro rfl
  exact absurd hb (Bool.eq_false_iff.mp hother)

theorem starts_of_isDigit {b : UInt8} (hb : isDigit b) : Starts b := by
  refine ⟨Bool.eq_false_iff.mpr fun hspace => ?_, digit_ne hb rfl, digit_ne hb rfl⟩
  rcases isSpace_cases hspace with rfl | rfl | rfl | rfl <;> cases hb

theorem Tree.Spelled.starts {t : Tree} {bs : Bytes} (h : t.Spelled bs) :
    ∃ b rest, bs = b :: rest ∧ Starts b := by
  cases h with
  | number h =>
    cases h with
    | positive h =>
      obtain ⟨hwhole, -, -⟩ := h
      obtain ⟨d, ds, rfl, -⟩ := hwhole.not_padded
      exact ⟨d, _, rfl, starts_of_isDigit (hwhole.1.2 d List.mem_cons_self)⟩
    | negative h => exact ⟨_, _, rfl, by decide⟩
  | _ => exact ⟨_, _, rfl, by decide⟩

theorem ItemsSpelled.starts {ts : List Tree} {bs : Bytes} (h : ItemsSpelled ts bs) :
    ∃ before b rest, bs = before ++ b :: rest ∧ Blanks before ∧ Starts b := by
  cases h with
  | last hbefore h hafter =>
    obtain ⟨b, rest, rfl, hb⟩ := h.starts
    exact ⟨_, b, _, rfl, hbefore, hb⟩
  | more hbefore h hafter hts =>
    obtain ⟨b, rest, rfl, hb⟩ := h.starts
    exact ⟨_, b, _, rfl, hbefore, hb⟩

theorem MembersSpelled.starts {ms : List (String × Tree)} {bs : Bytes} (h : MembersSpelled ms bs) :
    ∃ before rest, bs = before ++ byteOf '"' :: rest ∧ Blanks before := by
  cases h with
  | last hbefore h hafter =>
    obtain ⟨-, -, -, -⟩ := h
    exact ⟨_, _, rfl, hbefore⟩
  | more hbefore h hafter hts =>
    obtain ⟨-, -, -, -⟩ := h
    exact ⟨_, _, rfl, hbefore⟩

theorem ends_cons {b : UInt8} (hb : isSpace b ∨ b = byteOf ',' ∨ b = byteOf ']' ∨ b = byteOf '}')
    (rest : Bytes) : Ends (b :: rest) := by
  rintro _ ⟨⟩
  rcases hb with hspace | rfl | rfl | rfl
  · rcases isSpace_cases hspace with rfl | rfl | rfl | rfl <;> decide
  all_goals decide

theorem Blanks.ends {ws rest : Bytes} (hws : Blanks ws) (h : Ends rest) : Ends (ws ++ rest) := by
  cases ws with
  | nil => exact h
  | cons b ws => exact ends_cons (.inl (hws b List.mem_cons_self)) _

/-! ### Skipping -/

section skip

variable {ws rest : Bytes} {fuel : Nat}

theorem skipsBlanks_skipValue (fuel : Nat) : SkipsBlanks (skipValue fuel) := by
  cases fuel with
  | zero => exact fun _ => rfl
  | succ fuel =>
    rw [skipValue]
    exact skipsBlanks_peek _ _

theorem skipsBlanks_skipItems (fuel : Nat) : SkipsBlanks (skipItems fuel) := by
  cases fuel with
  | zero => exact fun _ => rfl
  | succ fuel =>
    rw [skipItems]
    exact (skipsBlanks_skipValue fuel).bind _

theorem skipsBlanks_skipMembers (fuel : Nat) : SkipsBlanks (skipMembers fuel) := by
  cases fuel with
  | zero => exact fun _ => rfl
  | succ fuel =>
    rw [skipMembers]
    exact skipsBlanks_peek _ _

theorem readLetters_append (cs : List Char) (rest : Bytes) :
    readLetters cs (cs.map byteOf ++ rest) = .ok ((), rest) := by
  induction cs with
  | nil => rfl
  | cons c cs ih =>
    rw [List.map_cons, List.cons_append, readLetters, get_bind]
    dsimp only
    rw [if_pos rfl, set_bind, ih]

/-- What the fuel is enough for: texts that are no longer than it. -/
structure Skips (fuel : Nat) : Prop where
  value : ∀ {t : Tree} {bs : Bytes}, t.Spelled bs → bs.length ≤ fuel → Reads (skipValue fuel) bs ()
  items : ∀ {ts : List Tree} {bs : Bytes}, ItemsSpelled ts bs → bs.length < fuel → ∀ rest,
    skipItems fuel (bs ++ byteOf ']' :: rest) = .ok ((), rest)
  members : ∀ {ms : List (String × Tree)} {bs : Bytes}, MembersSpelled ms bs →
    bs.length < fuel → ∀ rest, skipMembers fuel (bs ++ byteOf '}' :: rest) = .ok ((), rest)

/-- What is skipped behind the first byte of a value. -/
def skipFrom (fuel : Nat) (b : UInt8) : Reader Unit :=
  if b = byteOf 'n' then do
    advance
    readLetters ['u', 'l', 'l']
  else if b = byteOf 't' then do
    advance
    readLetters ['r', 'u', 'e']
  else if b = byteOf 'f' then do
    advance
    readLetters ['a', 'l', 's', 'e']
  else if b = byteOf '-' then do
    advance
    skipNumber
  else if isDigit b then skipNumber
  else if b = byteOf '"' then do
    advance
    skipString
  else if b = byteOf '[' then do
    advance
    if (← peekOr .endInList) = byteOf ']' then advance else skipItems fuel
  else if b = byteOf '{' then do
    advance
    if (← peekOr .endInObject) = byteOf '}' then advance else skipMembers fuel
  else throw .expectedValue

theorem skipValue_cons {b : UInt8} (hb : isSpace b = false) (fuel : Nat) (rest : Bytes) :
    skipValue (fuel + 1) (b :: rest) = skipFrom fuel b (b :: rest) := by
  rw [skipValue]
  exact peek_cons hb ..

theorem skipFrom_items (fuel : Nat) (rest : Bytes) :
    skipFrom fuel (byteOf '[') (byteOf '[' :: rest) = (do
      if (← peekOr .endInList) = byteOf ']' then advance else skipItems fuel : Reader Unit) rest :=
  rfl

theorem skipFrom_members (fuel : Nat) (rest : Bytes) :
    skipFrom fuel (byteOf '{') (byteOf '{' :: rest) = (do
      if (← peekOr .endInObject) = byteOf '}' then advance else skipMembers fuel : Reader Unit)
        rest :=
  rfl

theorem Skips.value_succ (ih : Skips fuel) {t : Tree} {bs : Bytes} (h : t.Spelled bs)
    (hfuel : bs.length ≤ fuel + 1) : Reads (skipValue (fuel + 1)) bs () := by
  intro rest hrest
  cases h with
  | null => exact (skipValue_cons rfl ..).trans (readLetters_append ['u', 'l', 'l'] rest)
  | true => exact (skipValue_cons rfl ..).trans (readLetters_append ['r', 'u', 'e'] rest)
  | false => exact (skipValue_cons rfl ..).trans (readLetters_append ['a', 'l', 's', 'e'] rest)
  | number h =>
    cases h with
    | positive h =>
      have hskip := reads_skipNumber h rest hrest
      obtain ⟨hwhole, -, -⟩ := h
      obtain ⟨d, ds, rfl, -⟩ := hwhole.not_padded
      have hd : isDigit d := hwhole.1.2 d List.mem_cons_self
      refine (skipValue_cons (starts_of_isDigit hd).1 ..).trans ?_
      rw [skipFrom, if_neg (digit_ne hd rfl), if_neg (digit_ne hd rfl), if_neg (digit_ne hd rfl),
        if_neg (digit_ne hd rfl), if_pos hd]
      exact hskip
    | negative h => exact (skipValue_cons rfl ..).trans (reads_skipNumber h rest hrest)
  | text h =>
    rw [List.cons_append, List.append_assoc]
    exact (skipValue_cons rfl ..).trans (h.skipString rest)
  | noItems hws =>
    rw [List.cons_append, List.append_assoc, skipValue_cons rfl, skipFrom_items, peek_blanks hws]
    rfl
  | array h =>
    rw [List.length_cons, List.length_append, List.length_singleton] at hfuel
    have hskip := ih.items h (by omega) rest
    obtain ⟨before, b, tail, rfl, hbefore, hstart⟩ := h.starts
    rw [List.append_assoc, (skipsBlanks_skipItems _).append hbefore] at hskip
    rw [List.cons_append, List.append_assoc, skipValue_cons rfl, skipFrom_items, List.append_assoc,
      peek_blanks hbefore, List.cons_append, peek_cons hstart.1, if_neg hstart.2.1]
    exact hskip
  | noMembers hws =>
    rw [List.cons_append, List.append_assoc, skipValue_cons rfl, skipFrom_members, peek_blanks hws]
    rfl
  | object h =>
    rw [List.length_cons, List.length_append, List.length_singleton] at hfuel
    have hskip := ih.members h (by omega) rest
    obtain ⟨before, tail, rfl, hbefore⟩ := h.starts
    rw [List.append_assoc, (skipsBlanks_skipMembers _).append hbefore] at hskip
    rw [List.cons_append, List.append_assoc, skipValue_cons rfl, skipFrom_members,
      List.append_assoc, peek_blanks hbefore, List.cons_append, peek_cons rfl]
    exact hskip

/-- What stands behind an item or a member: a comma or the closing bracket or brace. -/
abbrev Closes (b : UInt8) : Prop := b = byteOf ',' ∨ b = byteOf ']' ∨ b = byteOf '}'

theorem Closes.ends {b : UInt8} (hb : Closes b) {after : Bytes} (hafter : Blanks after)
    (rest : Bytes) : Ends (after ++ b :: rest) :=
  hafter.ends (ends_cons (.inr hb) rest)

theorem Closes.not_space {b : UInt8} (hb : Closes b) : isSpace b = false := by
  rcases hb with rfl | rfl | rfl <;> rfl

section step

variable {before bs after : Bytes} {b : UInt8} (ih : Skips fuel) (hbefore : Blanks before)
  (hafter : Blanks after) (hfuel : bs.length ≤ fuel) (hb : Closes b) (rest : Bytes)

include ih hbefore hafter hfuel hb in
theorem Skips.item {t : Tree} (h : t.Spelled bs) :
    skipItems (fuel + 1) (before ++ (bs ++ (after ++ b :: rest))) =
      (if b = byteOf ',' then skipItems fuel
        else if b = byteOf ']' then pure ()
        else throw .expectedListEnd : Reader Unit) rest := by
  have hskip := ih.value h hfuel _ (hb.ends hafter rest)
  rw [(skipsBlanks_skipItems _).append hbefore, skipItems, bind_ok hskip, peek_blanks hafter,
    peek_cons hb.not_space]
  rfl

include ih hbefore hafter hfuel hb in
theorem Skips.member {m : String × Tree} (h : MemberSpelled m bs) :
    skipMembers (fuel + 1) (before ++ (bs ++ (after ++ b :: rest))) =
      (if b = byteOf ',' then skipMembers fuel
        else if b = byteOf '}' then pure ()
        else throw .expectedObjectEnd : Reader Unit) rest := by
  obtain ⟨hname, hcolon, hvalue, h⟩ := h
  simp only [List.length_cons, List.length_append] at hfuel
  have hskip := ih.value h (by omega) _ (hb.ends hafter rest)
  rw [← (skipsBlanks_skipValue fuel).append hvalue] at hskip
  rw [(skipsBlanks_skipMembers _).append hbefore, skipMembers]
  simp only [List.cons_append, List.append_assoc]
  rw [peek_cons rfl, if_neg (not_not_intro rfl), advance_bind, bind_ok (hname.skipString _),
    peek_blanks hcolon, peek_cons rfl, if_neg (not_not_intro rfl), advance_bind, bind_ok hskip,
    peek_blanks hafter, peek_cons hb.not_space]
  rfl

end step

theorem Skips.items_succ (ih : Skips fuel) {ts : List Tree} {bs : Bytes} (h : ItemsSpelled ts bs)
    (hfuel : bs.length < fuel + 1) (rest : Bytes) :
    skipItems (fuel + 1) (bs ++ byteOf ']' :: rest) = .ok ((), rest) := by
  cases h with
  | last hbefore h hafter =>
    simp only [List.length_append] at hfuel
    rw [List.append_assoc, List.append_assoc,
      ih.item hbefore hafter (by omega) (.inr (.inl rfl)) rest h]
    rfl
  | more hbefore h hafter hts =>
    simp only [List.length_append, List.length_cons] at hfuel
    rw [List.append_assoc, List.append_assoc, List.append_assoc, List.cons_append,
      ih.item hbefore hafter (by omega) (.inl rfl) _ h, if_pos rfl]
    exact ih.items hts (by omega) rest

theorem Skips.members_succ (ih : Skips fuel) {ms : List (String × Tree)} {bs : Bytes}
    (h : MembersSpelled ms bs) (hfuel : bs.length < fuel + 1) (rest : Bytes) :
    skipMembers (fuel + 1) (bs ++ byteOf '}' :: rest) = .ok ((), rest) := by
  cases h with
  | last hbefore h hafter =>
    simp only [List.length_append] at hfuel
    rw [List.append_assoc, List.append_assoc,
      ih.member hbefore hafter (by omega) (.inr (.inr rfl)) rest h]
    rfl
  | more hbefore h hafter hms =>
    simp only [List.length_append, List.length_cons] at hfuel
    rw [List.append_assoc, List.append_assoc, List.append_assoc, List.cons_append,
      ih.member hbefore hafter (by omega) (.inl rfl) _ h, if_pos rfl]
    exact ih.members hms (by omega) rest

theorem skips (fuel : Nat) : Skips fuel := by
  induction fuel with
  | zero =>
    refine ⟨fun h hfuel => ?_, fun h hfuel => absurd hfuel (Nat.not_lt_zero _),
      fun h hfuel => absurd hfuel (Nat.not_lt_zero _)⟩
    obtain ⟨b, rest, rfl, -⟩ := h.starts
    exact absurd hfuel (Nat.not_succ_le_zero _)
  | succ fuel ih => exact ⟨ih.value_succ, ih.items_succ, ih.members_succ⟩

/-- Fuel for every byte of a value is enough to skip it. -/
theorem Tree.Spelled.skip {t : Tree} {bs : Bytes} (h : t.Spelled bs) (hfuel : bs.length ≤ fuel) :
    Reads (skipValue fuel) bs () :=
  (skips fuel).value h hfuel

end skip

end Linkage.Json
