import Linkage.Json.Shape
import Linkage.Proofs.Json.Tree

/-!
# Reading by shapes

Which trees a shape takes for a value: a record from the members with its names, in any order and
among any others, or from an array of its values in the order of its fields. Every text of such a
tree is read as the value.
-/

namespace Linkage.Json
open Text

section members

variable {α : Type} {name : String} {ms : List (String × Tree)}

/-- The values that the members of an object have under a name. -/
def valuesOf (name : String) (ms : List (String × Tree)) : List Tree :=
  (ms.filter fun m => m.1 = name).map Prod.snd

def without (name : String) (ms : List (String × Tree)) : List (String × Tree) :=
  ms.filter fun m => m.1 ≠ name

theorem valuesOf_cons_self (t : Tree) :
    valuesOf name ((name, t) :: ms) = t :: valuesOf name ms := by
  simp [valuesOf]

theorem valuesOf_cons_ne {key : String} (h : key ≠ name) (t : Tree) :
    valuesOf name ((key, t) :: ms) = valuesOf name ms := by
  simp [valuesOf, h]

theorem without_cons_self (t : Tree) : without name ((name, t) :: ms) = without name ms := by
  simp [without]

theorem without_cons_ne {key : String} (h : key ≠ name) (t : Tree) :
    without name ((key, t) :: ms) = (key, t) :: without name ms := by
  simp [without, h]

/-- What a field holds before and after members: a field without one keeps what it holds, and an
empty field takes the value of its only member. -/
inductive Fills (accepts : α → Tree → Prop) : Option α → Option α → List Tree → Prop
  | kept (v : Option α) : Fills accepts v v []
  | given {v : α} {t : Tree} (h : accepts v t) : Fills accepts none (some v) [t]

end members

mutual

/-- The trees that are read as a value. -/
def Shape.Accepts : (s : Shape) → s.Value → Tree → Prop
  | .text, s, t => t = .text s
  | .natural width, n, t => ∃ bs, t = .number bs ∧ Reads (readNatural width) bs n
  | .real, x, t => ∃ bs, t = .number bs ∧ Reads readReal bs x
  | .choice first second, b, t => first ≠ second ∧ t = .text (chosenName first second b)
  | .listOf item, vs, t => ∃ ts, t = .array ts ∧ List.Forall₂ item.Accepts vs ts
  | .record _ fields, vs, t =>
    (∃ ms, t = .object ms ∧ ∃ all, fields.complete all = .ok vs ∧
      fields.Takes fields.noOptions all ms) ∨
    ∃ ts, t = .array ts ∧ fields.ListedBy vs ts
  | .settings _ fields, vs, t => ∃ ms, t = .object ms ∧ fields.Takes fields.noOptions vs ms

/-- Members turn the fields that are filled before into those that are filled after. -/
def Fields.Takes : (fields : Fields) → fields.Options → fields.Options → List (String × Tree) → Prop
  | .done, _, _, _ => True
  | .field name shape rest, (v, vs), (w, ws), ms =>
    Fills shape.Accepts v w (valuesOf name ms) ∧ rest.Takes vs ws (without name ms)

/-- The items are those of all fields, in order. -/
def Fields.ListedBy : (fields : Fields) → fields.Values → List Tree → Prop
  | .done, _, ts => ts = []
  | .field _ shape rest, (v, vs), ts => ∃ t ts', ts = t :: ts' ∧ shape.Accepts v t ∧
      rest.ListedBy vs ts'

end

theorem Fields.takes_nil : ∀ {fields : Fields} {before after : fields.Options},
    fields.Takes before after [] → before = after
  | .done, _, _, _ => rfl
  | .field _ _ _, (_, _), (_, _), ⟨hfills, hrest⟩ => by
    cases hfills
    rw [Fields.takes_nil hrest]

section items

variable {α : Type} {item : Reader α} {accepts : α → Tree → Prop} {ts : List Tree} {vs : List α}
  {bs after rest : Bytes}

theorem ItemsSpelled.dropWhile_ne (h : ItemsSpelled ts bs) (rest : Bytes) :
    ∃ b tail, (bs ++ rest).dropWhile isSpace = b :: tail ∧ b ≠ byteOf ']' := by
  obtain ⟨before, b, tail, rfl, hbefore, hstart⟩ := h.starts
  refine ⟨b, tail ++ rest, ?_, hstart.2.1⟩
  rw [List.append_assoc, dropWhile_blanks hbefore, List.cons_append,
    List.dropWhile_cons_of_neg (Bool.eq_false_iff.mp hstart.1)]

theorem anotherItem_first (h : ItemsSpelled ts bs) (rest : Bytes) :
    anotherItem true (bs ++ rest) = .ok (true, (bs ++ rest).dropWhile isSpace) := by
  obtain ⟨b, tail, hdrop, hne⟩ := h.dropWhile_ne rest
  rw [anotherItem, peek_eq, hdrop]
  dsimp only
  rw [if_neg hne]
  rfl

theorem anotherItem_comma (hafter : Blanks after) (h : ItemsSpelled ts bs) (rest : Bytes) :
    anotherItem false (after ++ byteOf ',' :: (bs ++ rest)) =
      .ok (true, (bs ++ rest).dropWhile isSpace) := by
  obtain ⟨b, tail, hdrop, hne⟩ := h.dropWhile_ne rest
  rw [anotherItem, peek_blanks hafter, peek_cons rfl, if_neg (by decide),
    if_neg Bool.false_ne_true, if_pos rfl, advance_bind, peek_eq, hdrop]
  dsimp only
  rw [if_neg hne]
  rfl

theorem anotherItem_close (hafter : Blanks after) (first : Bool) (rest : Bytes) :
    anotherItem first (after ++ byteOf ']' :: rest) = .ok (false, byteOf ']' :: rest) := by
  rw [anotherItem, peek_blanks hafter, peek_cons rfl, if_pos rfl]
  rfl

theorem readItemsFrom_close (hafter : Blanks after) (item : Reader α) {fuel : Nat}
    (hfuel : 0 < fuel) (first : Bool) (rest : Bytes) :
    readItemsFrom item first fuel (after ++ byteOf ']' :: rest) = .ok ([], byteOf ']' :: rest) := by
  cases fuel with
  | zero => exact absurd hfuel (Nat.lt_irrefl 0)
  | succ fuel =>
    rw [readItemsFrom, bind_ok (anotherItem_close hafter first rest)]
    rfl

/-- One item is read, up to what closes it. -/
theorem readItemsFrom_item {n : Nat} {v : α} {t : Tree} {before own : Bytes} {b : UInt8}
    (hblanks : SkipsBlanks item)
    (hitem : ∀ {v t bs}, accepts v t → t.Spelled bs → bs.length ≤ n → Reads item bs v)
    (hv : accepts v t) (hbefore : Blanks before) (h : t.Spelled own) (hafter : Blanks after)
    (hn : own.length ≤ n) (hb : Closes b) {first : Bool} {input : Bytes}
    (hfirst : anotherItem first input =
      .ok (true, (before ++ (own ++ (after ++ b :: rest))).dropWhile isSpace)) (fuel : Nat) :
    readItemsFrom item first (fuel + 1) input =
      (readItemsFrom item false fuel >>= fun vs => pure (v :: vs)) (after ++ b :: rest) := by
  have hread := hitem hv h hn _ (hb.ends hafter rest)
  rw [← hblanks.append hbefore, ← hblanks] at hread
  rw [readItemsFrom, bind_ok hfirst, if_pos rfl, bind_ok hread]

/-- Items are read one after another: the reader of one item gives those of all. -/
theorem readItemsFrom_spelled (hblanks : SkipsBlanks item) {n : Nat}
    (hitem : ∀ {v t bs}, accepts v t → t.Spelled bs → bs.length ≤ n → Reads item bs v)
    (hvs : List.Forall₂ accepts vs ts) (h : ItemsSpelled ts bs) (hn : bs.length ≤ n)
    {fuel : Nat} (hfuel : ts.length < fuel) {first : Bool} {input : Bytes}
    (hfirst : anotherItem first input =
      .ok (true, (bs ++ byteOf ']' :: rest).dropWhile isSpace)) :
    readItemsFrom item first fuel input = .ok (vs, byteOf ']' :: rest) := by
  induction hvs generalizing bs fuel first input with
  | nil => cases h
  | cons hv hvs ih =>
    cases fuel with
    | zero => exact absurd hfuel (Nat.not_lt_zero _)
    | succ fuel =>
      rw [List.length_cons] at hfuel
      cases h with
      | last hbefore h hafter =>
        simp only [List.length_append] at hn
        cases hvs
        rw [List.append_assoc, List.append_assoc] at hfirst
        rw [readItemsFrom_item hblanks hitem hv hbefore h hafter (by omega) (.inr (.inl rfl))
            hfirst, bind_ok (readItemsFrom_close hafter item (by omega) false rest)]
        rfl
      | more hbefore h hafter hts =>
        simp only [List.length_append, List.length_cons] at hn
        rw [List.append_assoc, List.append_assoc, List.append_assoc, List.cons_append] at hfirst
        rw [readItemsFrom_item hblanks hitem hv hbefore h hafter (by omega) (.inl rfl) hfirst,
          bind_ok (ih hts (by omega) (by omega) (anotherItem_comma hafter hts _))]
        rfl

theorem ItemsSpelled.length_le (h : ItemsSpelled ts bs) : ts.length ≤ bs.length := by
  induction ts generalizing bs with
  | nil => cases h
  | cons t ts ih =>
    cases h with
    | last hbefore h hafter =>
      obtain ⟨b, tail, rfl, -⟩ := h.starts
      simp only [List.length_append, List.length_cons, List.length_nil]
      omega
    | more hbefore h hafter hts =>
      have := ih hts
      simp only [List.length_append, List.length_cons]
      omega

theorem closeArray_blanks (hafter : Blanks after) (rest : Bytes) :
    closeArray (after ++ byteOf ']' :: rest) = .ok ((), rest) := by
  rw [closeArray, peek_blanks hafter, peek_cons rfl]
  rfl

theorem closeArray_cons (rest : Bytes) : closeArray (byteOf ']' :: rest) = .ok ((), rest) :=
  closeArray_blanks (show Blanks [] from nofun) rest

/-- An array, behind its opening bracket. -/
theorem readItems_spelled (hblanks : SkipsBlanks item) {n : Nat}
    (hitem : ∀ {v t bs}, accepts v t → t.Spelled bs → bs.length ≤ n → Reads item bs v)
    (hvs : List.Forall₂ accepts vs ts) (h : (Tree.array ts).Spelled (byteOf '[' :: bs))
    (hn : bs.length ≤ n) (rest : Bytes) : readItems item n (bs ++ rest) = .ok (vs, rest) := by
  cases h with
  | noItems hws =>
    cases hvs
    rw [List.length_append, List.length_singleton] at hn
    rw [List.append_assoc, List.singleton_append, readItems,
      bind_ok (readItemsFrom_close hws item (show 0 < n by omega) true rest),
      bind_ok (closeArray_cons rest)]
    rfl
  | array h =>
    rw [List.length_append, List.length_singleton] at hn
    have hlength := h.length_le
    have hread := readItemsFrom_spelled hblanks hitem hvs h (by omega) (show ts.length < n by omega)
      (anotherItem_first h (byteOf ']' :: rest))
    rw [List.append_assoc, List.singleton_append, readItems, bind_ok hread,
      bind_ok (closeArray_cons rest)]
    rfl

end items

section members

variable {σ : Type} {member : String → σ → Reader σ} {takes : σ → List (String × Tree) → Prop}
  {ms : List (String × Tree)} {bs rest : Bytes} {state : σ}

/-- Reading the value of a member takes that member, and leaves what is behind it. -/
def TakesMember (member : String → σ → Reader σ) (takes : σ → List (String × Tree) → Prop)
    (n : Nat) : Prop :=
  ∀ {state : σ} {m : String × Tree} {ms : List (String × Tree)} {colon value bs rest : Bytes},
    takes state (m :: ms) → m.2.Spelled bs → bs.length ≤ n → Blanks colon → Blanks value →
      Ends rest → ∃ next, takes next ms ∧
        member m.1 state (colon ++ byteOf ':' :: (value ++ (bs ++ rest))) = .ok (next, rest)

theorem MembersSpelled.dropWhile_eq (h : MembersSpelled ms bs) (rest : Bytes) :
    ∃ tail, (bs ++ rest).dropWhile isSpace = byteOf '"' :: tail := by
  obtain ⟨before, tail, rfl, hbefore⟩ := h.starts
  refine ⟨tail ++ rest, ?_⟩
  rw [List.append_assoc, dropWhile_blanks hbefore, List.cons_append,
    List.dropWhile_cons_of_neg (by decide)]

/-- One member is read, up to what closes it. -/
theorem readMembersFrom_member {n : Nat} (hmember : TakesMember member takes n)
    {m : String × Tree} {before own after : Bytes} {b : UInt8} (hbefore : Blanks before)
    (h : MemberSpelled m own) (hafter : Blanks after) (hn : own.length ≤ n) (hb : Closes b)
    (hstate : takes state (m :: ms)) (fuel : Nat) (rest : Bytes) :
    ∃ next, takes next ms ∧ readMembersFrom member (fuel + 1) state
        ((before ++ (own ++ (after ++ b :: rest))).dropWhile isSpace) =
      (if b = byteOf '}' then do
          advance
          return next
        else if b = byteOf ',' then do
          advance
          let q ← peekOr .endInValue
          if q = byteOf '"' then readMembersFrom member fuel next
          else if q = byteOf '}' then throw .trailingComma
          else throw .keyNotString
        else throw .expectedObjectEnd : Reader σ) (b :: rest) := by
  obtain ⟨hname, hcolon, hvalue, h⟩ := h
  simp only [List.length_append, List.length_cons] at hn
  obtain ⟨next, hnext, hread⟩ :=
    hmember hstate h (by omega) hcolon hvalue (hb.ends hafter rest)
  refine ⟨next, hnext, ?_⟩
  rw [dropWhile_blanks hbefore, List.cons_append, List.dropWhile_cons_of_neg (by decide),
    readMembersFrom, advance_bind]
  simp only [List.append_assoc, List.cons_append]
  rw [bind_ok (hname.readString _), bind_ok hread, peek_blanks hafter, peek_cons hb.not_space]

/-- Members are read one after another. -/
theorem readMembersFrom_spelled {n : Nat} (hmember : TakesMember member takes n)
    (h : MembersSpelled ms bs) (hn : bs.length ≤ n) {fuel : Nat} (hfuel : ms.length ≤ fuel)
    (hstate : takes state ms) (rest : Bytes) : ∃ final, takes final [] ∧
      readMembersFrom member fuel state ((bs ++ byteOf '}' :: rest).dropWhile isSpace) =
        .ok (final, rest) := by
  induction ms generalizing bs fuel state with
  | nil => cases h
  | cons m ms ih =>
    cases fuel with
    | zero => exact absurd hfuel (Nat.not_succ_le_zero _)
    | succ fuel =>
      rw [List.length_cons] at hfuel
      cases h with
      | last hbefore h hafter =>
        simp only [List.length_append] at hn
        obtain ⟨final, hfinal, hread⟩ := readMembersFrom_member hmember hbefore h hafter (by omega)
          (.inr (.inr rfl)) hstate fuel rest
        refine ⟨final, hfinal, ?_⟩
        rw [List.append_assoc, List.append_assoc, hread]
        rfl
      | more hbefore h hafter hms =>
        simp only [List.length_append, List.length_cons] at hn
        rename_i tail
        obtain ⟨next, hnext, hread⟩ := readMembersFrom_member hmember hbefore h hafter (by omega)
          (.inl rfl) hstate fuel (tail ++ byteOf '}' :: rest)
        obtain ⟨final, hfinal, hrest⟩ := ih hms (by omega) (show ms.length ≤ fuel by omega) hnext
        obtain ⟨quoted, hquoted⟩ := hms.dropWhile_eq (byteOf '}' :: rest)
        refine ⟨final, hfinal, ?_⟩
        rw [List.append_assoc, List.append_assoc, List.append_assoc, List.cons_append, hread,
          if_neg (by decide), if_pos rfl, advance_bind, peek_eq, hquoted]
        dsimp only
        rw [if_pos rfl, ← hquoted]
        exact hrest

theorem MembersSpelled.length_le (h : MembersSpelled ms bs) : ms.length ≤ bs.length := by
  induction ms generalizing bs with
  | nil => cases h
  | cons m ms ih =>
    cases h with
    | last hbefore h hafter =>
      obtain ⟨-, -, -, -⟩ := h
      simp only [List.length_append, List.length_cons, List.length_nil]
      omega
    | more hbefore h hafter hms =>
      have := ih hms
      simp only [List.length_append, List.length_cons]
      omega

/-- An object, behind its opening brace. -/
theorem readMembers_spelled {n : Nat} (hmember : TakesMember member takes n)
    (h : (Tree.object ms).Spelled (byteOf '{' :: bs)) (hn : bs.length ≤ n)
    (hstate : takes state ms) (rest : Bytes) : ∃ final, takes final [] ∧
      readMembers member n state (bs ++ rest) = .ok (final, rest) := by
  cases h with
  | noMembers hws =>
    refine ⟨state, hstate, ?_⟩
    rw [List.append_assoc, List.singleton_append, readMembers, peek_blanks hws, peek_cons rfl]
    rfl
  | object h =>
    rw [List.length_append, List.length_singleton] at hn
    have hlength := h.length_le
    obtain ⟨final, hfinal, hread⟩ := readMembersFrom_spelled hmember h (by omega)
      (show ms.length ≤ n by omega) hstate rest
    obtain ⟨quoted, hquoted⟩ := h.dropWhile_eq (byteOf '}' :: rest)
    refine ⟨final, hfinal, ?_⟩
    rw [List.append_assoc, List.singleton_append, readMembers, peek_eq, hquoted]
    dsimp only
    rw [if_neg (by decide), if_pos rfl, ← hquoted]
    exact hread

end members

/-! ### Shapes -/

theorem skipsBlanks_readAnyNumber (wanted : String) : SkipsBlanks (readAnyNumber wanted) :=
  skipsBlanks_peek _ _

theorem Shape.skipsBlanks_read (s : Shape) (fuel : Nat) : SkipsBlanks (s.read fuel) := by
  cases s with
  | natural width => exact (skipsBlanks_readAnyNumber width.name).bind _
  | real => exact (skipsBlanks_readAnyNumber "f64").bind _
  | _ => exact skipsBlanks_peek _ _

theorem readColon_blanks {colon : Bytes} (hcolon : Blanks colon) (rest : Bytes) :
    readColon (colon ++ byteOf ':' :: rest) = .ok ((), rest) := by
  rw [readColon, peek_blanks hcolon, peek_cons rfl]
  rfl

theorem chosen_chosenName {first second : String} (hne : first ≠ second) (b : Bool)
    (rest : Bytes) : chosen first second (chosenName first second b) rest = .ok (b, rest) := by
  cases b with
  | false =>
    rw [chosen, chosenName, if_neg Bool.false_ne_true, if_pos rfl]
    rfl
  | true =>
    rw [chosen, chosenName, if_pos rfl, if_neg hne.symm, if_pos rfl]
    rfl

theorem Tree.Spelled.array_eq {ts : List Tree} {bs : Bytes} (h : (Tree.array ts).Spelled bs) :
    ∃ tail, bs = byteOf '[' :: tail := by
  cases h <;> exact ⟨_, rfl⟩

theorem Tree.Spelled.object_eq {ms : List (String × Tree)} {bs : Bytes}
    (h : (Tree.object ms).Spelled bs) : ∃ tail, bs = byteOf '{' :: tail := by
  cases h <;> exact ⟨_, rfl⟩

theorem readMember_same (name : String) (shape : Shape) (fields : Fields) (n : Nat)
    (vs : fields.Options) : Fields.readMember n (.field name shape fields) name (none, vs) =
      (readColon >>= fun _ => shape.read n >>= fun v => pure (some v, vs)) := by
  rw [Fields.readMember]
  exact if_pos rfl

theorem readMember_other {name key : String} (hkey : key ≠ name) (shape : Shape) (fields : Fields)
    (n : Nat) (v : Option shape.Value) (vs : fields.Options) :
    Fields.readMember n (.field name shape fields) key (v, vs) =
      (fields.readMember n key vs >>= fun vs => pure (v, vs)) := by
  rw [Fields.readMember]
  exact if_neg hkey

theorem Fields.readInOrder_field (fields : Fields) (key : String) (shape : Shape) (n : Nat)
    (name : String) (total index : Nat) :
    Fields.readInOrder n (.field key shape fields) name total index =
      (anotherItem (index == 0) >>= fun another =>
        if another = true then shape.read n >>= fun v =>
          fields.readInOrder n name total (index + 1) >>= fun vs => pure (v, vs)
        else throw (.wrongLength index name total) : Reader (shape.Value × fields.Values)) := by
  rw [Fields.readInOrder]
  rfl

theorem Fields.readInOrder_nil : ∀ (fields : Fields) {vs : fields.Values},
    fields.ListedBy vs [] → ∀ (n : Nat) (name : String) (total index : Nat) (input : Bytes),
      fields.readInOrder n name total index input = .ok (vs, input)
  | .done, _, _, _, _, _, _, _ => rfl
  | .field _ _ _, (_, _), hlisted, _, _, _, _, _ => by
    obtain ⟨t, ts, hcons, -⟩ := hlisted
    cases hcons

mutual

/-- Every text of a tree that a shape takes for a value is read as this value. -/
theorem Shape.read_spelled : ∀ (s : Shape) {n : Nat} {v : s.Value} {t : Tree} {bs : Bytes},
    s.Accepts v t → t.Spelled bs → bs.length ≤ n → Reads (s.read n) bs v
  | .text, n, v, t, bs, hv, h, hn => by
    subst hv
    intro rest hrest
    cases h with
    | text h =>
      rw [List.cons_append, List.append_assoc]
      exact (peek_cons rfl ..).trans (h.readString rest)
  | .natural width, n, v, t, bs, hv, h, hn => by
    obtain ⟨text, rfl, hread⟩ := hv
    cases h with
    | number h => exact hread
  | .real, n, v, t, bs, hv, h, hn => by
    obtain ⟨text, rfl, hread⟩ := hv
    cases h with
    | number h => exact hread
  | .choice first second, n, v, t, bs, hv, h, hn => by
    obtain ⟨hne, rfl⟩ := hv
    intro rest hrest
    cases h with
    | text h =>
      rw [List.cons_append, List.append_assoc]
      refine (peek_cons rfl ..).trans ?_
      rw [if_pos rfl, advance_bind, List.singleton_append, bind_ok (h.readString rest)]
      exact chosen_chosenName hne v rest
  | .listOf item, n, v, t, bs, hv, h, hn => by
    obtain ⟨ts, rfl, hvs⟩ := hv
    intro rest hrest
    obtain ⟨tail, rfl⟩ := h.array_eq
    rw [List.length_cons] at hn
    exact (peek_cons rfl ..).trans (readItems_spelled (item.skipsBlanks_read n) item.read_spelled
      hvs h (by omega) rest)
  | .record name fields, n, v, t, bs, hv, h, hn => by
    intro rest hrest
    rcases hv with ⟨ms, rfl, all, hcomplete, htakes⟩ | ⟨ts, rfl, hlisted⟩
    · obtain ⟨tail, rfl⟩ := h.object_eq
      rw [List.length_cons] at hn
      obtain ⟨final, hfinal, hread⟩ := readMembers_spelled (fields.readMember_spelled n all) h
        (by omega) htakes rest
      cases Fields.takes_nil hfinal
      refine (peek_cons rfl ..).trans ?_
      show (readMembers (fields.readMember n) n fields.noOptions >>= fun vs =>
        liftM (fields.complete vs)) (tail ++ rest) = .ok (v, rest)
      rw [bind_ok hread, hcomplete]
      rfl
    · obtain ⟨tail, rfl⟩ := h.array_eq
      rw [List.length_cons] at hn
      obtain ⟨after, hafter, hread⟩ : ∃ after, Blanks after ∧
          fields.readInOrder n name fields.count 0 (tail ++ rest) =
            .ok (v, after ++ byteOf ']' :: rest) := by
        cases h with
        | noItems hws =>
          rw [List.append_assoc]
          exact ⟨_, hws, fields.readInOrder_nil hlisted ..⟩
        | array h =>
          rw [List.length_append] at hn
          rw [List.append_assoc]
          exact fields.readInOrder_spelled n name _ 0 hlisted h (by omega) (anotherItem_first h _)
      refine (peek_cons rfl ..).trans ?_
      show (fields.readInOrder n name fields.count 0 >>= fun vs =>
        closeArray >>= fun _ => pure vs) (tail ++ rest) = .ok (v, rest)
      rw [bind_ok hread, bind_ok (closeArray_blanks hafter rest)]
      rfl
  | .settings name fields, n, v, t, bs, hv, h, hn => by
    obtain ⟨ms, rfl, htakes⟩ := hv
    intro rest hrest
    obtain ⟨tail, rfl⟩ := h.object_eq
    rw [List.length_cons] at hn
    obtain ⟨final, hfinal, hread⟩ := readMembers_spelled (fields.readMember_spelled n v) h
      (by omega) htakes rest
    cases Fields.takes_nil hfinal
    exact (peek_cons rfl ..).trans hread

/-- The fields of a record are read from its items, up to the closing bracket. -/
theorem Fields.readInOrder_spelled : ∀ (fields : Fields) (n : Nat) (name : String)
    (total index : Nat) {vs : fields.Values} {ts : List Tree} {bs input rest : Bytes},
    fields.ListedBy vs ts → ItemsSpelled ts bs → bs.length ≤ n →
    anotherItem (index == 0) input =
      .ok (true, (bs ++ byteOf ']' :: rest).dropWhile isSpace) →
    ∃ after, Blanks after ∧
      fields.readInOrder n name total index input = .ok (vs, after ++ byteOf ']' :: rest)
  | .done, n, name, total, index, vs, ts, bs, input, rest, hlisted, h, hn, hfirst => by
    cases hlisted
    cases h
  | .field key shape fields, n, name, total, index, (v, vs), ts, bs, input, rest, hlisted, h, hn,
      hfirst => by
    obtain ⟨t, ts', rfl, hv, hlisted⟩ := hlisted
    have hstep {before own after tail : Bytes} {b : UInt8} (hbefore : Blanks before)
        (hown : t.Spelled own) (hlength : own.length ≤ n) (hafter : Blanks after) (hb : Closes b)
        (hinput : anotherItem (index == 0) input =
          .ok (true, (before ++ (own ++ (after ++ b :: tail))).dropWhile isSpace)) :
        Fields.readInOrder n (.field key shape fields) name total index input =
          (fields.readInOrder n name total (index + 1) >>= fun vs => pure (v, vs))
            (after ++ b :: tail) := by
      have hread := shape.read_spelled hv hown hlength _ (hb.ends hafter tail)
      rw [← (shape.skipsBlanks_read n).append hbefore, ← shape.skipsBlanks_read n] at hread
      refine (congrFun (fields.readInOrder_field key shape n name total index) input).trans ?_
      rw [bind_ok hinput, if_pos rfl, bind_ok hread]
    cases h with
    | last hbefore h hafter =>
      simp only [List.length_append] at hn
      rw [List.append_assoc, List.append_assoc] at hfirst
      rw [hstep hbefore h (by omega) hafter (.inr (.inl rfl)) hfirst,
        bind_ok (fields.readInOrder_nil hlisted ..)]
      exact ⟨_, hafter, rfl⟩
    | more hbefore h hafter hts =>
      simp only [List.length_append, List.length_cons] at hn
      rw [List.append_assoc, List.append_assoc, List.append_assoc, List.cons_append] at hfirst
      obtain ⟨after', hafter', hread⟩ := fields.readInOrder_spelled n name total (index + 1)
        hlisted hts (by omega) (anotherItem_comma hafter hts _)
      rw [hstep hbefore h (by omega) hafter (.inl rfl) hfirst, bind_ok hread]
      exact ⟨after', hafter', rfl⟩

theorem Fields.readMember_spelled : ∀ (fields : Fields) (n : Nat) (final : fields.Options),
    TakesMember (fields.readMember n) (fun state ms => fields.Takes state final ms) n
  | .done, n, final, state, m, ms, colon, value, bs, rest, htakes, h, hn, hcolon, hvalue,
      hrest => by
    refine ⟨(), trivial, ?_⟩
    show (readColon >>= fun _ => skipValue n) _ = _
    rw [bind_ok (readColon_blanks hcolon _), (skipsBlanks_skipValue n).append hvalue]
    exact h.skip hn rest hrest
  | .field name shape fields, n, (v, vs), (w, ws), (key, t), ms, colon, value, bs, rest, htakes, h,
    hn, hcolon, hvalue, hrest => by
    obtain ⟨hfills, htakes⟩ := htakes
    by_cases hkey : key = name
    · subst hkey
      rw [valuesOf_cons_self] at hfills
      rw [without_cons_self] at htakes
      generalize hown : valuesOf key ms = own at hfills
      cases hfills with
      | given hv =>
        rename_i v
        refine ⟨(some v, ws), ⟨hown ▸ .kept _, htakes⟩, ?_⟩
        have hread := shape.read_spelled hv h hn rest hrest
        rw [← (shape.skipsBlanks_read n).append hvalue] at hread
        rw [readMember_same, bind_ok (readColon_blanks hcolon _), bind_ok hread]
        rfl
    · rw [valuesOf_cons_ne hkey] at hfills
      rw [without_cons_ne hkey] at htakes
      obtain ⟨next, hnext, hread⟩ :=
        fields.readMember_spelled n vs htakes h hn hcolon hvalue hrest
      refine ⟨(w, next), ⟨hfills, hnext⟩, ?_⟩
      rw [readMember_other hkey, bind_ok hread]
      rfl

end

/-- A text that holds one value, with any blanks around it. -/
theorem Format.decode_spelled {α : Type} (f : Format α) {v : f.input.Value} {t : Tree}
    {before bs after : Bytes} (hv : f.input.Accepts v t) (h : t.Spelled bs)
    (hbefore : Blanks before) (hafter : Blanks after) :
    f.decode (before ++ (bs ++ after)) = .ok (f.ofInput v) := by
  have hfuel : bs.length ≤ fuelFor (before ++ (bs ++ after)) := by
    simp only [fuelFor, List.length_append]
    omega
  have hends : Ends after := by
    simpa using hafter.ends ends_nil
  have hread := f.input.read_spelled hv h hfuel after hends
  rw [← (f.input.skipsBlanks_read _).append hbefore] at hread
  rw [Format.decode, hread]
  exact if_pos (List.all_eq_true.mpr hafter)

end Linkage.Json
