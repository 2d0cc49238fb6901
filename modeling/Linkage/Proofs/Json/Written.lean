import Linkage.Proofs.Json.Tree

/-!
# Values as they are written

The tree of a value, and its text with indents as one of the texts that spell this tree.
-/

namespace Linkage.Json
open Text

mutual

/-- The tree that a value is written as. -/
def Value.tree : Value → Tree
  | .null => .null
  | .natural n => .number (utf8 (Nat.toDigits 10 n))
  | .real x => if x.isFinite then .number (utf8 (realText x)) else .null
  | .text s => .text s
  | .array items => .array (itemTrees items)
  | .object members => .object (memberTrees members)

def itemTrees : List Value → List Tree
  | [] => []
  | v :: vs => v.tree :: itemTrees vs

def memberTrees : List (String × Value) → List (String × Tree)
  | [] => []
  | (k, v) :: ms => (k, v.tree) :: memberTrees ms

end

theorem itemTrees_eq (vs : List Value) : itemTrees vs = vs.map Value.tree := by
  induction vs with
  | nil => rfl
  | cons v vs ih => rw [itemTrees, ih, List.map_cons]

theorem memberTrees_eq (ms : List (String × Value)) :
    memberTrees ms = ms.map fun m => (m.1, m.2.tree) := by
  induction ms with
  | nil => rfl
  | cons m ms ih => rw [memberTrees, ih, List.map_cons]

theorem spelled_stringText (s : String) : (Tree.text s).Spelled (utf8 (stringText s)) := by
  rw [stringText, utf8_cons_ascii (by decide), utf8_append]
  exact .text (spells_escapeChar s.toList)

theorem blanks_nil : Blanks [] := nofun

theorem blanks_newLine (depth : Nat) : Blanks (utf8 (newLine depth)) := by
  rw [newLine, utf8_cons_ascii (by decide)]
  refine List.forall_mem_cons.mpr ⟨rfl, fun b hb => ?_⟩
  obtain ⟨c, hc, hb⟩ := List.mem_flatMap.mp hb
  rw [List.eq_of_mem_replicate hc] at hb
  rw [List.mem_singleton.mp hb]
  rfl

/-- A member with one blank before its value. -/
theorem spelled_member {v : Value} {depth : Nat}
    (h : v.tree.Spelled (utf8 (v.prettyChars depth))) (k : String) :
    MemberSpelled (k, v.tree) (utf8 (stringText k ++ ':' :: ' ' :: v.prettyChars depth)) := by
  have hspace : Blanks [byteOf ' '] := List.forall_mem_singleton.mpr rfl
  rw [utf8_append, stringText, utf8_cons_ascii (by decide), utf8_append,
    utf8_cons_ascii (c := ':') (by decide), utf8_cons_ascii (c := ' ') (by decide),
    List.cons_append, List.append_assoc]
  exact .intro (spells_escapeChar k.toList) blanks_nil hspace h

mutual

theorem Value.spelled : ∀ (v : Value) (depth : Nat), v.tree.Spelled (utf8 (v.prettyChars depth))
  | .null, _ => .null
  | .natural n, _ => .number (.positive (isUnsigned_digits n))
  | .real x, depth => by
    rw [Value.tree, Value.prettyChars]
    split_ifs with hx
    · exact .number (isNumber_realText hx)
    · rw [realText, if_neg hx]
      exact .null
  | .text s, _ => spelled_stringText s
  | .array [], _ => .noItems nofun
  | .array (v :: vs), depth => by
    rw [Value.prettyChars, utf8_cons_ascii (by decide), utf8_append, utf8_append]
    exact .array
      (spelled_items (v :: vs) (depth + 1) (List.cons_ne_nil v vs) (blanks_newLine depth))
  | .object [], _ => .noMembers nofun
  | .object (m :: ms), depth => by
    rw [Value.prettyChars, utf8_cons_ascii (by decide), utf8_append, utf8_append]
    exact .object
      (spelled_members (m :: ms) (depth + 1) (List.cons_ne_nil m ms) (blanks_newLine depth))

theorem spelled_items : ∀ (vs : List Value) (depth : Nat), vs ≠ [] → ∀ {after : Bytes},
    Blanks after → ItemsSpelled (itemTrees vs) (utf8 (prettyItems depth vs) ++ after)
  | [], _, hne, _, _ => absurd rfl hne
  | [v], depth, _, after, hafter => by
    rw [prettyItems, utf8_append, List.append_assoc]
    exact .last (blanks_newLine depth) (v.spelled depth) hafter
  | v :: w :: vs, depth, _, after, hafter => by
    have hrest := spelled_items (w :: vs) depth (List.cons_ne_nil w vs) hafter
    rw [prettyItems.eq_3 _ _ _ (List.cons_ne_nil w vs), utf8_append, utf8_append,
      utf8_cons_ascii (by decide), List.append_assoc, List.append_assoc]
    exact .more (blanks_newLine depth) (v.spelled depth) blanks_nil hrest

theorem spelled_members : ∀ (ms : List (String × Value)) (depth : Nat), ms ≠ [] →
    ∀ {after : Bytes}, Blanks after →
      MembersSpelled (memberTrees ms) (utf8 (prettyMembers depth ms) ++ after)
  | [], _, hne, _, _ => absurd rfl hne
  | [(k, v)], depth, _, after, hafter => by
    rw [prettyMembers, List.append_assoc, utf8_append, List.append_assoc]
    exact .last (blanks_newLine depth) (spelled_member (v.spelled depth) k) hafter
  | (k, v) :: m :: ms, depth, _, after, hafter => by
    have hrest := spelled_members (m :: ms) depth (List.cons_ne_nil m ms) hafter
    have htext : prettyMembers depth ((k, v) :: m :: ms) = newLine depth ++
        ((stringText k ++ ':' :: ' ' :: v.prettyChars depth) ++
          ',' :: prettyMembers depth (m :: ms)) := by
      rw [prettyMembers.eq_3 _ _ _ _ (List.cons_ne_nil m ms)]
      simp only [List.append_assoc, List.cons_append]
    rw [htext, utf8_append, utf8_append, utf8_cons_ascii (c := ',') (by decide), List.append_assoc,
      List.append_assoc]
    exact .more (blanks_newLine depth) (spelled_member (v.spelled depth) k) blanks_nil hrest

end

theorem Value.spelled_pretty (v : Value) : v.tree.Spelled (encode v.pretty) := by
  rw [pretty, encode_ofList]
  exact v.spelled 0

end Linkage.Json
