import Linkage.Proofs.Json.Stored
import Linkage.Proofs.Json.Unique

/-!
# Values without null

Where null stands in a text. No shape writes it, except in the place of a double that is infinite or
undefined.
-/

namespace Linkage.Json

/-- Null stands in a tree, or somewhere below. -/
inductive Tree.HasNull : Tree → Prop
  | null : HasNull .null
  | item {t : Tree} {ts : List Tree} (hmem : t ∈ ts) (h : t.HasNull) : HasNull (.array ts)
  | member {m : String × Tree} {ms : List (String × Tree)} (hmem : m ∈ ms) (h : m.2.HasNull) :
      HasNull (.object ms)

/-- A value is written with null in some place. -/
inductive Value.WritesNull : Value → Prop
  | null : WritesNull .null
  | real {x : Float} (hx : ¬ x.isFinite) : WritesNull (.real x)
  | item {v : Value} {vs : List Value} (hmem : v ∈ vs) (h : v.WritesNull) : WritesNull (.array vs)
  | member {m : String × Value} {ms : List (String × Value)} (hmem : m ∈ ms)
      (h : m.2.WritesNull) : WritesNull (.object ms)

theorem sorted_real_tree (x : Float) : (Value.real x).sorted.tree =
    if x.isFinite then .number (Text.utf8 (realText x)) else .null := rfl

theorem Tree.HasNull.writesNull {t : Tree} (h : t.HasNull) {v : Value} (ht : v.sorted.tree = t) :
    v.WritesNull := by
  induction h generalizing v with
  | null =>
    cases v with
    | null => exact .null
    | real x =>
      refine .real fun hx => ?_
      rw [sorted_real_tree, if_pos hx] at ht
      cases ht
    | _ => cases ht
  | item hmem h ih =>
    cases v with
    | array vs =>
      cases ht
      rw [sortedItems_eq, itemTrees_eq, List.map_map] at hmem
      obtain ⟨v, hv, rfl⟩ := List.mem_map.mp hmem
      exact .item hv (ih rfl)
    | real x =>
      rw [sorted_real_tree] at ht
      split at ht <;> cases ht
    | _ => cases ht
  | member hmem h ih =>
    cases v with
    | object ms =>
      cases ht
      rw [memberTrees_eq] at hmem
      obtain ⟨m, hm, rfl⟩ := List.mem_map.mp hmem
      obtain ⟨m, hms, rfl⟩ := List.mem_map.mp ((sortedMembers_perm ms).mem_iff.mp hm)
      exact .member hms (ih rfl)
    | real x =>
      rw [sorted_real_tree] at ht
      split at ht <;> cases ht
    | _ => cases ht

/-- A text that is written without null has no reading with null. -/
theorem Value.not_hasNull {v : Value} (h : ¬ v.WritesNull) {t : Tree}
    (ht : t.Spelled (Text.encode v.sorted.pretty)) : ¬ t.HasNull :=
  fun hnull => h (hnull.writesNull (v.sorted.spelled_pretty.unique ht))

/-- What is written as null, if anything is, is a double that is not finite. -/
def Value.NullsAreReals (v : Value) : Prop := v.WritesNull → ∃ x ∈ v.reals, ¬ x.isFinite

theorem nullsAreReals_natural (n : Nat) : (Value.natural n).NullsAreReals := nofun

theorem nullsAreReals_text (s : String) : (Value.text s).NullsAreReals := nofun

theorem nullsAreReals_real (x : Float) : (Value.real x).NullsAreReals := by
  intro h
  cases h with
  | real hx => exact ⟨x, List.mem_cons_self, hx⟩

theorem nullsAreReals_array {vs : List Value} (hvs : ∀ v ∈ vs, v.NullsAreReals) :
    (Value.array vs).NullsAreReals := by
  intro h
  cases h with
  | item hmem h =>
    obtain ⟨x, hx, hfinite⟩ := hvs _ hmem h
    refine ⟨x, ?_, hfinite⟩
    rw [Value.reals, itemReals_eq]
    exact List.mem_flatMap_of_mem hmem hx

theorem nullsAreReals_object {ms : List (String × Value)} (hms : ∀ m ∈ ms, m.2.NullsAreReals) :
    (Value.object ms).NullsAreReals := by
  intro h
  cases h with
  | member hmem h =>
    obtain ⟨x, hx, hfinite⟩ := hms _ hmem h
    refine ⟨x, ?_, hfinite⟩
    rw [Value.reals, memberReals_eq]
    exact List.mem_flatMap_of_mem hmem hx

mutual

theorem Shape.nullsAreReals_toJson : ∀ (s : Shape) (v : s.Value), (s.toJson v).NullsAreReals
  | .text, s => nullsAreReals_text s
  | .natural _, n => nullsAreReals_natural n
  | .real, x => nullsAreReals_real x
  | .choice _ _, _ => nullsAreReals_text _
  | .listOf item, (_ : List item.Value) =>
    nullsAreReals_array (List.forall_mem_map.mpr fun v _ => item.nullsAreReals_toJson v)
  | .record _ fields, (vs : fields.Values) =>
    nullsAreReals_object (fields.someMembers_given vs ▸ fields.nullsAreReals_someMembers _)
  | .settings _ fields, vs => nullsAreReals_object (fields.nullsAreReals_someMembers vs)

theorem Fields.nullsAreReals_someMembers : ∀ (fields : Fields) (vs : fields.Options),
    ∀ m ∈ fields.someMembers vs, m.2.NullsAreReals
  | .done, _, _, hmem => nomatch hmem
  | .field _ _ fields, (none, vs), m, hmem => fields.nullsAreReals_someMembers vs m hmem
  | .field _ shape _, (some v, _), _, .head _ => shape.nullsAreReals_toJson v
  | .field _ _ fields, (some _, vs), m, .tail _ hmem => fields.nullsAreReals_someMembers vs m hmem

end

end Linkage.Json
