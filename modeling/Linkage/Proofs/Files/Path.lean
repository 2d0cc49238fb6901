import Linkage.Files.Path
import Mathlib.Data.List.Basic

/-!
# Paths of files in a directory

A name that is joined to a directory is the last part of the path, after the parts of the directory.
-/

namespace Linkage

namespace Text

variable {α : Type} [DecidableEq α] {sep : α}

theorem splitAll_ne_nil (sep : α) (xs : List α) : splitAll sep xs ≠ [] := by
  cases xs with
  | nil => exact List.cons_ne_nil _ _
  | cons x xs =>
    rw [splitAll]
    split
    · exact List.cons_ne_nil _ _
    · split <;> exact List.cons_ne_nil _ _

theorem splitAll_cons_ne {x : α} (hx : x ≠ sep) (xs : List α) :
    ∃ piece pieces, splitAll sep xs = piece :: pieces ∧
      splitAll sep (x :: xs) = (x :: piece) :: pieces := by
  obtain ⟨piece, pieces, h⟩ := List.exists_cons_of_ne_nil (splitAll_ne_nil sep xs)
  refine ⟨piece, pieces, h, ?_⟩
  rw [splitAll, if_neg hx, h]

theorem splitAll_append_sep (xs ys : List α) :
    splitAll sep (xs ++ sep :: ys) = splitAll sep xs ++ splitAll sep ys := by
  induction xs with
  | nil => exact if_pos rfl
  | cons x xs ih =>
    by_cases hx : x = sep
    · subst hx
      rw [List.cons_append, splitAll, if_pos rfl, ih, splitAll, if_pos rfl, List.cons_append]
    · obtain ⟨piece, pieces, h, hcons⟩ := splitAll_cons_ne hx xs
      rw [List.cons_append, splitAll, if_neg hx, ih, hcons, h]
      rfl

theorem splitAll_of_not_mem {xs : List α} (h : sep ∉ xs) : splitAll sep xs = [xs] := by
  induction xs with
  | nil => rfl
  | cons x xs ih =>
    rw [List.mem_cons, not_or] at h
    rw [splitAll, if_neg (Ne.symm h.1), ih h.2]

theorem splitAll_eq_singleton_nil {xs : List α} (h : splitAll sep xs = [[]]) : xs = [] := by
  cases xs with
  | nil => rfl
  | cons x xs =>
    by_cases hx : x = sep
    · rw [splitAll, if_pos hx, List.cons.injEq] at h
      exact absurd h.2 (splitAll_ne_nil sep xs)
    · obtain ⟨piece, pieces, -, hcons⟩ := splitAll_cons_ne hx xs
      rw [hcons, List.cons.injEq] at h
      exact absurd h.1 (List.cons_ne_nil _ _)

end Text

namespace Files
open Text

/-- A name that is one part of a path and leads down: no slash, not empty, and no dots. -/
structure IsName (name : String) : Prop where
  noSlash : '/' ∉ name.toList
  nonempty : name ≠ ""
  notHere : name ≠ "."
  notAbove : name ≠ ".."

instance (name : String) : Decidable (IsName name) :=
  decidable_of_iff ('/' ∉ name.toList ∧ name ≠ "" ∧ name ≠ "." ∧ name ≠ "..")
    ⟨fun ⟨h₁, h₂, h₃, h₄⟩ => ⟨h₁, h₂, h₃, h₄⟩, fun ⟨h₁, h₂, h₃, h₄⟩ => ⟨h₁, h₂, h₃, h₄⟩⟩

/-- The parts that count among the pieces between slashes. -/
def partsOf : List String → List String
  | "" :: rest@(_ :: _) => "" :: rest.filter (· ≠ "")
  | pieces => pieces.filter (· ≠ "")

theorem parts_eq (path : String) :
    parts path = partsOf ((splitAll '/' path.toList).map String.ofList) := rfl

variable {directory name : String} {pieces : List String}

theorem partsOf_rooted (hpieces : pieces ≠ []) :
    partsOf ("" :: pieces) = "" :: pieces.filter (· ≠ "") := by
  cases pieces with
  | nil => exact absurd rfl hpieces
  | cons piece pieces => rfl

theorem partsOf_relative {piece : String} (hpiece : piece ≠ "") (pieces : List String) :
    partsOf (piece :: pieces) = piece :: pieces.filter (· ≠ "") := by
  rw [partsOf.eq_2 _ fun _ _ heq => hpiece (List.cons.inj heq).1]
  exact List.filter_cons_of_pos (decide_eq_true hpiece)

theorem partsOf_append (hpieces : pieces ≠ []) (hname : name ≠ "") :
    partsOf (pieces ++ [name]) = partsOf (pieces ++ [""]) ++ [name] := by
  cases pieces with
  | nil => exact absurd rfl hpieces
  | cons piece pieces =>
    by_cases hpiece : piece = ""
    · rw [hpiece, List.cons_append, List.cons_append, partsOf_rooted (by simp),
        partsOf_rooted (by simp)]
      simp [hname]
    · rw [List.cons_append, List.cons_append, partsOf_relative hpiece, partsOf_relative hpiece]
      simp [hname]

theorem partsOf_append_empty (hpieces : pieces ≠ [""]) :
    partsOf (pieces ++ [""]) = partsOf pieces := by
  cases pieces with
  | nil => rfl
  | cons piece pieces =>
    by_cases hpiece : piece = ""
    · subst hpiece
      have hne : pieces ≠ [] := fun h => hpieces (h ▸ rfl)
      rw [List.cons_append, partsOf_rooted (by simp), partsOf_rooted hne]
      simp
    · rw [List.cons_append, partsOf_relative hpiece, partsOf_relative hpiece]
      simp

theorem pieces_ne_nil (cs : List Char) : (splitAll '/' cs).map String.ofList ≠ [] := by
  rw [ne_eq, List.map_eq_nil_iff]
  exact splitAll_ne_nil '/' cs

theorem parts_append_slash (cs : List Char) (hname : IsName name) :
    partsOf ((splitAll '/' (cs ++ '/' :: name.toList)).map String.ofList) =
      partsOf ((splitAll '/' cs).map String.ofList ++ [""]) ++ [name] := by
  rw [splitAll_append_sep, splitAll_of_not_mem hname.noSlash, List.map_append, List.map_singleton,
    String.ofList_toList, partsOf_append (pieces_ne_nil cs) hname.nonempty]

theorem parts_join (directory : String) (hname : IsName name) :
    parts (join directory name) = parts directory ++ [name] := by
  rw [join]
  split
  · rename_i hdirectory
    rw [hdirectory, parts_eq, splitAll_of_not_mem hname.noSlash, List.map_singleton,
      String.ofList_toList, partsOf_relative hname.nonempty]
    rfl
  · rename_i hdirectory
    split
    · rename_i hslash
      obtain ⟨cs, hcs⟩ := List.getLast?_eq_some_iff.mp (beq_iff_eq.mp hslash)
      rw [parts_eq, parts_eq, String.toList_append, hcs, List.append_assoc, List.singleton_append,
        parts_append_slash cs hname, splitAll_append_sep, List.map_append]
      rfl
    · have hpieces : (splitAll '/' directory.toList).map String.ofList ≠ [""] := by
        intro h
        obtain ⟨cs, hcs, hnil⟩ := List.map_eq_singleton_iff.mp h
        have hnil : cs = [] := by
          rw [← String.toList_ofList (l := cs), hnil]
          rfl
        rw [hnil] at hcs
        exact hdirectory (String.toList_eq_nil_iff.mp (splitAll_eq_singleton_nil hcs))
      rw [parts_eq, parts_eq, String.toList_append, String.toList_append, List.append_assoc]
      exact (parts_append_slash _ hname).trans
        (congrArg (· ++ [name]) (partsOf_append_empty hpieces))

theorem exists_join (directory name : String) :
    ∃ front, (join directory name).toList = front ++ name.toList := by
  rw [join]
  split
  · exact ⟨[], rfl⟩
  · split
    · exact ⟨directory.toList, String.toList_append⟩
    · exact ⟨(directory ++ "/").toList, String.toList_append⟩

theorem toList_ne_nil (hname : IsName name) : name.toList ≠ [] := fun h =>
  hname.nonempty (String.toList_eq_nil_iff.mp h)

theorem join_ne_empty (directory : String) (hname : IsName name) : join directory name ≠ "" := by
  obtain ⟨front, hfront⟩ := exists_join directory name
  intro h
  rw [h] at hfront
  exact toList_ne_nil hname (List.append_eq_nil_iff.mp hfront.symm).2

theorem endsInSlash_join (directory : String) (hname : IsName name) :
    endsInSlash (join directory name) = false := by
  obtain ⟨front, hfront⟩ := exists_join directory name
  rw [endsInSlash, hfront, List.getLast?_append_of_ne_nil _ (toList_ne_nil hname)]
  refine Bool.eq_false_iff.mpr fun h => hname.noSlash ?_
  exact List.mem_of_getLast? (beq_iff_eq.mp h)

end Files

end Linkage
