import Linkage.Text.Blank
import Linkage.Text.Split
import Mathlib.Data.List.DropRight
import Mathlib.Data.List.Infix

/-!
# Trimmed and divided text

What is left of a list once its two ends are trimmed, and what stands on the two sides of the first
place where a part occurs.
-/

namespace Linkage.Text

variable {α : Type}

section trim

variable {p : α → Bool} {xs pre post : List α} {x : α}

theorem dropWhile_head (hx : x ∈ (xs.dropWhile p).head?) : ¬ p x := by
  have h := List.head?_dropWhile_not p xs
  rw [Option.mem_def.mp hx] at h
  exact Bool.eq_false_iff.mp h

/-- Trimming takes elements that satisfy the test from the two ends only. -/
theorem exists_stripEnds (p : α → Bool) (xs : List α) :
    ∃ pre post, xs = pre ++ stripEnds p xs ++ post ∧ (∀ x ∈ pre, p x) ∧ ∀ x ∈ post, p x := by
  have hsplit : xs.dropWhile p = stripEnds p xs ++ (xs.dropWhile p).rtakeWhile p :=
    List.rdropWhile_append_rtakeWhile.symm
  refine ⟨xs.takeWhile p, (xs.dropWhile p).rtakeWhile p, ?_, fun x hx => List.mem_takeWhile_imp hx,
    fun x hx => List.mem_rtakeWhile_imp hx⟩
  rw [List.append_assoc, ← hsplit, List.takeWhile_append_dropWhile]

theorem infix_stripEnds (p : α → Bool) (xs : List α) : stripEnds p xs <:+: xs := by
  obtain ⟨pre, post, h, -⟩ := exists_stripEnds p xs
  exact ⟨pre, post, h.symm⟩

theorem stripEnds_head (hx : x ∈ (stripEnds p xs).head?) : ¬ p x := by
  suffices hdrop : x ∈ (xs.dropWhile p).head? from dropWhile_head hdrop
  obtain ⟨post, hpost⟩ := List.rdropWhile_prefix p (xs.dropWhile p)
  have hhead : ((xs.dropWhile p).rdropWhile p).head? = some x := hx
  rw [← hpost, List.head?_append, hhead]
  rfl

theorem stripEnds_last (hx : x ∈ (stripEnds p xs).getLast?) : ¬ p x := by
  rw [stripEnds, List.getLast?_reverse] at hx
  exact dropWhile_head hx

theorem dropWhile_eq_self (h : ∀ x ∈ xs.head?, ¬ p x) : xs.dropWhile p = xs := by
  cases xs with
  | nil => rfl
  | cons x xs => exact List.dropWhile_cons_of_neg (h x rfl)

theorem stripEnds_eq_self_iff : stripEnds p xs = xs ↔
    (∀ x ∈ xs.head?, ¬ p x) ∧ ∀ x ∈ xs.getLast?, ¬ p x := by
  constructor
  · intro h
    rw [← h]
    exact ⟨fun x => stripEnds_head, fun x => stripEnds_last⟩
  · rintro ⟨hhead, hlast⟩
    rw [← List.head?_reverse] at hlast
    rw [stripEnds, dropWhile_eq_self hhead, dropWhile_eq_self hlast, List.reverse_reverse]

theorem stripEnds_stripEnds : stripEnds p (stripEnds p xs) = stripEnds p xs :=
  stripEnds_eq_self_iff.mpr ⟨fun _ => stripEnds_head, fun _ => stripEnds_last⟩

theorem stripEnds_append (hpre : ∀ x ∈ pre, p x) (hpost : ∀ x ∈ post, p x)
    (h : stripEnds p xs = xs) : stripEnds p (pre ++ xs ++ post) = xs := by
  obtain ⟨hhead, hlast⟩ := stripEnds_eq_self_iff.mp h
  have hpost' : post.dropWhile p = [] := List.dropWhile_eq_nil_iff.mpr hpost
  rw [stripEnds, List.append_assoc, List.dropWhile_append_of_pos hpre]
  cases xs with
  | nil => rw [List.nil_append, hpost']; rfl
  | cons x xs =>
    have hrev : ∀ y ∈ post.reverse, p y := fun y hy => hpost y (List.mem_reverse.mp hy)
    rw [← List.head?_reverse] at hlast
    rw [List.cons_append, List.dropWhile_cons_of_neg (hhead x rfl), ← List.cons_append,
      List.reverse_append, List.dropWhile_append_of_pos hrev, dropWhile_eq_self hlast,
      List.reverse_reverse]

/-- An element at the front that stays keeps its place. -/
theorem head?_stripEnds (h : ∀ x ∈ xs.head?, ¬ p x) : (stripEnds p xs).head? = xs.head? := by
  obtain ⟨pre, post, hxs, hpre, hpost⟩ := exists_stripEnds p xs
  cases pre with
  | cons x pre =>
    refine absurd (hpre x (List.mem_cons_self ..)) (h x ?_)
    rw [hxs]
    rfl
  | nil =>
    rw [List.nil_append] at hxs
    cases hkept : stripEnds p xs with
    | cons x kept => rw [hxs, hkept]; rfl
    | nil =>
      rw [hkept, List.nil_append] at hxs
      cases post with
      | nil => rw [hxs]
      | cons y post => exact absurd (hpost y (List.mem_cons_self ..)) (h y (by rw [hxs]; rfl))

end trim

section split

variable [DecidableEq α] {part xs before after : List α}

theorem splitFirst_eq_some (hne : part ≠ []) (h : splitFirst part xs = some (before, after)) :
    xs = before ++ part ++ after ∧ ¬ part <:+: before := by
  induction xs generalizing before with
  | nil =>
    rw [splitFirst, if_neg hne] at h
    cases h
  | cons x xs ih =>
    rw [splitFirst] at h
    split at h
    · rename_i hprefix
      obtain ⟨rfl, rfl⟩ := Prod.mk.inj (Option.some.inj h)
      obtain ⟨rest, hrest⟩ := List.isPrefixOf_iff_prefix.mp hprefix
      refine ⟨?_, fun hinfix => hne (List.infix_nil.mp hinfix)⟩
      rw [← hrest, List.drop_left, List.nil_append]
    · rename_i hprefix
      obtain ⟨⟨before', after'⟩, hsplit, heq⟩ := Option.map_eq_some_iff.mp h
      obtain ⟨rfl, rfl⟩ := Prod.mk.inj heq
      obtain ⟨rfl, hfirst⟩ := ih hsplit
      refine ⟨rfl, fun hinfix => ?_⟩
      rcases List.infix_cons_iff.mp hinfix with hpre | hpre
      · refine hprefix (List.isPrefixOf_iff_prefix.mpr (hpre.trans ?_))
        rw [List.append_assoc]
        exact List.prefix_append ..
      · exact hfirst hpre

theorem holds_iff_infix : holds part xs ↔ part <:+: xs := by
  induction xs with
  | nil => simp [holds, splitFirst]
  | cons x xs ih =>
    rw [holds, splitFirst, List.infix_cons_iff, ← List.isPrefixOf_iff_prefix, ← ih, holds]
    split <;> simp_all

/-- The part occurs first where it is put, unless it begins earlier. -/
theorem splitFirst_append (hne : part ≠ []) (h : ¬ part <:+: before ++ part.dropLast) :
    splitFirst part (before ++ part ++ after) = some (before, after) := by
  induction before with
  | nil =>
    obtain ⟨x, xs, rfl⟩ := List.exists_cons_of_ne_nil hne
    have hprefix : (x :: xs).isPrefixOf (x :: xs ++ after) :=
      List.isPrefixOf_iff_prefix.mpr (List.prefix_append ..)
    rw [List.nil_append, List.cons_append, splitFirst, ← List.cons_append, if_pos hprefix,
      List.drop_left]
  | cons x before ih =>
    have hshort : x :: before ++ part.dropLast <+: x :: (before ++ part ++ after) := by
      rw [List.cons_append, List.append_assoc, List.cons_prefix_cons, List.prefix_append_right_inj]
      exact ⟨rfl, (List.dropLast_prefix part).trans (List.prefix_append ..)⟩
    have hlength : part.length ≤ (x :: before ++ part.dropLast).length := by
      simp only [List.length_append, List.length_cons, List.length_dropLast]
      omega
    have hprefix : ¬ part.isPrefixOf (x :: (before ++ part ++ after)) := fun hpre =>
      h (List.prefix_of_prefix_length_le (List.isPrefixOf_iff_prefix.mp hpre) hshort
        hlength).isInfix
    rw [List.cons_append, List.cons_append, splitFirst, if_neg hprefix,
      ih fun hinfix => h (List.infix_cons hinfix)]
    rfl

theorem splitFirst_eq_none (h : ¬ part <:+: xs) : splitFirst part xs = none := by
  rw [← holds_iff_infix, holds, Bool.not_eq_true, Option.isSome_eq_false_iff] at h
  exact Option.isNone_iff_eq_none.mp h

end split

variable {part xs ys : List α} {x : α}

theorem prefix_of_prefix_append_cons (hx : x ∉ part) (h : part <+: xs ++ x :: ys) :
    part <+: xs := by
  rcases List.prefix_or_prefix_of_prefix h (List.prefix_append xs (x :: ys)) with hpre | hpre
  · exact hpre
  · obtain ⟨rest, rfl⟩ := hpre
    rw [List.prefix_append_right_inj] at h
    cases rest with
    | nil => rw [List.append_nil]
    | cons y rest =>
      obtain ⟨rfl, -⟩ := List.cons_prefix_cons.mp h
      exact absurd (List.mem_append_right xs (List.mem_cons_self ..)) hx

/-- A part stands on one side of an element that it does not hold. -/
theorem not_infix_append_cons (hx : x ∉ part) (hxs : ¬ part <:+: xs) (hys : ¬ part <:+: ys) :
    ¬ part <:+: xs ++ x :: ys := by
  induction xs with
  | nil =>
    intro h
    rcases List.infix_cons_iff.mp h with hpre | hinfix
    · exact hxs (prefix_of_prefix_append_cons hx hpre).isInfix
    · exact hys hinfix
  | cons y xs ih =>
    intro h
    rcases List.infix_cons_iff.mp h with hpre | hinfix
    · exact hxs (prefix_of_prefix_append_cons hx hpre).isInfix
    · exact ih (fun hxs' => hxs (List.infix_cons hxs')) hinfix

end Linkage.Text
