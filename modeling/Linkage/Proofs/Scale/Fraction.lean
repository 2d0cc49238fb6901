import Linkage.Proofs.Scale.Order

/-!
# Means of fractions

Fractions are added and divided without rounding, so the mean of some fractions is their sum over
their number, and the mean of several lists together lies wherever the means of the lists do: in the
same interval.
-/

namespace Linkage.Fraction
open Scale

theorem isNumber (x : Rat) : IsNumber x := decide_eq_true (le_refl x)

theorem lt_of_not_atMost {x y : Rat} (h : ¬ atMost x y) : y < x :=
  not_le.mp fun hle => h (decide_eq_true hle)

theorem sumFrom_eq (start : Rat) (xs : List Rat) : sumFrom start xs = start + xs.sum := by
  induction xs generalizing start with
  | nil => simp [sumFrom]
  | cons x xs ih =>
    rw [List.sum_cons, ← add_assoc]
    exact ih (start + x)

theorem sum_eq (xs : List Rat) : Scale.sum xs = xs.sum := (sumFrom_eq 0 xs).trans (zero_add _)

/-- Where nothing is rounded, brackets make no difference. -/
theorem bracketing_sum_eq (b : Bracketing) (xs : List Rat) : b.sum xs = xs.sum := by
  induction b generalizing xs with
  | inOrder => exact sum_eq xs
  | cut front left right hleft hright =>
    rw [Bracketing.sum, sum_eq, hleft, hright]
    calc [(xs.take front).sum, (xs.drop front).sum].sum
        = (xs.take front).sum + (xs.drop front).sum := by simp
      _ = (xs.take front ++ xs.drop front).sum := List.sum_append.symm
      _ = xs.sum := by rw [List.take_append_drop]

theorem mean_eq (xs : List Rat) : mean xs = xs.sum / xs.length := by
  cases xs with
  | nil => simp [mean, zero]
  | cons x xs =>
    have hzero : (zero : Rat) = 0 := rfl
    rw [mean, List.isEmpty_cons, if_neg Bool.false_ne_true, sumFrom_eq, hzero, zero_add]
    rfl

@[simp] theorem mean_nil : mean ([] : List Rat) = 0 := rfl

@[simp] theorem mean_singleton (x : Rat) : mean [x] = x := by simp [mean_eq]

theorem mean_mul_length (xs : List Rat) : mean xs * xs.length = xs.sum := by
  rw [mean_eq]
  cases xs with
  | nil => simp
  | cons x xs =>
    refine div_mul_cancel₀ _ ?_
    rw [List.length_cons]
    positivity

theorem mean_perm {xs ys : List Rat} (h : xs.Perm ys) : mean xs = mean ys := by
  rw [mean_eq, mean_eq, h.sum_eq, h.length_eq]

theorem mean_map_mul (xs : List Rat) (r : Rat) : mean (xs.map (· * r)) = mean xs * r := by
  rw [mean_eq, mean_eq, List.sum_map_mul_right, List.map_id', List.length_map, div_mul_eq_mul_div]

variable {s : Set Rat} (hs : s.OrdConnected)
include hs

theorem mean_append_mem {xs ys : List Rat} (hxs : mean xs ∈ s) (hys : mean ys ∈ s) :
    mean (xs ++ ys) ∈ s := by
  by_cases hx : xs = []
  · rwa [hx, List.nil_append]
  by_cases hy : ys = []
  · rwa [hy, List.append_nil]
  have hxpos : (0 : Rat) < xs.length := by exact_mod_cast List.length_pos_iff.mpr hx
  have hypos : (0 : Rat) < ys.length := by exact_mod_cast List.length_pos_iff.mpr hy
  -- The mean of all is that of the two means, weighted with the lengths.
  have hmean : mean (xs ++ ys) = ((xs.length : Rat) / (xs.length + ys.length)) • mean xs +
      ((ys.length : Rat) / (xs.length + ys.length)) • mean ys := by
    rw [mean_eq, mean_eq, mean_eq, List.sum_append, List.length_append, Nat.cast_add,
      smul_eq_mul, smul_eq_mul]
    field_simp
  rw [hmean]
  exact hs.convex hxs hys (by positivity) (by positivity) (by field_simp)

theorem mean_flatten_mem {blocks : List (List Rat)} (hne : blocks ≠ [])
    (h : ∀ xs ∈ blocks, mean xs ∈ s) : mean blocks.flatten ∈ s := by
  induction blocks with
  | nil => exact absurd rfl hne
  | cons xs blocks ih =>
    have hxs := h xs (List.mem_cons_self ..)
    rw [List.flatten_cons]
    by_cases hb : blocks = []
    · simpa [hb] using hxs
    · exact mean_append_mem hs hxs (ih hb fun ys hys => h ys (List.mem_cons_of_mem xs hys))

theorem mean_mem {xs : List Rat} (hne : xs ≠ []) (h : ∀ x ∈ xs, x ∈ s) : mean xs ∈ s := by
  have hflatten : (xs.map fun x => [x]).flatten = xs := by
    rw [← List.flatMap_def, List.flatMap_singleton']
  rw [← hflatten]
  refine mean_flatten_mem hs (by simpa using hne) fun ys hys => ?_
  obtain ⟨x, hx, rfl⟩ := List.mem_map.mp hys
  rw [mean_singleton]
  exact h x hx

end Linkage.Fraction
