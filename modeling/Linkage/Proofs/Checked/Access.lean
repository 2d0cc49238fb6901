import Linkage.Proofs.Ranking

/-!
# Checked accesses

Lists are read by position here, and a position that is out of range gives no result at all. An
index has to fit into a word of 32 bits.
-/

namespace Linkage

variable {α β : Type}

/-- An index, if a word holds it. -/
def word? (n : Nat) : Option Nat := if n < 2 ^ 32 then some n else none

theorem word?_eq {n : Nat} (h : n < 2 ^ 32) : word? n = some n := if_pos h

/-- What follows a position; the end of the list is the last one. -/
def from? (xs : List α) (i : Nat) : Option (List α) :=
  if i ≤ xs.length then some (xs.drop i) else none

/-- Results for the elements at any two positions, by the one position and then by the other. -/
def scan? (f : Nat → Nat → α → α → β) (xs : List α) : Option (List β) :=
  (pairsOf (List.range xs.length)).mapM fun (i, j) => do return f i j (← xs[i]?) (← xs[j]?)

/-- Results for each element and those behind it. -/
def scanRows? (f : α → List α → β) (xs : List α) : Option (List β) :=
  xs.zipIdx.mapM fun (x, i) => do return f x (← from? xs (i + 1))

theorem bind_of_some {x : Option α} {a : α} (h : x = some a) (f : α → Option β) :
    (x >>= f) = f a := by
  rw [h]
  rfl

/-- A result for each element means that none is left out. -/
theorem mapM_eq_filterMap {f : α → Option β} {xs : List α} (h : ∀ x ∈ xs, (f x).isSome) :
    xs.mapM f = some (xs.filterMap f) := by
  induction xs with
  | nil => rfl
  | cons x xs ih =>
    obtain ⟨hx, hxs⟩ := List.forall_mem_cons.mp h
    obtain ⟨y, hy⟩ := Option.isSome_iff_exists.mp hx
    rw [List.mapM_cons, ih hxs, hy, List.filterMap_cons_some hy]
    rfl

theorem mapM_eq_map {f : α → Option β} {g : α → β} {xs : List α}
    (h : ∀ x ∈ xs, f x = some (g x)) : xs.mapM f = some (xs.map g) := by
  have hsome : ∀ x ∈ xs, (f x).isSome := by
    intro x hx
    rw [h x hx]
    rfl
  rw [mapM_eq_filterMap hsome, List.filterMap_congr h, ← List.filterMap_eq_map]
  rfl

theorem zipIdx_eq_filterMap (xs : List α) :
    xs.zipIdx = (List.range xs.length).filterMap fun i => xs[i]?.map fun x => (x, i) := by
  have hmap : ((List.range xs.length).map fun i => xs[i]?.map fun x => (x, i)) =
      xs.zipIdx.map some := by
    apply List.ext_getElem
    · simp
    · intro i hi _
      simp only [List.length_map, List.length_range] at hi
      simp [hi]
  calc xs.zipIdx
      = (xs.zipIdx.map some).filterMap id := by simp
    _ = ((List.range xs.length).map fun i => xs[i]?.map fun x => (x, i)).filterMap id := by
      rw [hmap]
    _ = _ := by rw [List.filterMap_map]; rfl

theorem scan?_eq (f : Nat → Nat → α → α → β) (xs : List α) :
    scan? f xs = some ((pairsOf xs.zipIdx).map fun p => f p.1.2 p.2.2 p.1.1 p.2.1) := by
  unfold scan?
  have hsome : ∀ p ∈ pairsOf (List.range xs.length),
      (do return f p.1 p.2 (← xs[p.1]?) (← xs[p.2]?) : Option β).isSome := by
    intro p hp
    obtain ⟨hi, hj⟩ := mem_of_mem_pairsOf hp
    rw [List.getElem?_eq_getElem (List.mem_range.mp hi),
      List.getElem?_eq_getElem (List.mem_range.mp hj)]
    rfl
  rw [mapM_eq_filterMap hsome, zipIdx_eq_filterMap xs, pairsOf_filterMap, List.map_filterMap]
  congr 1
  apply List.filterMap_congr
  intro p _
  cases hi : xs[p.1]? <;> cases hj : xs[p.2]? <;> simp [findBoth, hi, hj]

theorem map_pairsOf_zipIdx (xs : List α) :
    (pairsOf xs.zipIdx).map (fun p => (p.1.1, p.2.1)) = pairsOf xs := by
  have hfst : xs.zipIdx.filterMap (fun p => some p.1) = xs := by simp
  calc (pairsOf xs.zipIdx).map (fun p => (p.1.1, p.2.1))
      = (pairsOf xs.zipIdx).filterMap (findBoth fun p => some p.1) := by
        rw [← List.filterMap_eq_map]
        rfl
    _ = pairsOf xs := by rw [← pairsOf_filterMap, hfst]

theorem scanRows?_eq (f : α → List α → β) (xs : List α) :
    scanRows? f xs = some (xs.zipIdx.map fun p => f p.1 (xs.drop (p.2 + 1))) := by
  unfold scanRows?
  apply mapM_eq_map
  intro p hp
  have hi : p.2 < xs.length := by
    have hget := List.mem_zipIdx_iff_getElem?.mp hp
    exact (List.getElem?_eq_some_iff.mp hget).1
  simp [from?, Nat.succ_le_of_lt hi]

theorem pairsOf_eq_flatMap (xs : List α) :
    pairsOf xs = xs.zipIdx.flatMap fun p => (xs.drop (p.2 + 1)).map fun y => (p.1, y) := by
  induction xs with
  | nil => rfl
  | cons x xs ih =>
    rw [pairsOf, ih, List.zipIdx_cons', List.flatMap_cons, List.flatMap_map]
    simp

end Linkage
