import Linkage.Proofs.Matrix

/-!
# Matrices by their counts

A matrix keeps its classes and its counts in order and keeps no zeros, so it is known by its names
and by what it answers when asked how often two classes invoked each other. Two matrices with the
same classes and the same answers are equal.
-/

namespace Linkage

section sorted

variable {α κ : Type} {cmp : κ → κ → Ordering} [Std.OrientedCmp cmp] {key : α → κ} {l l' : List α}

theorem keys_nodup_of_sorted (h : l.Pairwise fun a b => cmp (key a) (key b) = .lt) :
    (l.map key).Nodup := by
  refine List.pairwise_map.mpr (h.imp fun hlt heq => ?_)
  rw [heq] at hlt
  exact Std.OrientedCmp.not_lt_of_lt hlt hlt

/-- A list in strict order is known by its members. -/
theorem eq_of_sorted (key : α → κ) (h : l.Pairwise fun a b => cmp (key a) (key b) = .lt)
    (h' : l'.Pairwise fun a b => cmp (key a) (key b) = .lt) (hmem : ∀ a, a ∈ l ↔ a ∈ l') :
    l = l' := by
  have hperm : l.Perm l' := (List.perm_ext_iff_of_nodup (keys_nodup_of_sorted h).of_map
    (keys_nodup_of_sorted h').of_map).mpr hmem
  refine List.Perm.eq_of_pairwise (fun a b _ _ hab hba => ?_) h h' hperm
  exact absurd hba (Std.OrientedCmp.not_lt_of_lt hab)

end sorted

namespace Matrix

/-- Both lists of counts are in order, and calls are counted between different classes only. -/
structure Canonical (m : Matrix) : Prop extends WellFormed m where
  pairs_sorted : m.pairCounts.Pairwise fun d e => IndexPair.compare d.1 e.1 = .lt
  calls_sorted : m.callCounts.Pairwise fun d e => IndexPair.compare d.1 e.1 = .lt
  call_lt : ∀ e ∈ m.callCounts, e.1.1 ≠ e.1.2 ∧ e.1.1 < m.classCount ∧ e.1.2 < m.classCount
  call_pos : ∀ e ∈ m.callCounts, 0 < e.2

variable {m m' : Matrix}

theorem getD_lookup_eq_iff {l : List (IndexPair × Nat)} (hl : (l.map Prod.fst).Nodup)
    {k : IndexPair} {n : Nat} (hn : 0 < n) : (l.lookup k).getD 0 = n ↔ (k, n) ∈ l := by
  rw [← lookup_eq_some_iff_mem hl]
  cases l.lookup k with
  | none => simp [Nat.ne_of_lt hn]
  | some n' => simp

theorem Canonical.call_keys_nodup (h : m.Canonical) : (m.callCounts.map Prod.fst).Nodup :=
  keys_nodup_of_sorted h.calls_sorted

theorem pairCount_eq (h : m.WellFormed) {x y : String} {i j : Nat} (hi : m.class? i = some x)
    (hj : m.class? j = some y) (hij : i ≠ j) :
    m.pairCount x y = (m.pairCounts.lookup (indexKey i j)).getD 0 := by
  rw [pairCount, (indexOf?_eq_some_iff h).mpr hi, (indexOf?_eq_some_iff h).mpr hj]
  exact if_neg hij

theorem directedCount_eq (h : m.WellFormed) {x y : String} {i j : Nat}
    (hi : m.class? i = some x) (hj : m.class? j = some y) :
    m.directedCount x y = (m.callCounts.lookup (i, j)).getD 0 := by
  rw [directedCount, (indexOf?_eq_some_iff h).mpr hi, (indexOf?_eq_some_iff h).mpr hj]

/-- The entries are the positive numbers of invocations between two classes, by their indexes. -/
theorem mem_pairCounts (h : m.WellFormed) {i j n : Nat} : ((i, j), n) ∈ m.pairCounts ↔
    i < j ∧ 0 < n ∧
      ∃ x y, m.class? i = some x ∧ m.class? j = some y ∧ m.pairCount x y = n := by
  have hkey : ∀ {i j : Nat}, i < j → indexKey i j = (i, j) := fun hij => if_pos (Nat.le_of_lt hij)
  constructor
  · intro hmem
    obtain ⟨hij, hj⟩ := h.key_lt _ hmem
    have hpos := h.count_pos _ hmem
    obtain ⟨x, hx⟩ := class?_isSome (Nat.lt_trans hij hj)
    obtain ⟨y, hy⟩ := class?_isSome hj
    refine ⟨hij, hpos, x, y, hx, hy, ?_⟩
    rw [pairCount_eq h hx hy (Nat.ne_of_lt hij), hkey hij]
    exact (getD_lookup_eq_iff h.keys_nodup hpos).mpr hmem
  · rintro ⟨hij, hpos, x, y, hx, hy, hn⟩
    rw [pairCount_eq h hx hy (Nat.ne_of_lt hij), hkey hij] at hn
    exact (getD_lookup_eq_iff h.keys_nodup hpos).mp hn

theorem mem_callCounts (h : m.Canonical) {i j n : Nat} : ((i, j), n) ∈ m.callCounts ↔
    0 < n ∧ ∃ x y, m.class? i = some x ∧ m.class? j = some y ∧ m.directedCount x y = n := by
  constructor
  · intro hmem
    obtain ⟨-, hi, hj⟩ := h.call_lt _ hmem
    have hpos := h.call_pos _ hmem
    obtain ⟨x, hx⟩ := class?_isSome hi
    obtain ⟨y, hy⟩ := class?_isSome hj
    refine ⟨hpos, x, y, hx, hy, ?_⟩
    rw [directedCount_eq h.toWellFormed hx hy]
    exact (getD_lookup_eq_iff h.call_keys_nodup hpos).mpr hmem
  · rintro ⟨hpos, x, y, hx, hy, hn⟩
    rw [directedCount_eq h.toWellFormed hx hy] at hn
    exact (getD_lookup_eq_iff h.call_keys_nodup hpos).mp hn

theorem classes_eq (h : m.WellFormed) (h' : m'.WellFormed)
    (hmem : ∀ name, name ∈ m.classes ↔ name ∈ m'.classes) : m.classes = m'.classes :=
  eq_of_sorted id h.sorted h'.sorted hmem

section names

variable {f : String → String} (hclasses : m'.classes = m.classes.map f)
include hclasses

/-- Where the classes have other names, two indexes name the classes so renamed. -/
theorem exists_classes_iff {p p' : String → String → Prop}
    (hp : ∀ x ∈ m.classes, ∀ y ∈ m.classes, p' (f x) (f y) ↔ p x y) (i j : Nat) :
    (∃ x y, m'.class? i = some x ∧ m'.class? j = some y ∧ p' x y) ↔
      ∃ x y, m.class? i = some x ∧ m.class? j = some y ∧ p x y := by
  have hclass (i : Nat) : m'.class? i = (m.class? i).map f := by
    rw [class?, hclasses, List.getElem?_map, class?]
  rw [hclass, hclass]
  cases hi : m.class? i with
  | none => simp
  | some x =>
    cases hj : m.class? j with
    | none => simp
    | some y => simp [hp x (List.mem_of_getElem? hi) y (List.mem_of_getElem? hj)]

theorem pairCounts_eq_of_map (h : m.Canonical) (h' : m'.Canonical)
    (hcount : ∀ x ∈ m.classes, ∀ y ∈ m.classes, m'.pairCount (f x) (f y) = m.pairCount x y) :
    m'.pairCounts = m.pairCounts := by
  refine eq_of_sorted Prod.fst h'.pairs_sorted h.pairs_sorted ?_
  rintro ⟨⟨i, j⟩, n⟩
  rw [mem_pairCounts h.toWellFormed, mem_pairCounts h'.toWellFormed,
    exists_classes_iff hclasses fun x hx y hy => by rw [hcount x hx y hy]]

theorem callCounts_eq_of_map (h : m.Canonical) (h' : m'.Canonical)
    (hcount : ∀ x ∈ m.classes, ∀ y ∈ m.classes,
      m'.directedCount (f x) (f y) = m.directedCount x y) : m'.callCounts = m.callCounts := by
  refine eq_of_sorted Prod.fst h'.calls_sorted h.calls_sorted ?_
  rintro ⟨⟨i, j⟩, n⟩
  rw [mem_callCounts h, mem_callCounts h',
    exists_classes_iff hclasses fun x hx y hy => by rw [hcount x hx y hy]]

end names

theorem pairCounts_eq (h : m.Canonical) (h' : m'.Canonical) (hclasses : m.classes = m'.classes)
    (hcount : ∀ x y, m.pairCount x y = m'.pairCount x y) : m.pairCounts = m'.pairCounts :=
  pairCounts_eq_of_map (hclasses.trans (List.map_id _).symm) h' h fun x _ y _ => hcount x y

theorem callCounts_eq (h : m.Canonical) (h' : m'.Canonical) (hclasses : m.classes = m'.classes)
    (hcount : ∀ x y, m.directedCount x y = m'.directedCount x y) :
    m.callCounts = m'.callCounts :=
  callCounts_eq_of_map (hclasses.trans (List.map_id _).symm) h' h fun x _ y _ => hcount x y

theorem eq_of_counts (h : m.Canonical) (h' : m'.Canonical) (hclasses : m.classes = m'.classes)
    (hpairs : ∀ x y, m.pairCount x y = m'.pairCount x y)
    (hcalls : ∀ x y, m.directedCount x y = m'.directedCount x y) (htotal : m.total = m'.total) :
    m = m' := by
  have hpairs := pairCounts_eq h h' hclasses hpairs
  have hcalls := callCounts_eq h h' hclasses hcalls
  cases m
  cases m'
  simp only at hclasses hpairs hcalls htotal
  rw [hclasses, hpairs, hcalls, htotal]

/-- A weight is there for exactly the pairs that were counted. -/
theorem weight_isSome_iff {R : Type} [Scale R] (h : m.WellFormed) (x y : String) :
    (m.weight x y : Option R).isSome ↔ 0 < m.pairCount x y := by
  rw [pairCount_pos_iff h, Option.isSome_iff_exists]
  simp only [weight, Option.bind_eq_bind, Option.bind_eq_some_iff, indexOf?_eq_some_iff h,
    ← exists_weightAt_iff (R := R) h]
  grind

end Matrix

end Linkage
