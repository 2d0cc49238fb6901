import Linkage.Proofs.Matrix.Events
import Linkage.Proofs.Matrix.Named
import Linkage.Proofs.Text.ByteOrder

/-!
# Entries of a matrix

The lists of pairs and of calls name the two classes of each count. All indexes in the counts are
those of classes, so no count is dropped on the way to its names, and the list of pairs says the
same as the look-ups of weights and counts do.
-/

namespace Linkage

theorem ClassPair.of?_eq_some_iff {a b : String} {p : ClassPair} : of? a b = some p ↔
    Text.Before p.first p.second ∧ (a = p.first ∧ b = p.second ∨ a = p.second ∧ b = p.first) := by
  obtain ⟨first, second⟩ := p
  rw [Text.before_iff_compare, of?]
  cases hab : compare a b with
  | lt =>
    simp only [Option.some.injEq, mk.injEq]
    constructor
    · rintro ⟨rfl, rfl⟩
      exact ⟨hab, Or.inl ⟨rfl, rfl⟩⟩
    · rintro ⟨hlt, ⟨rfl, rfl⟩ | ⟨rfl, rfl⟩⟩
      · exact ⟨rfl, rfl⟩
      · exact absurd hab (Std.OrientedCmp.not_lt_of_lt hlt)
  | gt =>
    have hba : compare b a = .lt := Std.OrientedCmp.gt_iff_lt.mp hab
    simp only [Option.some.injEq, mk.injEq]
    constructor
    · rintro ⟨rfl, rfl⟩
      exact ⟨hba, Or.inr ⟨rfl, rfl⟩⟩
    · rintro ⟨hlt, ⟨rfl, rfl⟩ | ⟨rfl, rfl⟩⟩
      · exact absurd hba (Std.OrientedCmp.not_lt_of_lt hlt)
      · exact ⟨rfl, rfl⟩
  | eq =>
    obtain rfl := compare_eq_iff_eq.mp hab
    refine iff_of_false nofun ?_
    rintro ⟨hlt, ⟨rfl, rfl⟩ | ⟨rfl, rfl⟩⟩ <;> simp at hlt

namespace Matrix

variable {m : Matrix} {R : Type} [Scale R] {i j : Nat}

def nameAt (m : Matrix) (i : Nat) : String := (m.class? i).getD ""

theorem class?_eq_nameAt (hi : i < m.classCount) : m.class? i = some (m.nameAt i) := by
  obtain ⟨name, hname⟩ := class?_isSome hi
  rw [nameAt, hname, Option.getD_some]

theorem before_nameAt (h : m.WellFormed) (hij : i < j) (hj : j < m.classCount) :
    Text.Before (m.nameAt i) (m.nameAt j) := by
  have hi := List.getElem?_eq_some_iff.mp (class?_eq_nameAt (Nat.lt_trans hij hj))
  have hj' := List.getElem?_eq_some_iff.mp (class?_eq_nameAt hj)
  obtain ⟨hi, heq⟩ := hi
  obtain ⟨hj, heq'⟩ := hj'
  rw [Text.before_iff_compare, ← heq, ← heq']
  exact List.pairwise_iff_getElem.mp h.sorted i j hi hj hij

theorem nameAt_inj (h : m.WellFormed) (hi : i < m.classCount) (hj : j < m.classCount)
    (heq : m.nameAt i = m.nameAt j) : i = j :=
  class?_inj h (class?_eq_nameAt hi) (heq ▸ class?_eq_nameAt hj)

/-- A count of a pair under the names of its classes. -/
def entry (m : Matrix) (e : IndexPair × Nat) : PairCoupling R :=
  ⟨⟨m.nameAt e.1.1, m.nameAt e.1.2⟩, e.2, m.share e.2⟩

theorem pairs_eq_map (h : m.WellFormed) :
    (m.pairs : List (PairCoupling R)) = m.pairCounts.map m.entry := by
  rw [pairs, ← List.filterMap_eq_map]
  refine List.filterMap_congr fun e he => ?_
  obtain ⟨⟨i, j⟩, n⟩ := e
  obtain ⟨hij, hj⟩ := h.key_lt _ he
  have hpair : ClassPair.of? (m.nameAt i) (m.nameAt j) = some ⟨m.nameAt i, m.nameAt j⟩ :=
    ClassPair.of?_eq_some_iff.mpr ⟨before_nameAt h hij hj, Or.inl ⟨rfl, rfl⟩⟩
  simp [class?_eq_nameAt (Nat.lt_trans hij hj), class?_eq_nameAt hj, hpair, entry]

theorem directedCounts_eq_map (h : m.Canonical) :
    m.directedCounts = m.callCounts.map fun e => (m.nameAt e.1.1, m.nameAt e.1.2, e.2) := by
  rw [directedCounts, ← List.filterMap_eq_map]
  refine List.filterMap_congr fun e he => ?_
  obtain ⟨⟨i, j⟩, n⟩ := e
  obtain ⟨-, hi, hj⟩ := h.call_lt _ he
  simp [class?_eq_nameAt hi, class?_eq_nameAt hj]

theorem length_pairs (h : m.WellFormed) :
    (m.pairs : List (PairCoupling R)).length = m.pairTotal := by
  rw [pairs_eq_map h, List.length_map, pairTotal]

theorem mem_pairs_of_mem_strongestPairs {n : Nat} {p : PairCoupling R}
    (hp : p ∈ m.strongestPairs n) : p ∈ m.pairs :=
  (sortBy_perm _ _).mem_iff.mp (List.mem_of_mem_take hp)

theorem nameAt_mem {i : Nat} (hi : i < m.classCount) : m.nameAt i ∈ m.classes :=
  List.mem_of_getElem? (class?_eq_nameAt hi)

theorem mem_classes_of_mem_pairs (h : m.WellFormed) {p : PairCoupling R} (hp : p ∈ m.pairs) :
    p.pair.first ∈ m.classes ∧ p.pair.second ∈ m.classes := by
  rw [pairs_eq_map h] at hp
  obtain ⟨e, he, rfl⟩ := List.mem_map.mp hp
  obtain ⟨hij, hj⟩ := h.key_lt e he
  exact ⟨nameAt_mem (hij.trans hj), nameAt_mem hj⟩

theorem mem_classes_of_mem_directedCounts (h : m.Canonical) {x y : String} {n : Nat}
    (hc : (x, y, n) ∈ m.directedCounts) : x ∈ m.classes ∧ y ∈ m.classes := by
  rw [directedCounts_eq_map h] at hc
  obtain ⟨e, he, hnames⟩ := List.mem_map.mp hc
  obtain ⟨-, hi, hj⟩ := h.call_lt e he
  cases hnames
  exact ⟨nameAt_mem hi, nameAt_mem hj⟩

theorem pairCount_nameAt (h : m.WellFormed) {e : IndexPair × Nat} (he : e ∈ m.pairCounts) :
    m.pairCount (m.nameAt e.1.1) (m.nameAt e.1.2) = e.2 := by
  obtain ⟨hij, hj⟩ := h.key_lt _ he
  obtain ⟨-, -, x, y, hx, hy, hn⟩ := (mem_pairCounts h).mp he
  rw [class?_eq_nameAt (Nat.lt_trans hij hj)] at hx
  rw [class?_eq_nameAt hj] at hy
  rwa [Option.some.inj hx, Option.some.inj hy]

theorem directedCount_nameAt (h : m.Canonical) {e : IndexPair × Nat} (he : e ∈ m.callCounts) :
    m.directedCount (m.nameAt e.1.1) (m.nameAt e.1.2) = e.2 := by
  obtain ⟨-, hi, hj⟩ := h.call_lt _ he
  obtain ⟨-, x, y, hx, hy, hn⟩ := (mem_callCounts h).mp he
  rw [class?_eq_nameAt hi] at hx
  rw [class?_eq_nameAt hj] at hy
  rwa [Option.some.inj hx, Option.some.inj hy]

/-- The pairs are those of two classes that were counted, each with its count and its share. -/
theorem mem_pairs (h : m.WellFormed) {p : PairCoupling R} : p ∈ m.pairs ↔
    Text.Before p.pair.first p.pair.second ∧ 0 < p.invocations ∧
      p.invocations = m.pairCount p.pair.first p.pair.second ∧
      p.weight = m.share p.invocations := by
  rw [pairs_eq_map h, List.mem_map]
  constructor
  · rintro ⟨e, he, rfl⟩
    obtain ⟨hij, hj⟩ := h.key_lt _ he
    exact ⟨before_nameAt h hij hj, h.count_pos _ he, (pairCount_nameAt h he).symm, rfl⟩
  · obtain ⟨⟨first, second⟩, n, w⟩ := p
    rintro ⟨hlt, hpos, hn, hw⟩
    dsimp only at hlt hpos hn hw
    obtain ⟨i, j, hi, hj, n', hmem⟩ := (pairCount_pos_iff h).mp (hn ▸ hpos)
    -- The greater name has the greater index, so the key of the pair is not turned round.
    have hij : i < j := by
      rcases Nat.lt_trichotomy i j with hlt' | rfl | hgt
      · exact hlt'
      · exact absurd rfl (HasPair.ne h ⟨n', hmem⟩)
      · have hback := before_nameAt h hgt (HasPair.lt h ⟨n', hmem⟩).1
        rw [nameAt, nameAt, hi, hj] at hback
        exact absurd hback (Std.Asymm.asymm _ _ hlt)
    rw [indexKey, if_pos (Nat.le_of_lt hij)] at hmem
    refine ⟨_, hmem, ?_⟩
    have hcount := pairCount_nameAt h hmem
    simp only [nameAt, hi, hj, Option.getD_some, ← hn] at hcount
    simp [entry, nameAt, hi, hj, hw, hcount]

theorem pairs_sorted (h : m.Canonical) : (m.pairs : List (PairCoupling R)).Pairwise fun p q =>
    Text.Before p.pair.first q.pair.first ∨
      p.pair.first = q.pair.first ∧ Text.Before p.pair.second q.pair.second := by
  rw [pairs_eq_map h.toWellFormed, List.pairwise_map]
  refine h.pairs_sorted.imp_of_mem fun {d e} hd he hlt => ?_
  obtain ⟨-, hd⟩ := h.key_lt _ hd
  obtain ⟨hlt', he⟩ := h.key_lt _ he
  simp only [IndexPair.compare, compareLex, compareOn, Ordering.then_eq_lt, compare_lt_iff_lt,
    compare_eq_iff_eq] at hlt
  rcases hlt with hfirst | ⟨hfirst, hsecond⟩
  · exact Or.inl (before_nameAt h.toWellFormed hfirst (Nat.lt_trans hlt' he))
  · exact Or.inr ⟨congrArg m.nameAt hfirst, before_nameAt h.toWellFormed hsecond he⟩

theorem weight_comm (m : Matrix) (x y : String) :
    (m.weight x y : Option R) = m.weight y x := by
  unfold weight
  cases m.indexOf? x <;> cases m.indexOf? y <;> simp [weightAt_comm]

theorem weightAt_eq_none (h : m.WellFormed) (hij : m.classCount ≤ i ∨ m.classCount ≤ j) :
    (m.weightAt i j : Option R) = none := by
  by_contra hne
  obtain ⟨x, hx⟩ := Option.ne_none_iff_exists'.mp hne
  obtain ⟨hi, hj⟩ := ((exists_weightAt_iff h).mp ⟨x, hx⟩).lt h
  omega

theorem weight_eq_some (h : m.WellFormed) {x y : String} {w : R} (hw : m.weight x y = some w) :
    w = m.share (m.pairCount x y) ∧
      ∃ i j, m.indexOf? x = some i ∧ m.indexOf? y = some j ∧ m.weightAt i j = some w := by
  constructor
  · rw [weight_eq_share h] at hw
    split at hw
    · cases hw
    · exact (Option.some.inj hw).symm
  · rw [weight] at hw
    obtain ⟨i, hi, hw⟩ := Option.bind_eq_some_iff.mp hw
    obtain ⟨j, hj, hw⟩ := Option.bind_eq_some_iff.mp hw
    exact ⟨i, j, hi, hj, hw⟩

/-- Every entry for two classes has their count and its share. -/
theorem entry_of_mem_pairs (h : m.WellFormed) {x y : String} {p : PairCoupling R}
    (hp : p ∈ m.pairs) (hxy : ClassPair.of? x y = some p.pair) :
    0 < m.pairCount x y ∧ p.invocations = m.pairCount x y ∧
      p.weight = m.share (m.pairCount x y) := by
  obtain ⟨-, hpos, hn, hw⟩ := (mem_pairs h).mp hp
  have hcount : m.pairCount x y = m.pairCount p.pair.first p.pair.second := by
    rcases (ClassPair.of?_eq_some_iff.mp hxy).2 with ⟨rfl, rfl⟩ | ⟨rfl, rfl⟩
    · rfl
    · exact m.pairCount_comm ..
  rw [hcount, ← hn]
  exact ⟨hpos, rfl, hw⟩

theorem exists_mem_pairs_iff (h : m.WellFormed) {x y : String} :
    (∃ p ∈ (m.pairs : List (PairCoupling R)), ClassPair.of? x y = some p.pair) ↔
      0 < m.pairCount x y := by
  constructor
  · rintro ⟨p, hp, hxy⟩
    exact (entry_of_mem_pairs h hp hxy).1
  · intro hpos
    rcases lt_trichotomy x y with hlt | rfl | hgt
    · have hbefore := Text.encode_lt_encode.mpr hlt
      exact ⟨⟨⟨x, y⟩, m.pairCount x y, m.share (m.pairCount x y)⟩,
        (mem_pairs h).mpr ⟨hbefore, hpos, rfl, rfl⟩,
        ClassPair.of?_eq_some_iff.mpr ⟨hbefore, Or.inl ⟨rfl, rfl⟩⟩⟩
    · rw [pairCount_self] at hpos
      exact absurd hpos (Nat.lt_irrefl 0)
    · have hbefore := Text.encode_lt_encode.mpr hgt
      rw [pairCount_comm] at hpos
      exact ⟨⟨⟨y, x⟩, m.pairCount y x, m.share (m.pairCount y x)⟩,
        (mem_pairs h).mpr ⟨hbefore, hpos, rfl, rfl⟩,
        ClassPair.of?_eq_some_iff.mpr ⟨hbefore, Or.inr ⟨rfl, rfl⟩⟩⟩

theorem countP_joins_eq_add (events : List Event) {x y : String} (hxy : x ≠ y) :
    events.countP (Event.joins x y) = events.count ⟨x, y⟩ + events.count ⟨y, x⟩ := by
  induction events with
  | nil => rfl
  | cons e events ih =>
    have hne : ¬ (e = ⟨x, y⟩ ∧ e = ⟨y, x⟩) := by
      rintro ⟨rfl, heq⟩
      exact hxy (Event.mk.inj heq).1
    rw [List.countP_cons, List.count_cons, List.count_cons, ih]
    simp only [Event.joins, Bool.or_eq_true, beq_iff_eq]
    split_ifs <;> first | omega | tauto

/-- The count of a pair is the sum of the counts in its two directions. -/
theorem pairCount_eq_add (events : List Event) {x y : String} (hxy : x ≠ y) :
    (ofEvents events).pairCount x y =
      (ofEvents events).directedCount x y + (ofEvents events).directedCount y x := by
  rw [pairCount_ofEvents, directedCount_ofEvents, directedCount_ofEvents, if_neg hxy,
    if_neg hxy, if_neg hxy.symm, countP_joins_eq_add events hxy]

theorem pairCount_pos_iff_directedCount (events : List Event) (x y : String) :
    0 < (ofEvents events).pairCount x y ↔ x ≠ y ∧
      0 < (ofEvents events).directedCount x y + (ofEvents events).directedCount y x := by
  by_cases hxy : x = y
  · subst hxy
    simp [pairCount_self]
  · rw [pairCount_eq_add events hxy]
    exact (and_iff_right hxy).symm

/-- The look-ups of a matrix by names, those by indexes and the list of its pairs say the same about
any two names, be they classes of the matrix or not. -/
theorem lookups_agree (events : List Event) :
    let m := ofEvents events
    let pairs : List (PairCoupling R) := m.pairs
    (∀ x y, (m.weight x y : Option R) = m.weight y x ∧ m.pairCount x y = m.pairCount y x ∧
      ((m.weight x y : Option R).isSome ↔ 0 < m.pairCount x y) ∧
      (0 < m.pairCount x y ↔ x ≠ y ∧ 0 < m.directedCount x y + m.directedCount y x) ∧
      (0 < m.pairCount x y ↔ ∃ p ∈ pairs, ClassPair.of? x y = some p.pair) ∧
      ∀ w : R, m.weight x y = some w →
        w = Scale.ofCount (m.pairCount x y) / Scale.ofCount (max m.total 1) ∧
        (∃ i j, m.indexOf? x = some i ∧ m.indexOf? y = some j ∧ m.weightAt i j = some w) ∧
        ∀ p ∈ pairs, ClassPair.of? x y = some p.pair →
          p.weight = w ∧ p.invocations = m.pairCount x y) ∧
    (∀ i j, m.classCount ≤ i ∨ m.classCount ≤ j → (m.weightAt i j : Option R) = none) ∧
    pairs.length = m.pairTotal ∧
    (pairs.Pairwise fun p q => Text.Before p.pair.first q.pair.first ∨
      p.pair.first = q.pair.first ∧ Text.Before p.pair.second q.pair.second) ∧
    ∀ p ∈ pairs, Text.Before p.pair.first p.pair.second := by
  intro m pairs
  have h : m.Canonical := ofEvents_canonical events
  have hwf := h.toWellFormed
  refine ⟨fun x y => ⟨m.weight_comm x y, m.pairCount_comm x y, weight_isSome_iff hwf x y,
    pairCount_pos_iff_directedCount events x y, (exists_mem_pairs_iff hwf).symm, ?_⟩,
    fun i j => weightAt_eq_none hwf, length_pairs hwf, pairs_sorted h,
    fun p hp => ((mem_pairs hwf).mp hp).1⟩
  intro w hw
  obtain ⟨hshare, hindexes⟩ := weight_eq_some hwf hw
  refine ⟨hshare, hindexes, fun p hp hxy => ?_⟩
  obtain ⟨-, hn, hweight⟩ := entry_of_mem_pairs hwf hp hxy
  exact ⟨hweight.trans hshare.symm, hn⟩

end Matrix

end Linkage
