import Linkage.Cluster.Average
import Linkage.Proofs.Counts

/-!
# Well-formed matrices

What the counts and the classes of a matrix have to do with each other: the counts are those of
pairs of different classes, each pair has one count, and it is not zero. In a well-formed matrix the
name of a class and its index determine one another, and the search tree of the weights finds what
the list of counts says.
-/

namespace Linkage.Matrix
open Scale

/-- The counts fit the classes. -/
structure WellFormed (m : Matrix) : Prop where
  sorted : m.classes.Pairwise fun x y => compare x y = .lt
  keys_nodup : (m.pairCounts.map Prod.fst).Nodup
  key_lt : ∀ e ∈ m.pairCounts, e.1.1 < e.1.2 ∧ e.1.2 < m.classCount
  count_pos : ∀ e ∈ m.pairCounts, 0 < e.2
  covered : ∀ i < m.classCount, ∃ e ∈ m.pairCounts, e.1.1 = i ∨ e.1.2 = i
  classCount_le : m.classCount ≤ 2 * m.total

variable {m : Matrix} {R : Type} [Scale R]

theorem WellFormed.nodup (h : m.WellFormed) : m.classes.Nodup :=
  h.sorted.imp fun hlt heq => by
    rw [heq] at hlt
    exact Ordering.noConfusion (hlt.symm.trans Std.ReflCmp.compare_self)

theorem class?_isSome {i : Nat} (hi : i < m.classCount) : ∃ name, m.class? i = some name :=
  ⟨_, List.getElem?_eq_getElem hi⟩

theorem indexOf?_eq_some_iff (h : m.WellFormed) {name : String} {i : Nat} :
    m.indexOf? name = some i ↔ m.class? i = some name := by
  rw [indexOf?, List.idxOf?_eq_some_iff, class?, List.getElem?_eq_some_iff]
  constructor
  · intro hex
    obtain ⟨hi, heq, -⟩ := hex
    exact ⟨hi, heq⟩
  · intro hex
    obtain ⟨hi, rfl⟩ := hex
    refine ⟨hi, rfl, fun j hj heq => ?_⟩
    exact Nat.ne_of_lt hj ((List.Nodup.getElem_inj_iff h.nodup).mp heq)

theorem class?_inj (h : m.WellFormed) {i j : Nat} {name : String} (hi : m.class? i = some name)
    (hj : m.class? j = some name) : i = j :=
  Option.some.inj
    (((indexOf?_eq_some_iff h).mpr hi).symm.trans ((indexOf?_eq_some_iff h).mpr hj))

/-- The indexes of some classes are found again by their names. -/
theorem indexesOf_namesOf (h : m.WellFormed) {members : Group}
    (hm : ∀ i ∈ members, i < m.classCount) : m.indexesOf (m.namesOf members) = members := by
  induction members with
  | nil => rfl
  | cons i members ih =>
    have hrest := ih fun j hj => hm j (List.mem_cons_of_mem _ hj)
    obtain ⟨name, hname⟩ := class?_isSome (hm i (List.mem_cons_self ..))
    have hindex := (indexOf?_eq_some_iff h).mpr hname
    simp only [indexesOf, namesOf, List.filterMap_cons, hname, hindex] at hrest ⊢
    rw [hrest]

theorem namesOf_append (a b : Group) : m.namesOf (a ++ b) = m.namesOf a ++ m.namesOf b :=
  List.filterMap_append ..

theorem length_namesOf {members : Group} (hm : ∀ i ∈ members, i < m.classCount) :
    (m.namesOf members).length = members.length := by
  rw [namesOf, List.length_filterMap_eq_countP, List.countP_eq_length]
  intro i hi
  obtain ⟨name, hname⟩ := class?_isSome (hm i hi)
  rw [hname, Option.isSome_some]

theorem map_class?_range (m : Matrix) :
    (List.range m.classCount).map m.class? = m.classes.map some := by
  refine List.ext_getElem? fun i => ?_
  by_cases hi : i < m.classCount
  · obtain ⟨name, hname⟩ := class?_isSome hi
    simp only [List.getElem?_map, List.getElem?_range hi, Option.map_some, hname]
    exact (congrArg (Option.map some) hname).symm
  · have hlength : m.classes.length ≤ i := Nat.le_of_not_lt hi
    rw [List.getElem?_eq_none (by rwa [List.length_map, List.length_range]),
      List.getElem?_eq_none (by rwa [List.length_map])]

theorem namesOf_range (m : Matrix) : m.namesOf (List.range m.classCount) = m.classes := by
  calc m.namesOf (List.range m.classCount)
      = ((List.range m.classCount).map m.class?).filterMap id := by rw [List.filterMap_map]; rfl
    _ = (m.classes.map some).filterMap id := by rw [map_class?_range]
    _ = m.classes := by rw [List.filterMap_map]; exact List.filterMap_some

theorem mem_namesOf {members : Group} {name : String} :
    name ∈ m.namesOf members ↔ ∃ i ∈ members, m.class? i = some name :=
  List.mem_filterMap

theorem namesOf_subset (m : Matrix) (members : Group) : m.namesOf members ⊆ m.classes := by
  intro name hname
  obtain ⟨i, -, hi⟩ := mem_namesOf.mp hname
  exact List.mem_of_getElem? hi

theorem nodup_namesOf (h : m.WellFormed) {members : Group} (hm : members.Nodup) :
    (m.namesOf members).Nodup :=
  hm.filterMap fun _ _ _ hi hj => class?_inj h hi hj

/-- Two classes, by their indexes, have invoked one another. -/
def HasPair (m : Matrix) (i j : Nat) : Prop := ∃ n, (indexKey i j, n) ∈ m.pairCounts

theorem HasPair.symm {i j : Nat} (hp : m.HasPair i j) : m.HasPair j i := by
  rwa [HasPair, indexKey_comm]

theorem HasPair.ne (h : m.WellFormed) {i j : Nat} (hp : m.HasPair i j) : i ≠ j := by
  rintro rfl
  obtain ⟨n, hn⟩ := hp
  have hlt := (h.key_lt _ hn).1
  rcases indexKey_cases i i with hkey | hkey <;> rw [hkey] at hlt <;> exact Nat.lt_irrefl _ hlt

theorem HasPair.lt (h : m.WellFormed) {i j : Nat} (hp : m.HasPair i j) :
    i < m.classCount ∧ j < m.classCount := by
  obtain ⟨n, hn⟩ := hp
  obtain ⟨hlt, hlt'⟩ := h.key_lt _ hn
  rcases indexKey_cases i j with hkey | hkey <;> rw [hkey] at hlt hlt' <;> simp only at hlt hlt' <;>
    omega

/-- Every class has a recorded pair with another one. -/
theorem WellFormed.exists_hasPair (h : m.WellFormed) {i : Nat} (hi : i < m.classCount) :
    ∃ j, m.HasPair i j := by
  obtain ⟨⟨⟨a, b⟩, n⟩, he, hab⟩ := h.covered i hi
  have hkey : indexKey a b = (a, b) := if_pos (Nat.le_of_lt (h.key_lt _ he).1)
  have hpair : m.HasPair a b := ⟨n, by rwa [hkey]⟩
  rcases hab with rfl | rfl
  · exact ⟨b, hpair⟩
  · exact ⟨a, hpair.symm⟩

theorem pairCount_comm (m : Matrix) (x y : String) : m.pairCount x y = m.pairCount y x := by
  unfold pairCount
  cases m.indexOf? x <;> cases m.indexOf? y <;> simp only [indexKey_comm, eq_comm]

theorem pairCount_self (m : Matrix) (x : String) : m.pairCount x x = 0 := by
  unfold pairCount
  cases m.indexOf? x <;> simp

theorem pairCount_pos_iff (h : m.WellFormed) {x y : String} :
    0 < m.pairCount x y ↔
      ∃ i j, m.class? i = some x ∧ m.class? j = some y ∧ m.HasPair i j := by
  simp only [← indexOf?_eq_some_iff h]
  unfold pairCount
  split
  · rename_i i j hi hj
    simp only [hi, hj, Option.some.injEq, exists_and_left, exists_eq_left']
    split
    · rename_i heq
      exact iff_of_false (Nat.lt_irrefl 0) fun hp => hp.ne h heq
    · cases hn : m.pairCounts.lookup (indexKey i j) with
      | some n =>
        have hn := (lookup_eq_some_iff_mem h.keys_nodup _ _).mp hn
        exact iff_of_true (h.count_pos _ hn) ⟨n, hn⟩
      | none =>
        refine iff_of_false (Nat.lt_irrefl 0) fun ⟨n, hn'⟩ => ?_
        rw [(lookup_eq_some_iff_mem h.keys_nodup _ _).mpr hn'] at hn
        cases hn
  · rename_i hnone
    refine iff_of_false (Nat.lt_irrefl 0) ?_
    intro hex
    obtain ⟨i, j, hi, hj, -⟩ := hex
    exact hnone i j hi hj

theorem weightAt_comm (m : Matrix) (i j : Nat) : (m.weightAt i j : Option R) = m.weightAt j i := by
  unfold weightAt
  rw [indexKey_comm]
  simp only [eq_comm]

theorem weightAt_eq_some (h : m.WellFormed) {i j : Nat} {x : R} :
    m.weightAt i j = some x ↔ ∃ n, (indexKey i j, n) ∈ m.pairCounts ∧ m.share n = x := by
  unfold weightAt
  split
  · rename_i heq
    exact iff_of_false nofun fun ⟨n, hn, _⟩ => HasPair.ne h ⟨n, hn⟩ heq
  · rw [Option.map_eq_some_iff]
    simp only [lookup_eq_some_iff_mem h.keys_nodup]

theorem exists_weightAt_iff (h : m.WellFormed) {i j : Nat} :
    (∃ x : R, m.weightAt i j = some x) ↔ m.HasPair i j := by
  simp only [weightAt_eq_some h]
  exact ⟨fun ⟨_, n, hn, _⟩ => ⟨n, hn⟩, fun ⟨n, hn⟩ => ⟨_, n, hn, rfl⟩⟩

/-- The search tree of the weights holds what the list of counts says. -/
theorem weightTable_get (h : m.WellFormed) :
    (m.weightTable : WeightTable R).get = m.weightAt := by
  funext a b
  unfold WeightTable.get weightAt
  split
  · rfl
  · have hkeys : ((m.pairCounts.map fun e => (e.1, (m.share e.2 : R))).map Prod.fst).Nodup := by
      rw [List.map_map]
      exact h.keys_nodup
    exact (getElem?_ofList hkeys _).trans (lookup_map_snd ..)

end Linkage.Matrix
