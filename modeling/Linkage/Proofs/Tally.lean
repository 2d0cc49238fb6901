import Linkage.Proofs.Matrix
import Linkage.Tally

/-!
# What recording keeps true

A tally that has recorded any events numbers each class once, counts pairs of two numbered classes
only, and has counted every numbered class in some pair. Two classes at most are new with every
invocation, so there are at most twice as many as invocations.
-/

namespace Linkage

namespace Tally

/-- The look-up of numbers and the list of names say the same. -/
def Numbered (t : Tally) : Prop :=
  ∀ (name : String) (i : Nat), t.index[name]? = some i ↔ t.names[i]? = some name

/-- What holds of a tally after any number of events. -/
structure Consistent (t : Tally) : Prop where
  numbered : t.Numbered
  pair_lt : ∀ k ∈ t.pairCounts, k.1 < k.2 ∧ k.2 < t.names.size
  count_pos : ∀ (k : IndexPair) (n : Nat), t.pairCounts[k]? = some n → 0 < n
  covered : ∀ i < t.names.size, ∃ k ∈ t.pairCounts, k.1 = i ∨ k.2 = i
  size_le : t.names.size ≤ 2 * t.total

variable {t : Tally}

theorem intern_numbered (h : t.Numbered) (name : String) : (t.intern name).2.Numbered := by
  intro x i
  cases hname : t.index[name]? with
  | some j => simpa only [intern, hname] using h x i
  | none =>
    simp only [intern, hname, Std.TreeMap.getElem?_insert, Array.getElem?_push,
      Std.compare_eq_iff_eq]
    have hfresh : ∀ j, t.names[j]? ≠ some name := fun j hj => by
      rw [(h name j).mpr hj] at hname
      cases hname
    by_cases hx : name = x
    · subst hx
      by_cases hi : i = t.names.size
      · simp [hi]
      · simp [hi, hfresh i, Ne.symm hi]
    · by_cases hi : i = t.names.size
      · have hnone : t.names[t.names.size]? = none := Array.getElem?_eq_none (Nat.le_refl _)
        have hx' : t.index[x]? ≠ some t.names.size := fun he => by
          rw [(h x _).mp he] at hnone
          cases hnone
        simp [hx, hi, hx']
      · simp [hx, hi, h x i]

theorem intern_getElem? (h : t.Numbered) (name : String) :
    (t.intern name).2.names[(t.intern name).1]? = some name := by
  cases hname : t.index[name]? with
  | some j =>
    simp only [intern, hname]
    exact (h name j).mp hname
  | none => simp [intern, hname]

theorem intern_keeps (name : String) {i : Nat} {x : String} (h : t.names[i]? = some x) :
    (t.intern name).2.names[i]? = some x := by
  cases hname : t.index[name]? with
  | some j => simpa only [intern, hname] using h
  | none =>
    simp only [intern, hname, Array.getElem?_push]
    obtain ⟨hi, _⟩ := Array.getElem?_eq_some_iff.mp h
    rw [if_neg (Nat.ne_of_lt hi), h]

theorem intern_frame (t : Tally) (name : String) :
    (t.intern name).2.pairCounts = t.pairCounts ∧ (t.intern name).2.total = t.total := by
  cases hname : t.index[name]? with
  | some j => simp only [intern, hname, and_self]
  | none => simp only [intern, hname, and_self]

/-- At most one class is new, and then its number is the one given out. -/
theorem intern_size (t : Tally) (name : String) :
    t.names.size ≤ (t.intern name).2.names.size ∧
      (t.intern name).2.names.size ≤ t.names.size + 1 ∧
      ∀ i < (t.intern name).2.names.size, i < t.names.size ∨ i = (t.intern name).1 := by
  cases hname : t.index[name]? with
  | some j =>
    simp only [intern, hname]
    exact ⟨Nat.le_refl _, Nat.le_succ _, fun i hi => Or.inl hi⟩
  | none =>
    simp only [intern, hname, Array.size_push]
    exact ⟨Nat.le_succ _, Nat.le_refl _, fun i hi => Nat.lt_succ_iff_lt_or_eq.mp hi⟩

theorem empty_consistent : empty.Consistent where
  numbered name i := by simp [empty]
  pair_lt k hk := absurd hk Std.TreeMap.not_mem_emptyc
  count_pos k n hk := by simp [empty] at hk
  covered i hi := absurd hi (Nat.not_lt_zero i)
  size_le := Nat.zero_le _

theorem record_of_ne (t : Tally) {caller callee : String} (h : caller ≠ callee) :
    t.record caller callee =
      { ((t.intern caller).2.intern callee).2 with
        pairCounts := ((t.intern caller).2.intern callee).2.pairCounts.bump
          (indexKey (t.intern caller).1 ((t.intern caller).2.intern callee).1)
        callCounts := ((t.intern caller).2.intern callee).2.callCounts.bump
          ((t.intern caller).1, ((t.intern caller).2.intern callee).1)
        total := ((t.intern caller).2.intern callee).2.total + 1 } := by
  rw [record, if_neg h]

theorem record_numbers (h : t.Numbered) {caller callee : String} (hne : caller ≠ callee) :
    (t.intern caller).1 ≠ ((t.intern caller).2.intern callee).1 ∧
      (t.intern caller).1 < ((t.intern caller).2.intern callee).2.names.size ∧
      ((t.intern caller).2.intern callee).1 <
        ((t.intern caller).2.intern callee).2.names.size := by
  have hfirst := intern_keeps callee (intern_getElem? h caller)
  have hsecond := intern_getElem? (intern_numbered h caller) callee
  refine ⟨fun heq => ?_, (Array.getElem?_eq_some_iff.mp hfirst).1,
    (Array.getElem?_eq_some_iff.mp hsecond).1⟩
  rw [heq, hsecond] at hfirst
  exact hne (Option.some.inj hfirst).symm

/-- Counting a pair of numbered classes. Only these two may be new. -/
theorem bump_consistent {a b : Nat} (calls : Counts) (hnum : t.Numbered) (hab : a ≠ b)
    (ha : a < t.names.size) (hb : b < t.names.size)
    (hlt : ∀ k ∈ t.pairCounts, k.1 < k.2 ∧ k.2 < t.names.size)
    (hpos : ∀ (k : IndexPair) (n : Nat), t.pairCounts[k]? = some n → 0 < n)
    (hcovered : ∀ i < t.names.size,
      (a = i ∨ b = i) ∨ ∃ k ∈ t.pairCounts, k.1 = i ∨ k.2 = i)
    (hsize : t.names.size ≤ 2 * (t.total + 1)) :
    Consistent { t with
      pairCounts := t.pairCounts.bump (indexKey a b)
      callCounts := calls
      total := t.total + 1 } where
  numbered := hnum
  pair_lt k hk := by
    rcases (Counts.mem_bump _ _ _).mp hk with rfl | hk
    · refine ⟨indexKey_lt hab, ?_⟩
      rcases indexKey_cases a b with hkey | hkey <;> rw [hkey] <;> assumption
    · exact hlt k hk
  count_pos k n hk := by
    rw [Counts.getElem?_bump] at hk
    split at hk
    · rw [← Option.some.inj hk]
      exact Nat.succ_pos _
    · exact hpos k n hk
  covered i hi := by
    rcases hcovered i hi with hab | ⟨k, hk, hik⟩
    · exact ⟨_, (Counts.mem_bump _ _ _).mpr (Or.inl rfl), indexKey_covers.mpr hab⟩
    · exact ⟨k, (Counts.mem_bump _ _ _).mpr (Or.inr hk), hik⟩
  size_le := hsize

theorem record_consistent (h : t.Consistent) (caller callee : String) :
    (t.record caller callee).Consistent := by
  by_cases hself : caller = callee
  · rw [record, if_pos hself]
    exact ⟨h.numbered, h.pair_lt, h.count_pos, h.covered, h.size_le⟩
  obtain ⟨hab, ha, hb⟩ := record_numbers h.numbered hself
  have hnum := intern_numbered (intern_numbered h.numbered caller) callee
  obtain ⟨hpairs, htotal⟩ := intern_frame t caller
  obtain ⟨hpairs', htotal'⟩ := intern_frame (t.intern caller).2 callee
  obtain ⟨hge, hle, hnew⟩ := intern_size t caller
  obtain ⟨hge', hle', hnew'⟩ := intern_size (t.intern caller).2 callee
  rw [record_of_ne t hself]
  refine bump_consistent _ hnum hab ha hb ?_ ?_ ?_ ?_
  · rw [hpairs', hpairs]
    intro k hk
    obtain ⟨hlt, hlt'⟩ := h.pair_lt k hk
    exact ⟨hlt, Nat.lt_of_lt_of_le hlt' (Nat.le_trans hge hge')⟩
  · rw [hpairs', hpairs]
    exact h.count_pos
  · rw [hpairs', hpairs]
    intro i hi
    rcases hnew' i hi with hi | rfl
    · rcases hnew i hi with hi | rfl
      · exact Or.inr (h.covered i hi)
      · exact Or.inl (Or.inl rfl)
    · exact Or.inl (Or.inr rfl)
  · have hsize := h.size_le
    omega

theorem recordAll_consistent (h : t.Consistent) (events : List Event) :
    (t.recordAll events).Consistent := by
  induction events generalizing t with
  | nil => exact h
  | cons e events ih => exact ih (record_consistent h e.caller e.callee)

/-- The class of a number takes this place in ascending order. -/
def place (t : Tally) (i : Nat) : Nat := t.places.getD i 0

theorem names_inj (h : t.Numbered) {i j : Nat} {name : String} (hi : t.names[i]? = some name)
    (hj : t.names[j]? = some name) : i = j :=
  Option.some.inj (((h name i).mpr hi).symm.trans ((h name j).mpr hj))

theorem mem_classes (h : t.Numbered) {name : String} :
    name ∈ t.classes ↔ ∃ i : Nat, t.names[i]? = some name := by
  rw [classes, Std.TreeMap.mem_keys, ← Std.TreeMap.isSome_getElem?_iff_mem,
    Option.isSome_iff_exists]
  exact exists_congr fun i => h name i

theorem nodup_classes (t : Tally) : t.classes.Nodup := Std.TreeMap.nodup_keys

theorem nodup_names (h : t.Numbered) : t.names.toList.Nodup := by
  refine List.nodup_iff_getElem?_ne_getElem?.mpr fun i j hij hj heq => ?_
  rw [List.getElem?_eq_getElem hj] at heq
  simp only [Array.getElem?_toList] at heq
  exact Nat.ne_of_lt hij (names_inj h heq (Array.getElem?_eq_getElem hj))

theorem length_classes (h : t.Numbered) : t.classes.length = t.names.size := by
  refine ((List.perm_ext_iff_of_nodup (nodup_names h) t.nodup_classes).mpr
    fun name => ?_).length_eq.symm
  rw [mem_classes h, List.mem_iff_getElem?]
  simp only [Array.getElem?_toList]

theorem place_eq {i : Nat} {name : String} (hi : t.names[i]? = some name) :
    t.place i = t.classes.idxOf name := by
  rw [place, places, Array.getD_eq_getD_getElem?, Array.getElem?_map, hi]
  rfl

theorem place_lt (h : t.Numbered) {i : Nat} (hi : i < t.names.size) :
    t.place i < t.classes.length := by
  have hname := Array.getElem?_eq_getElem hi
  rw [place_eq hname]
  exact List.idxOf_lt_length_of_mem ((mem_classes h).mpr ⟨i, hname⟩)

theorem place_inj (h : t.Numbered) {i j : Nat} (hi : i < t.names.size) (hj : j < t.names.size)
    (heq : t.place i = t.place j) : i = j := by
  have hi := Array.getElem?_eq_getElem hi
  have hj := Array.getElem?_eq_getElem hj
  rw [place_eq hi, place_eq hj, List.idxOf_inj ((mem_classes h).mpr ⟨i, hi⟩)] at heq
  rw [← heq] at hj
  exact names_inj h hi hj

theorem place_surj (h : t.Numbered) {p : Nat} (hp : p < t.classes.length) :
    ∃ i < t.names.size, t.place i = p := by
  obtain ⟨i, hi⟩ := (mem_classes h).mp (List.getElem_mem hp)
  refine ⟨i, (Array.getElem?_eq_some_iff.mp hi).1, ?_⟩
  rw [place_eq hi]
  exact t.nodup_classes.idxOf_getElem p hp

/-- The places keep the pairs apart, for these cannot be each other's reverse: each has its lower
number first. -/
theorem indexKey_place_inj (h : t.Numbered) {k k' : IndexPair}
    (hk : k.1 < k.2 ∧ k.2 < t.names.size) (hk' : k'.1 < k'.2 ∧ k'.2 < t.names.size)
    (heq : indexKey (t.place k.1) (t.place k.2) = indexKey (t.place k'.1) (t.place k'.2)) :
    k = k' := by
  obtain ⟨hab, hb⟩ := hk
  obtain ⟨hcd, hd⟩ := hk'
  rcases indexKey_eq_iff.mp heq with ⟨hac, hbd⟩ | ⟨had, hbc⟩
  · exact Prod.ext (place_inj h (Nat.lt_trans hab hb) (Nat.lt_trans hcd hd) hac)
      (place_inj h hb hd hbd)
  · have had := place_inj h (Nat.lt_trans hab hb) hd had
    have hbc := place_inj h hb (Nat.lt_trans hcd hd) hbc
    omega

/-- The counts of the matrix are those of the tally, each under the places of its classes. -/
theorem mem_build_pairCounts (h : t.Consistent) {e : IndexPair × Nat} :
    e ∈ t.build.pairCounts ↔
      ∃ k : IndexPair, t.pairCounts[k]? = some e.2 ∧
        indexKey (t.place k.1) (t.place k.2) = e.1 :=
  Counts.mem_rekey fun k hk k' hk' heq =>
    indexKey_place_inj h.numbered (h.pair_lt k hk) (h.pair_lt k' hk') heq

theorem build_wellFormed (h : t.Consistent) : t.build.WellFormed where
  sorted := Std.TreeMap.ordered_keys
  keys_nodup := Counts.nodup_keys_toList _
  key_lt e he := by
    obtain ⟨k, hk, heq⟩ := (mem_build_pairCounts h).mp he
    obtain ⟨hlt, hlt'⟩ := h.pair_lt k (Std.TreeMap.mem_iff_isSome_getElem?.mpr (by rw [hk]; rfl))
    have hfirst := place_lt h.numbered (Nat.lt_trans hlt hlt')
    have hsecond := place_lt h.numbered hlt'
    have hne : t.place k.1 ≠ t.place k.2 := fun hp =>
      Nat.ne_of_lt hlt (place_inj h.numbered (Nat.lt_trans hlt hlt') hlt' hp)
    rw [← heq]
    refine ⟨indexKey_lt hne, ?_⟩
    rcases indexKey_cases (t.place k.1) (t.place k.2) with hkey | hkey <;> rw [hkey] <;> assumption
  count_pos e he := by
    obtain ⟨k, hk, -⟩ := (mem_build_pairCounts h).mp he
    exact h.count_pos k e.2 hk
  covered p hp := by
    obtain ⟨i, hi, rfl⟩ := place_surj h.numbered hp
    obtain ⟨k, hk, hik⟩ := h.covered i hi
    obtain ⟨n, hn⟩ := Option.isSome_iff_exists.mp (Std.TreeMap.mem_iff_isSome_getElem?.mp hk)
    refine ⟨(indexKey (t.place k.1) (t.place k.2), n),
      (mem_build_pairCounts h).mpr ⟨k, hn, rfl⟩, indexKey_covers.mpr ?_⟩
    exact hik.imp (congrArg t.place) (congrArg t.place)
  classCount_le := by
    have hlength : t.build.classCount = t.names.size := length_classes h.numbered
    rw [hlength]
    exact h.size_le

end Tally

/-- The matrix of any events is well-formed. -/
theorem Matrix.ofEvents_wellFormed (events : List Event) : (ofEvents events).WellFormed :=
  Tally.build_wellFormed (Tally.recordAll_consistent Tally.empty_consistent events)

end Linkage
