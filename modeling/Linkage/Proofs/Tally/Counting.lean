import Linkage.Proofs.Tally
import Mathlib.Data.List.Count

/-!
# What a tally has counted

By the names of the classes a tally is a pair of tables: how often one class invoked another, and
how often two classes invoked each other. Numbering a new class changes neither table, and recording
an event adds one at its place and nothing elsewhere. So the tables hold the numbers of the events
that were recorded, in whatever order they came.
-/

namespace Linkage

theorem Counts.get_eq_zero {counts : Counts} {k : IndexPair} (h : k ∉ counts) :
    counts.get k = 0 := by
  rw [get, Std.TreeMap.getD_eq_getD_getElem?, Std.TreeMap.getElem?_eq_none h, Option.getD_none]

theorem Counts.get_bump (counts : Counts) (k k' : IndexPair) :
    (counts.bump k).get k' = counts.get k' + if k = k' then 1 else 0 := by
  have hget (table : Counts) (k : IndexPair) : table.get k = table[k]?.getD 0 :=
    Std.TreeMap.getD_eq_getD_getElem?
  rw [hget, getElem?_bump]
  by_cases hk : k = k'
  · simp [hk]
  · simp [hk, hget]

/-- The event is an invocation between the two classes, in either direction. -/
def Event.joins (x y : String) (e : Event) : Bool := e == ⟨x, y⟩ || e == ⟨y, x⟩

/-- The event has the class at one of its ends. -/
def Event.Involves (name : String) (e : Event) : Prop := e.caller = name ∨ e.callee = name

namespace Tally

variable {t : Tally} {x y name : String}

/-- What is counted under the numbers of two classes. -/
def countAt (t : Tally) (counts : Counts) (key : Nat → Nat → IndexPair) (x y : String) : Nat :=
  match t.index[x]?, t.index[y]? with
  | some i, some j => counts.get (key i j)
  | _, _ => 0

/-- The invocations of `y` from `x`. -/
def callsFrom (t : Tally) (x y : String) : Nat := t.countAt t.callCounts Prod.mk x y

/-- The invocations between `x` and `y`. -/
def callsBetween (t : Tally) (x y : String) : Nat := t.countAt t.pairCounts indexKey x y

/-- Only numbered classes are counted, none with itself, and no count is zero. -/
structure CallsConsistent (t : Tally) : Prop where
  call_lt : ∀ k ∈ t.callCounts, k.1 ≠ k.2 ∧ k.1 < t.names.size ∧ k.2 < t.names.size
  call_pos : ∀ (k : IndexPair) (n : Nat), t.callCounts[k]? = some n → 0 < n

theorem empty_callsConsistent : empty.CallsConsistent where
  call_lt k hk := absurd hk Std.TreeMap.not_mem_emptyc
  call_pos k n hk := by simp [empty] at hk

theorem intern_callCounts (t : Tally) (name : String) :
    (t.intern name).2.callCounts = t.callCounts := by
  cases hname : t.index[name]? with
  | some i => simp only [intern, hname]
  | none => simp only [intern, hname]

theorem intern_selfTotal (t : Tally) (name : String) :
    (t.intern name).2.selfTotal = t.selfTotal := by
  cases hname : t.index[name]? with
  | some i => simp only [intern, hname]
  | none => simp only [intern, hname]

theorem mem_intern (h : t.Numbered) (name x : String) :
    x ∈ (t.intern name).2.names ↔ x ∈ t.names ∨ x = name := by
  cases hname : t.index[name]? with
  | some i =>
    have hmem : name ∈ t.names := Array.mem_of_getElem? ((h name i).mp hname)
    simp only [intern, hname]
    constructor
    · exact Or.inl
    · intro hx
      rcases hx with hx | rfl
      · exact hx
      · exact hmem
  | none => simp only [intern, hname, Array.mem_push]

/-- A class that is new has no counts yet. -/
theorem intern_countAt {counts : Counts} {key : Nat → Nat → IndexPair}
    (hcounts : ∀ k ∈ counts, k.1 < t.names.size ∧ k.2 < t.names.size)
    (hkey : ∀ i j, key i j = (i, j) ∨ key i j = (j, i)) (name x y : String) :
    (t.intern name).2.countAt counts key x y = t.countAt counts key x y := by
  have hfresh : ∀ i j, i = t.names.size ∨ j = t.names.size → counts.get (key i j) = 0 := by
    intro i j hij
    refine Counts.get_eq_zero fun hmem => ?_
    have hlt := hcounts _ hmem
    rcases hkey i j with hk | hk <;> rw [hk] at hlt <;> simp only at hlt <;> omega
  cases hname : t.index[name]? with
  | some i => simp only [intern, hname]
  | none =>
    simp only [intern, hname, countAt, Std.TreeMap.getElem?_insert, Std.compare_eq_iff_eq]
    by_cases hx : name = x
    · subst hx
      simp only [↓reduceIte, hname]
      split
      · rename_i i j hi _
        exact hfresh i j (Or.inl (Option.some.inj hi).symm)
      · rfl
    · by_cases hy : name = y
      · subst hy
        simp only [↓reduceIte, if_neg hx, hname]
        cases t.index[x]? with
        | none => rfl
        | some i => exact hfresh i _ (Or.inr rfl)
      · simp only [if_neg hx, if_neg hy]

/-- One more under a key counts for those two classes whose numbers make the key. -/
theorem countAt_bump (t : Tally) (counts : Counts) (key : Nat → Nat → IndexPair) {k : IndexPair}
    {p : Prop} [Decidable p]
    (hp : p ↔ ∃ i j, t.index[x]? = some i ∧ t.index[y]? = some j ∧ k = key i j) :
    t.countAt (counts.bump k) key x y = t.countAt counts key x y + if p then 1 else 0 := by
  unfold countAt
  cases hx : t.index[x]? with
  | none =>
    have hnot : ¬ p := by simp [hp, hx]
    simp [hnot]
  | some i =>
    cases hy : t.index[y]? with
    | none =>
      have hnot : ¬ p := by simp [hp, hy]
      simp [hnot]
    | some j =>
      have hiff : p ↔ k = key i j := by simp [hp, hx, hy]
      simp [Counts.get_bump, hiff]

theorem index_inj (h : t.Numbered) {i : Nat} (hx : t.index[x]? = some i)
    (hy : t.index[y]? = some i) : x = y :=
  Option.some.inj (((h x i).mp hx).symm.trans ((h y i).mp hy))

theorem numbers_iff (h : t.Numbered) {a b : String} {i j : Nat} (ha : t.index[a]? = some i)
    (hb : t.index[b]? = some j) :
    (a = x ∧ b = y) ↔ t.index[x]? = some i ∧ t.index[y]? = some j := by
  constructor
  · rintro ⟨rfl, rfl⟩
    exact ⟨ha, hb⟩
  · rintro ⟨hx, hy⟩
    exact ⟨index_inj h ha hx, index_inj h hb hy⟩

section record

variable {caller callee : String}

theorem record_index (h : t.Numbered) (caller callee : String) :
    ((t.intern caller).2.intern callee).2.index[caller]? = some (t.intern caller).1 ∧
      ((t.intern caller).2.intern callee).2.index[callee]? =
        some ((t.intern caller).2.intern callee).1 := by
  have hnum := intern_numbered h caller
  have hnum' := intern_numbered hnum callee
  exact ⟨(hnum' _ _).mpr (intern_keeps callee (intern_getElem? h caller)),
    (hnum' _ _).mpr (intern_getElem? hnum callee)⟩

theorem intern_intern_countAt {counts : Counts} {key : Nat → Nat → IndexPair}
    (hcounts : ∀ k ∈ counts, k.1 < t.names.size ∧ k.2 < t.names.size)
    (hkey : ∀ i j, key i j = (i, j) ∨ key i j = (j, i)) (caller callee x y : String) :
    ((t.intern caller).2.intern callee).2.countAt counts key x y = t.countAt counts key x y := by
  have hsize := (intern_size t caller).1
  rw [intern_countAt (fun k hk => ?_) hkey, intern_countAt hcounts hkey]
  exact ⟨Nat.lt_of_lt_of_le (hcounts k hk).1 hsize, Nat.lt_of_lt_of_le (hcounts k hk).2 hsize⟩

theorem record_callsFrom (h : t.Consistent) (hc : t.CallsConsistent) (hne : caller ≠ callee)
    (x y : String) : (t.record caller callee).callsFrom x y =
      t.callsFrom x y + if caller = x ∧ callee = y then 1 else 0 := by
  have hnum := intern_numbered (intern_numbered h.numbered caller) callee
  obtain ⟨ha, hb⟩ := record_index h.numbered caller callee
  have hp : (caller = x ∧ callee = y) ↔ ∃ i j,
      ((t.intern caller).2.intern callee).2.index[x]? = some i ∧
      ((t.intern caller).2.intern callee).2.index[y]? = some j ∧
      ((t.intern caller).1, ((t.intern caller).2.intern callee).1) = (i, j) := by
    rw [numbers_iff hnum ha hb]
    simp
  have hbump := countAt_bump _ t.callCounts Prod.mk hp
  have hlt : ∀ k ∈ t.callCounts, k.1 < t.names.size ∧ k.2 < t.names.size :=
    fun k hk => (hc.call_lt k hk).2
  rw [intern_intern_countAt hlt fun _ _ => Or.inl rfl] at hbump
  rw [record_of_ne t hne, intern_callCounts, intern_callCounts]
  exact hbump

theorem record_callsBetween (h : t.Consistent) (hne : caller ≠ callee) (x y : String) :
    (t.record caller callee).callsBetween x y = t.callsBetween x y +
      if (caller = x ∧ callee = y) ∨ (caller = y ∧ callee = x) then 1 else 0 := by
  have hnum := intern_numbered (intern_numbered h.numbered caller) callee
  obtain ⟨ha, hb⟩ := record_index h.numbered caller callee
  have hp : ((caller = x ∧ callee = y) ∨ (caller = y ∧ callee = x)) ↔ ∃ i j,
      ((t.intern caller).2.intern callee).2.index[x]? = some i ∧
      ((t.intern caller).2.intern callee).2.index[y]? = some j ∧
      indexKey (t.intern caller).1 ((t.intern caller).2.intern callee).1 = indexKey i j := by
    simp only [numbers_iff hnum ha hb, indexKey_eq_iff]
    constructor
    · rintro (⟨hx, hy⟩ | ⟨hy, hx⟩)
      · exact ⟨_, _, hx, hy, Or.inl ⟨rfl, rfl⟩⟩
      · exact ⟨_, _, hx, hy, Or.inr ⟨rfl, rfl⟩⟩
    · rintro ⟨i, j, hx, hy, ⟨rfl, rfl⟩ | ⟨rfl, rfl⟩⟩
      · exact Or.inl ⟨hx, hy⟩
      · exact Or.inr ⟨hy, hx⟩
  have hbump := countAt_bump _ t.pairCounts indexKey hp
  have hlt : ∀ k ∈ t.pairCounts, k.1 < t.names.size ∧ k.2 < t.names.size :=
    fun k hk => ⟨Nat.lt_trans (h.pair_lt k hk).1 (h.pair_lt k hk).2, (h.pair_lt k hk).2⟩
  rw [intern_intern_countAt hlt indexKey_cases] at hbump
  rw [record_of_ne t hne, (intern_frame _ callee).1, (intern_frame t caller).1]
  exact hbump

theorem record_callsConsistent (h : t.Numbered) (hc : t.CallsConsistent)
    (caller callee : String) : (t.record caller callee).CallsConsistent := by
  by_cases hself : caller = callee
  · rw [record, if_pos hself]
    exact ⟨hc.call_lt, hc.call_pos⟩
  obtain ⟨hab, ha, hb⟩ := record_numbers h hself
  have hsize := Nat.le_trans (intern_size t caller).1 (intern_size (t.intern caller).2 callee).1
  rw [record_of_ne t hself, intern_callCounts, intern_callCounts]
  constructor
  · intro k hk
    rcases (Counts.mem_bump _ _ _).mp hk with rfl | hk
    · exact ⟨hab, ha, hb⟩
    · obtain ⟨hne, hlt, hlt'⟩ := hc.call_lt k hk
      exact ⟨hne, Nat.lt_of_lt_of_le hlt hsize, Nat.lt_of_lt_of_le hlt' hsize⟩
  · intro k n hk
    rw [Counts.getElem?_bump] at hk
    split at hk
    · rw [← Option.some.inj hk]
      exact Nat.succ_pos _
    · exact hc.call_pos k n hk

theorem mem_names_record (h : t.Numbered) (hne : caller ≠ callee) (name : String) :
    name ∈ (t.record caller callee).names ↔ name ∈ t.names ∨ caller = name ∨ callee = name := by
  rw [record_of_ne t hne]
  simp only [mem_intern (intern_numbered h caller), mem_intern h, or_assoc, eq_comm]

end record

/-! ### Any number of events -/

theorem recordEvent_callsFrom (h : t.Consistent) (hc : t.CallsConsistent) (hxy : x ≠ y)
    (e : Event) : (t.recordEvent e).callsFrom x y =
      t.callsFrom x y + if e = ⟨x, y⟩ then 1 else 0 := by
  obtain ⟨caller, callee⟩ := e
  simp only [recordEvent, Event.mk.injEq]
  by_cases hself : caller = callee
  · -- A self-invocation changes no table, and it is none of the invocations that are asked for.
    have hnot : ¬ (caller = x ∧ callee = y) := fun ⟨hx, hy⟩ => hxy (hx ▸ hy ▸ hself)
    rw [if_neg hnot, record, if_pos hself]
    rfl
  · exact record_callsFrom h hc hself x y

theorem recordEvent_callsBetween (h : t.Consistent) (hxy : x ≠ y) (e : Event) :
    (t.recordEvent e).callsBetween x y =
      t.callsBetween x y + if e.joins x y then 1 else 0 := by
  obtain ⟨caller, callee⟩ := e
  simp only [recordEvent, Event.joins, Bool.or_eq_true, beq_iff_eq, Event.mk.injEq]
  by_cases hself : caller = callee
  · have hnot : ¬ ((caller = x ∧ callee = y) ∨ (caller = y ∧ callee = x)) := by
      subst hself
      rintro (⟨rfl, rfl⟩ | ⟨rfl, rfl⟩) <;> exact hxy rfl
    rw [if_neg hnot, record, if_pos hself]
    rfl
  · exact record_callsBetween h hself x y

theorem recordAll_callsConsistent (h : t.Consistent) (hc : t.CallsConsistent)
    (events : List Event) : (t.recordAll events).CallsConsistent := by
  induction events generalizing t with
  | nil => exact hc
  | cons e events ih =>
    exact ih (record_consistent h _ _) (record_callsConsistent h.numbered hc _ _)

theorem recordAll_callsFrom (h : t.Consistent) (hc : t.CallsConsistent) (hxy : x ≠ y)
    (events : List Event) :
    (t.recordAll events).callsFrom x y = t.callsFrom x y + events.count ⟨x, y⟩ := by
  induction events generalizing t with
  | nil => rfl
  | cons e events ih =>
    have hrest := ih (record_consistent h e.caller e.callee)
      (record_callsConsistent h.numbered hc e.caller e.callee)
    have hstep := recordEvent_callsFrom h hc hxy e
    rw [recordAll, List.foldl_cons, List.count_cons]
    simp only [recordAll, recordEvent, beq_iff_eq] at hrest hstep ⊢
    omega

theorem recordAll_callsBetween (h : t.Consistent) (hxy : x ≠ y) (events : List Event) :
    (t.recordAll events).callsBetween x y =
      t.callsBetween x y + events.countP (Event.joins x y) := by
  induction events generalizing t with
  | nil => rfl
  | cons e events ih =>
    have hrest := ih (record_consistent h e.caller e.callee)
    have hstep := recordEvent_callsBetween h hxy e
    rw [recordAll, List.foldl_cons, List.countP_cons]
    simp only [recordAll, recordEvent] at hrest hstep ⊢
    omega

theorem mem_names_recordAll (h : t.Consistent) (name : String) (events : List Event) :
    name ∈ (t.recordAll events).names ↔
      name ∈ t.names ∨ ∃ e ∈ events, e.caller ≠ e.callee ∧ e.Involves name := by
  induction events generalizing t with
  | nil => simp [recordAll]
  | cons e events ih =>
    rw [recordAll, List.foldl_cons]
    refine (ih (record_consistent h e.caller e.callee)).trans ?_
    rw [List.exists_mem_cons_iff, ← or_assoc]
    refine or_congr_left ?_
    by_cases hself : e.caller = e.callee
    · simp [record, hself]
    · rw [mem_names_record h.numbered hself]
      simp [hself, Event.Involves]

/-- Every event is counted once, among the invocations of other classes or among the others. -/
theorem recordAll_totals (t : Tally) (events : List Event) :
    (t.recordAll events).total = t.total + events.countP (fun e => !e.isSelf) ∧
      (t.recordAll events).selfTotal = t.selfTotal + events.countP Event.isSelf := by
  induction events generalizing t with
  | nil => exact ⟨rfl, rfl⟩
  | cons e events ih =>
    obtain ⟨htotal, hself⟩ := ih (t.recordEvent e)
    rw [recordAll, List.foldl_cons, List.countP_cons, List.countP_cons]
    simp only [recordAll] at htotal hself ⊢
    rw [htotal, hself]
    by_cases h : e.caller = e.callee
    · simp [recordEvent, record, Event.isSelf, h]
      omega
    · rw [recordEvent, record_of_ne t h]
      simp only [(intern_frame _ e.callee).2, (intern_frame t e.caller).2, intern_selfTotal,
        Event.isSelf, beq_eq_false_iff_ne.mpr h, Bool.not_false, ↓reduceIte]
      simp
      omega

theorem selfTotal_recordAll (events : List Event) :
    (empty.recordAll events).selfTotal = events.countP Event.isSelf :=
  (recordAll_totals empty events).2.trans (Nat.zero_add _)

end Tally

end Linkage
