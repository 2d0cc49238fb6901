import Linkage.Proofs.Tally.Build
import Mathlib.Data.Sym.Sym2

/-!
# The matrix of some events

What the matrix of a list of events says: which classes take part in invocations of other classes,
and how often each two of them invoke one another. Only these invocations matter, in any order, and
their direction shows only in the counts of calls.
-/

namespace Linkage

namespace Event

/-- The same invocation in the other direction. -/
def swap (e : Event) : Event := ⟨e.callee, e.caller⟩

/-- The classes at the two ends. -/
def ends (e : Event) : Sym2 String := s(e.caller, e.callee)

theorem joins_iff (x y : String) (e : Event) : e.joins x y ↔ e.ends = s(x, y) := by
  obtain ⟨caller, callee⟩ := e
  simp [joins, ends]

theorem not_self_of_joins {x y : String} {e : Event} (hxy : x ≠ y) (he : e.joins x y) :
    e.isSelf = false := by
  simp only [joins, Bool.or_eq_true, beq_iff_eq] at he
  rcases he with rfl | rfl
  · exact beq_eq_false_iff_ne.mpr hxy
  · exact beq_eq_false_iff_ne.mpr hxy.symm

theorem countP_joins (x y : String) (events : List Event) :
    events.countP (joins x y) = (events.map ends).count s(x, y) := by
  rw [List.count_eq_countP, List.countP_map]
  exact List.countP_congr fun e _ => by simp [joins_iff]

/-- Swapping some events keeps the ends of all. -/
theorem map_ends_eq_of_swaps {events events' : List Event}
    (h : List.Forall₂ (fun e e' => e' = e ∨ e' = e.swap) events events') :
    events'.map ends = events.map ends := by
  induction h with
  | nil => rfl
  | cons hstep _ ih =>
    rw [List.map_cons, List.map_cons, ih]
    rcases hstep with rfl | rfl
    · rfl
    · exact congrArg (· :: _) Sym2.eq_swap

end Event

namespace Matrix

variable {events events' : List Event} {x y : String}

theorem ofEvents_canonical (events : List Event) : (ofEvents events).Canonical :=
  Tally.build_canonical (Tally.recordAll_consistent Tally.empty_consistent events)
    (Tally.recordAll_callsConsistent Tally.empty_consistent Tally.empty_callsConsistent events)

theorem mem_classes_ofEvents (name : String) : name ∈ (ofEvents events).classes ↔
    ∃ e ∈ events, e.caller ≠ e.callee ∧ e.Involves name := by
  have h := Tally.recordAll_consistent Tally.empty_consistent events
  rw [ofEvents, Tally.mem_build_classes h.numbered,
    Tally.mem_names_recordAll Tally.empty_consistent]
  simp [Tally.empty]

theorem directedCount_ofEvents (events : List Event) (x y : String) :
    (ofEvents events).directedCount x y = if x = y then 0 else events.count ⟨x, y⟩ := by
  have h := Tally.recordAll_consistent Tally.empty_consistent events
  have hc := Tally.recordAll_callsConsistent Tally.empty_consistent Tally.empty_callsConsistent
    events
  split
  · rename_i hxy
    rw [hxy]
    exact Tally.build_directedCount_self h hc y
  · rename_i hxy
    rw [ofEvents, Tally.build_directedCount h hc,
      Tally.recordAll_callsFrom Tally.empty_consistent Tally.empty_callsConsistent hxy]
    simp [Tally.callsFrom, Tally.countAt, Tally.empty]

theorem pairCount_ofEvents (events : List Event) (x y : String) :
    (ofEvents events).pairCount x y = if x = y then 0 else events.countP (Event.joins x y) := by
  split
  · rename_i hxy
    rw [hxy, pairCount_self]
  · rename_i hxy
    rw [ofEvents, Tally.build_pairCount (Tally.recordAll_consistent Tally.empty_consistent events)
      hxy, Tally.recordAll_callsBetween Tally.empty_consistent hxy]
    simp [Tally.callsBetween, Tally.countAt, Tally.empty]

theorem total_ofEvents (events : List Event) :
    (ofEvents events).total = events.countP fun e => !e.isSelf := by
  have htotal := (Tally.recordAll_totals Tally.empty events).1
  rw [Tally.empty, Nat.zero_add] at htotal
  exact htotal

theorem total_eq_countP_ends (events : List Event) :
    (ofEvents events).total = (events.map Event.ends).countP fun e => ¬ e.IsDiag := by
  rw [total_ofEvents, List.countP_map]
  exact List.countP_congr fun e _ => by simp [Event.isSelf, Event.ends]

theorem pairCounts_le_total (events : List Event) :
    ∀ e ∈ (ofEvents events).pairCounts, e.2 ≤ (ofEvents events).total := by
  rintro ⟨⟨i, j⟩, n⟩ he
  obtain ⟨-, hpos, x, y, -, -, rfl⟩ := (mem_pairCounts (ofEvents_wellFormed events)).mp he
  have hxy : x ≠ y := by
    rintro rfl
    rw [pairCount_self] at hpos
    exact Nat.lt_irrefl 0 hpos
  simp only [pairCount_ofEvents, if_neg hxy, total_ofEvents]
  refine List.countP_mono_left fun e _ hjoins => ?_
  rw [Event.not_self_of_joins hxy hjoins, Bool.not_false]

/-- The invocations of other classes. -/
def crossing (events : List Event) : List Event := events.filter fun e => !e.isSelf

theorem countP_crossing (events : List Event) {p : Event → Bool}
    (hp : ∀ e, p e → e.isSelf = false) : (crossing events).countP p = events.countP p := by
  rw [crossing, List.countP_filter]
  refine List.countP_congr fun e _ => ?_
  simp only [Bool.and_eq_true, Bool.not_eq_true', and_iff_left_iff_imp]
  exact hp e

/-- Only the invocations of other classes matter, in any order. -/
theorem ofEvents_eq_of_crossing_perm (h : (crossing events).Perm (crossing events')) :
    ofEvents events = ofEvents events' := by
  have hcount {p : Event → Bool} (hp : ∀ e, p e → e.isSelf = false) :
      events.countP p = events'.countP p := by
    rw [← countP_crossing events hp, ← countP_crossing events' hp, h.countP_eq]
  have hself {e : Event} : e.caller ≠ e.callee ↔ e.isSelf = false := by simp [Event.isSelf]
  refine eq_of_counts (ofEvents_canonical events) (ofEvents_canonical events') ?_ ?_ ?_ ?_
  · refine classes_eq (ofEvents_wellFormed events) (ofEvents_wellFormed events') fun name => ?_
    have hmem (e : Event) := h.mem_iff (a := e)
    simp only [crossing, List.mem_filter, Bool.not_eq_true', ← hself] at hmem
    simp only [mem_classes_ofEvents, ← and_assoc, hmem]
  · intro x y
    rw [pairCount_ofEvents, pairCount_ofEvents]
    split
    · rfl
    · rename_i hxy
      exact hcount fun e he => Event.not_self_of_joins hxy he
  · intro x y
    rw [directedCount_ofEvents, directedCount_ofEvents]
    split
    · rfl
    · rename_i hxy
      refine hcount fun e he => ?_
      rw [beq_iff_eq.mp he]
      exact hself.mp hxy
  · rw [total_ofEvents, total_ofEvents]
    exact hcount fun e he => Bool.not_eq_true' _ ▸ he

/-- Without direction the same invocations have the same classes and the same counts. -/
theorem ofEvents_eq_of_ends (h : events'.map Event.ends = events.map Event.ends) :
    ofEvents events' = { ofEvents events with callCounts := (ofEvents events').callCounts } := by
  have hclasses : (ofEvents events').classes = (ofEvents events).classes := by
    refine classes_eq (ofEvents_wellFormed events') (ofEvents_wellFormed events) fun name => ?_
    have hiff (events : List Event) : name ∈ (ofEvents events).classes ↔
        ∃ p ∈ events.map Event.ends, ¬ p.IsDiag ∧ name ∈ p := by
      rw [mem_classes_ofEvents]
      simp [Event.ends, Event.Involves, eq_comm]
    rw [hiff, hiff, h]
  have hpairs : (ofEvents events').pairCounts = (ofEvents events).pairCounts := by
    refine pairCounts_eq (ofEvents_canonical events') (ofEvents_canonical events) hclasses ?_
    intro x y
    rw [pairCount_ofEvents, pairCount_ofEvents, Event.countP_joins, Event.countP_joins, h]
  have htotal : (ofEvents events').total = (ofEvents events).total := by
    rw [total_eq_countP_ends, total_eq_countP_ends, h]
  show _ = Matrix.mk (ofEvents events).classes (ofEvents events).pairCounts
    (ofEvents events').callCounts (ofEvents events).total
  rw [← hclasses, ← hpairs, ← htotal]

end Matrix

end Linkage
