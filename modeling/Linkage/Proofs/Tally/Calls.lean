import Linkage.Proofs.Matrix.Events
import Linkage.Proofs.Text.ByteOrder

/-!
# The matrix of any calls

A tally is filled by any sequence of calls, each of which records one event or several. Its matrix
depends on the events alone: on how often each of them was recorded, not on their order, nor on how
they were divided among the calls.
-/

namespace Linkage

namespace Tally

/-- A call that fills a tally. -/
inductive Call where
  | record (caller callee : String)
  | recordEvent (e : Event)
  | recordAll (events : List Event)

namespace Call

def run (t : Tally) : Call → Tally
  | record caller callee => t.record caller callee
  | recordEvent e => t.recordEvent e
  | recordAll events => t.recordAll events

def events : Call → List Event
  | record caller callee => [⟨caller, callee⟩]
  | recordEvent e => [e]
  | recordAll events => events

end Call

def runAll (t : Tally) (calls : List Call) : Tally := calls.foldl Call.run t

theorem runAll_eq (t : Tally) (calls : List Call) :
    t.runAll calls = t.recordAll (calls.flatMap Call.events) := by
  induction calls generalizing t with
  | nil => rfl
  | cons c calls ih =>
    have hstep : c.run t = t.recordAll c.events := by cases c <;> rfl
    rw [runAll, List.foldl_cons, List.flatMap_cons, recordAll, List.foldl_append]
    rw [hstep]
    exact ih _

/-- The matrix of any calls says how often each invocation of another class was recorded, and
nothing else. -/
theorem build_counts_events (calls : List Call) :
    let events := calls.flatMap Call.events
    let t := empty.runAll calls
    let m := t.build
    (m.classes.Pairwise fun x y => Text.encode x < Text.encode y) ∧
    (∀ name, name ∈ m.classes ↔
      ∃ e ∈ events, e.caller ≠ e.callee ∧ (e.caller = name ∨ e.callee = name)) ∧
    (∀ name i, m.indexOf? name = some i ↔ m.class? i = some name) ∧
    (∀ x y, m.directedCount x y = if x = y then 0 else events.count ⟨x, y⟩) ∧
    (∀ x y, m.pairCount x y =
      if x = y then 0 else events.countP fun e => e = ⟨x, y⟩ ∨ e = ⟨y, x⟩) ∧
    (∀ x y, (m.weight x y : Option Float).isSome ↔ 0 < m.pairCount x y) ∧
    m.total = events.countP (fun e => e.caller ≠ e.callee) ∧
    t.selfTotal = events.countP (fun e => e.caller = e.callee) ∧
    ∀ calls' : List Call,
      let events' := calls'.flatMap Call.events
      let m' := (empty.runAll calls').build
      ((events'.filter fun e => e.caller ≠ e.callee).Perm
          (events.filter fun e => e.caller ≠ e.callee) → m' = m) ∧
        (List.Forall₂ (fun e e' => e' = e ∨ e' = e.swap) events events' →
          m' = { m with callCounts := m'.callCounts }) := by
  intro events t m
  have hm : m = Matrix.ofEvents events := congrArg build (runAll_eq empty calls)
  have h : m.WellFormed := hm ▸ Matrix.ofEvents_wellFormed events
  have hcross : (fun e : Event => decide (e.caller ≠ e.callee)) = fun e => !e.isSelf := by
    funext e
    rw [Bool.eq_iff_iff]
    simp [Event.isSelf]
  refine ⟨?_, ?_, ?_, ?_, ?_, ?_, ?_, ?_, ?_⟩
  · exact h.sorted.imp fun hlt => Text.encode_lt_encode.mpr (compare_lt_iff_lt.mp hlt)
  · intro name
    rw [hm]
    exact Matrix.mem_classes_ofEvents name
  · intro name i
    exact Matrix.indexOf?_eq_some_iff h
  · intro x y
    rw [hm]
    exact Matrix.directedCount_ofEvents events x y
  · intro x y
    rw [hm, Matrix.pairCount_ofEvents]
    exact congrArg (ite _ 0) (List.countP_congr fun e _ => by simp [Event.joins])
  · exact Matrix.weight_isSome_iff h
  · rw [hm, hcross]
    exact Matrix.total_ofEvents events
  · have hself := (recordAll_totals empty events).2
    rw [← runAll_eq] at hself
    refine hself.trans ?_
    rw [empty, Nat.zero_add]
    exact List.countP_congr fun e _ => by simp [Event.isSelf]
  · intro calls' events' m'
    have hm' : m' = Matrix.ofEvents events' := congrArg build (runAll_eq empty calls')
    rw [hm, hm', hcross]
    constructor
    · intro hperm
      exact Matrix.ofEvents_eq_of_crossing_perm hperm
    · intro hswaps
      exact Matrix.ofEvents_eq_of_ends (Event.map_ends_eq_of_swaps hswaps)

end Tally

end Linkage
