import Linkage.Event.Filter
import Linkage.Proofs.Text.Split
import Mathlib.Data.List.Basic

/-!
# Which events a filter keeps

An event is kept if both of its names belong to the project. Any other event is dropped for one
reason, the first of the three that one of its two names gives. What is kept once is kept again, and
a narrower filter keeps a part of it.
-/

namespace Linkage

theorem Text.isAllBlank_iff_trim {s : String} : isAllBlank s ↔ trim s = "" := by
  have htrim : trim s = "" ↔ stripEnds isBlank s.toList = [] := by
    rw [trim, ← String.toList_eq_nil_iff, String.toList_ofList]
  rw [htrim, isAllBlank, List.all_eq_true]
  constructor
  · intro hall
    have hnil : s.toList.dropWhile isBlank = [] := List.dropWhile_eq_nil_iff.mpr hall
    rw [stripEnds, hnil]
    rfl
  · intro hnil c hc
    obtain ⟨pre, post, hsplit, hpre, hpost⟩ := exists_stripEnds isBlank s.toList
    rw [hnil, List.append_nil] at hsplit
    rw [hsplit, List.mem_append] at hc
    exact hc.elim (hpre c) (hpost c)

namespace Filter

variable (f : Filter)

variable {events : List Event} {e : Event} {name : String}

theorem verdict_eq_kept_iff :
    f.verdict e = .kept ↔ f.isProjectClass e.caller ∧ f.isProjectClass e.callee := by
  unfold verdict isProjectClass
  grind

theorem mem_kept_iff : e ∈ (f.apply events).1 ↔
    e ∈ events ∧ f.isProjectClass e.caller ∧ f.isProjectClass e.callee := by
  rw [apply, List.mem_filter, beq_iff_eq, verdict_eq_kept_iff]

theorem kept_eq_length (events : List Event) :
    (f.apply events).2.kept = (f.apply events).1.length := by
  unfold apply
  dsimp only
  rw [List.count_eq_countP, List.countP_map, List.countP_eq_length_filter]
  rfl

/-- Each event has one verdict. -/
theorem stats_add_up (events : List Event) :
    let stats := (f.apply events).2
    stats.kept + stats.blank + stats.excluded + stats.unknown = events.length := by
  unfold apply
  dsimp only
  induction events with
  | nil => rfl
  | cons e events ih =>
    simp only [List.map_cons, List.count_cons, List.length_cons]
    cases f.verdict e <;> simp <;> omega

theorem kept_eq_filter (events : List Event) : (f.apply events).1 =
    events.filter fun e => f.isProjectClass e.caller && f.isProjectClass e.callee := by
  refine List.filter_congr fun e _ => ?_
  rw [Bool.eq_iff_iff, beq_iff_eq, verdict_eq_kept_iff, Bool.and_eq_true]

/-- Nothing is dropped from events that would all be kept. -/
theorem apply_of_kept (h : ∀ e ∈ events, f.verdict e = .kept) :
    f.apply events = (events, ⟨events.length, 0, 0, 0⟩) := by
  have hverdicts : events.map f.verdict = List.replicate events.length .kept :=
    List.map_eq_replicate_iff.mpr h
  have hfilter : (events.filter fun e => f.verdict e == .kept) = events :=
    List.filter_eq_self.mpr fun e he => beq_iff_eq.mpr (h e he)
  unfold apply
  rw [hverdicts, hfilter]
  simp [List.count_replicate]

theorem apply_kept (events : List Event) :
    f.apply (f.apply events).1 = ((f.apply events).1, ⟨(f.apply events).1.length, 0, 0, 0⟩) := by
  refine f.apply_of_kept fun e he => ?_
  exact f.verdict_eq_kept_iff.mpr (f.mem_kept_iff.mp he).2

/-- Why a name is none of the project. -/
inductive Reason where
  | blank
  | excluded
  | unknown
deriving DecidableEq, Repr

namespace Reason

/-- All reasons, each one before those to which it is preferred. -/
def all : List Reason := [.blank, .excluded, .unknown]

def verdict : Reason → Verdict
  | .blank => .blank
  | .excluded => .excluded
  | .unknown => .unknown

/-- How many events were dropped for a reason. -/
def dropped (s : FilterStats) : Reason → Nat
  | .blank => s.blank
  | .excluded => s.excluded
  | .unknown => s.unknown

theorem verdict_injective : Function.Injective verdict := by
  intro q r h
  cases q <;> cases r <;> first | rfl | cases h

end Reason

/-- Whether a name gives a reason to drop the events that it stands in. -/
def gives (name : String) : Reason → Bool
  | .blank => Text.trim name == ""
  | .excluded => f.isExcluded name
  | .unknown => !f.isListed name

/-- The reason to drop an event: the first one that either of its names gives. -/
def reason? (e : Event) : Option Reason :=
  Reason.all.find? fun r => f.gives e.caller r || f.gives e.callee r

theorem gives_blank : f.gives name .blank = Text.isAllBlank name := by
  rw [gives, Bool.eq_iff_iff, beq_iff_eq, Text.isAllBlank_iff_trim]

theorem verdict_eq : f.verdict e = (f.reason? e).elim .kept Reason.verdict := by
  unfold verdict reason? Reason.all
  rw [List.find?_cons, List.find?_cons, List.find?_cons, gives_blank, gives_blank]
  unfold gives
  grind [Reason.verdict]

theorem isProjectClass_iff : f.isProjectClass name ↔ ∀ r, f.gives name r = false := by
  have hall : (∀ r, f.gives name r = false) ↔ f.gives name .blank = false ∧
      f.gives name .excluded = false ∧ f.gives name .unknown = false := by
    constructor
    · intro h
      exact ⟨h .blank, h .excluded, h .unknown⟩
    · intro h r
      cases r <;> simp [h]
  rw [hall, gives_blank]
  simp [isProjectClass, gives, and_assoc]

/-- An event that no name gives a reason to drop is one of project classes. -/
theorem reason?_eq_none_iff :
    f.reason? e = none ↔ f.isProjectClass e.caller ∧ f.isProjectClass e.callee := by
  have hall (r : Reason) : r ∈ Reason.all := by cases r <;> decide
  rw [reason?, List.find?_eq_none, isProjectClass_iff, isProjectClass_iff, ← forall_and]
  constructor
  · intro h r
    simpa using h r (hall r)
  · intro h r _
    simp [h r]

/-- Every reason has been counted for the events that have it, and for no others. -/
theorem dropped_eq_countP (events : List Event) (r : Reason) :
    r.dropped (f.apply events).2 = events.countP fun e => f.reason? e == some r := by
  have hcount : r.dropped (f.apply events).2 = (events.map f.verdict).count r.verdict := by
    cases r <;> rfl
  rw [hcount, List.count_eq_countP, List.countP_map]
  refine List.countP_congr fun e _ => ?_
  rw [Function.comp_apply, beq_iff_eq, beq_iff_eq, verdict_eq]
  cases f.reason? e with
  | none => cases r <;> simp [Reason.verdict]
  | some q => simp [Reason.verdict_injective.eq_iff]

/-- A filter with more prefixes, or with fewer classes in its list, or with both. -/
structure Narrows (g f : Filter) : Prop where
  prefixes : f.excludedPrefixes ⊆ g.excludedPrefixes
  classes : ∀ list ∈ f.classes, ∃ smaller ∈ g.classes, ∀ name ∈ smaller, name ∈ list

variable {f} {g : Filter}

theorem Narrows.isProjectClass (h : g.Narrows f) (hname : g.isProjectClass name) :
    f.isProjectClass name := by
  simp only [Filter.isProjectClass, isExcluded, isListed, Bool.and_eq_true, Bool.not_eq_true',
    List.any_eq_false, Option.all_eq_true] at hname ⊢
  obtain ⟨⟨hblank, hprefixes⟩, hlisted⟩ := hname
  refine ⟨⟨hblank, fun p hp => hprefixes p (h.prefixes hp)⟩, fun list hlist => ?_⟩
  obtain ⟨smaller, hsmaller, hsubset⟩ := h.classes list hlist
  exact hsubset name (hlisted smaller hsmaller)

theorem Narrows.kept_sublist (h : g.Narrows f) (events : List Event) :
    (g.apply events).1.Sublist (f.apply events).1 := by
  rw [kept_eq_filter, kept_eq_filter]
  refine List.monotone_filter_right events fun e he => ?_
  rw [Bool.and_eq_true] at he ⊢
  exact he.imp h.isProjectClass h.isProjectClass

/-- The events between project classes are kept in their order, those of a class with itself among
them. All others are counted, each for its first reason. A filter keeps what it kept before, and a
narrower one keeps some of it. -/
theorem apply_keeps_project_events (f : Filter) (events : List Event) :
    let kept := (f.apply events).1
    let stats := (f.apply events).2
    kept = (events.filter fun e => f.isProjectClass e.caller && f.isProjectClass e.callee) ∧
    stats.kept = kept.length ∧
    (∀ r : Reason, r.dropped stats = events.countP fun e => f.reason? e == some r) ∧
    (∀ e, f.reason? e = none ↔ f.isProjectClass e.caller ∧ f.isProjectClass e.callee) ∧
    stats.kept + stats.dropped = events.length ∧
    f.apply kept = (kept, ⟨kept.length, 0, 0, 0⟩) ∧
    ∀ g : Filter, g.Narrows f → (g.apply events).1.Sublist kept := by
  intro kept stats
  have hsum : stats.kept + stats.dropped = events.length := by
    have hadd : stats.kept + stats.blank + stats.excluded + stats.unknown = events.length :=
      f.stats_add_up events
    unfold FilterStats.dropped
    omega
  exact ⟨f.kept_eq_filter events, f.kept_eq_length events, f.dropped_eq_countP events,
    fun e => f.reason?_eq_none_iff, hsum, f.apply_kept events, fun g h => h.kept_sublist events⟩

/-- Three of the events have two reasons each. The narrower filter keeps one event less. -/
theorem apply_keeps_project_events_of_seven :
    let f : Filter := ⟨["std."], some (.ofList ["A", "B", "std.C"])⟩
    let g : Filter := ⟨["java.", "std."], some (.ofList ["B"])⟩
    let events : List Event :=
      [⟨"B", "B"⟩, ⟨"A", "B"⟩, ⟨"std.C", "\t"⟩, ⟨"D", "std.C"⟩, ⟨"B", "B"⟩, ⟨"", "D"⟩, ⟨"A", "D"⟩]
    g.Narrows f ∧ (f.apply events).1 = [⟨"B", "B"⟩, ⟨"A", "B"⟩, ⟨"B", "B"⟩] ∧
      (f.apply events).2 = ⟨3, 2, 1, 1⟩ ∧
      (f.apply (f.apply events).1).1 = (f.apply events).1 ∧
      (g.apply events).1.Sublist (f.apply events).1 := by
  intro f g events
  have hnarrows : g.Narrows f := by
    constructor
    · decide
    · intro list hlist
      cases hlist
      refine ⟨_, rfl, fun name hname => ?_⟩
      rw [Std.TreeSet.mem_ofList, List.contains_iff_mem, List.mem_singleton] at hname
      rw [hname]
      decide +kernel
  obtain ⟨-, -, -, -, -, hagain, hsublist⟩ := apply_keeps_project_events f events
  exact ⟨hnarrows, by decide +kernel, by decide +kernel, by rw [hagain], hsublist g hnarrows⟩

end Filter

end Linkage
