import Linkage.Proofs.Matrix.Events
import Linkage.Proofs.Text.ByteOrder
import Mathlib.Order.Monotone.Basic

/-!
# Matrices of renamed classes

A tally and its matrix tell names apart and put them in order. So names that keep their order can be
replaced in the events: the matrix is then the same, with the new names at the old indexes.
-/

namespace Linkage

def Event.rename (f : String → String) (e : Event) : Event := ⟨f e.caller, f e.callee⟩

def ClassPair.rename (f : String → String) (p : ClassPair) : ClassPair := ⟨f p.first, f p.second⟩

def PairCoupling.rename {R : Type} (f : String → String) (p : PairCoupling R) : PairCoupling R :=
  { p with pair := p.pair.rename f }

/-- The matrix with other names of its classes, which keep their indexes. -/
def Matrix.rename (f : String → String) (m : Matrix) : Matrix :=
  { m with classes := m.classes.map f }

def eventNames (events : List Event) : Set String := {name | ∃ e ∈ events, e.Involves name}

/-- The renaming keeps the order of the names, byte by byte. -/
def KeepsOrder (f : String → String) (names : Set String) : Prop :=
  ∀ x ∈ names, ∀ y ∈ names, Text.Before x y → Text.Before (f x) (f y)

section order

variable {f : String → String} {names : Set String} {x y : String}

theorem KeepsOrder.strictMonoOn (hf : KeepsOrder f names) : StrictMonoOn f names :=
  fun x hx y hy hxy => Text.encode_lt_encode.mp (hf x hx y hy (Text.encode_lt_encode.mpr hxy))

theorem keepsOrder_prepend (package : String) (names : Set String) :
    KeepsOrder (package ++ ·) names := by
  intro x _ y _ hxy
  simp only [Text.Before, Text.encode_eq_flatMap, String.toList_append, List.flatMap_append]
    at hxy ⊢
  exact List.append_left_lt hxy

theorem idxOf?_map {α β : Type} [BEq α] [LawfulBEq α] [BEq β] [LawfulBEq β] {f : α → β}
    {l : List α} {x : α} (hf : ∀ y ∈ l, f y = f x ↔ y = x) :
    (l.map f).idxOf? (f x) = l.idxOf? x := by
  induction l with
  | nil => rfl
  | cons y l ih =>
    have hy : (f y == f x) = (y == x) := by
      rw [Bool.eq_iff_iff, beq_iff_eq, beq_iff_eq]
      exact hf y (List.mem_cons_self ..)
    rw [List.map_cons, List.idxOf?_cons, List.idxOf?_cons, hy,
      ih fun z hz => hf z (List.mem_cons_of_mem y hz)]

theorem ClassPair.of?_rename (hf : StrictMonoOn f names) (hx : x ∈ names) (hy : y ∈ names) :
    ClassPair.of? (f x) (f y) = (ClassPair.of? x y).map (rename f) := by
  rcases lt_trichotomy x y with hlt | rfl | hgt
  · rw [of?, of?, compare_lt_iff_lt.mpr hlt, compare_lt_iff_lt.mpr (hf hx hy hlt)]
    rfl
  · rw [of?, of?, compare_eq_iff_eq.mpr rfl, compare_eq_iff_eq.mpr rfl]
    rfl
  · rw [of?, of?, compare_gt_iff_gt.mpr hgt, compare_gt_iff_gt.mpr (hf hy hx hgt)]
    rfl

end order

namespace Matrix

variable {f : String → String} {names : Set String} {m : Matrix} {x y : String}

theorem class?_rename (m : Matrix) (i : Nat) : (m.rename f).class? i = (m.class? i).map f :=
  List.getElem?_map ..

theorem namesOf_rename (m : Matrix) (members : Group) :
    (m.rename f).namesOf members = (m.namesOf members).map f := by
  rw [namesOf, namesOf, List.map_filterMap]
  exact List.filterMap_congr fun i _ => m.class?_rename i

theorem classCount_rename (m : Matrix) : (m.rename f).classCount = m.classCount :=
  List.length_map ..

section lookup

variable (hclasses : ∀ name ∈ m.classes, name ∈ names) (hf : Set.InjOn f names)
include hclasses hf

theorem indexOf?_rename (hx : x ∈ names) : (m.rename f).indexOf? (f x) = m.indexOf? x := by
  rw [indexOf?, indexOf?, rename]
  exact idxOf?_map fun name hname => hf.eq_iff (hclasses name hname) hx

theorem pairCount_rename (hx : x ∈ names) (hy : y ∈ names) :
    (m.rename f).pairCount (f x) (f y) = m.pairCount x y := by
  rw [pairCount, pairCount, indexOf?_rename hclasses hf hx, indexOf?_rename hclasses hf hy]
  rfl

theorem directedCount_rename (hx : x ∈ names) (hy : y ∈ names) :
    (m.rename f).directedCount (f x) (f y) = m.directedCount x y := by
  rw [directedCount, directedCount, indexOf?_rename hclasses hf hx,
    indexOf?_rename hclasses hf hy]
  rfl

theorem weight_rename {R : Type} [Scale R] (hx : x ∈ names) (hy : y ∈ names) :
    ((m.rename f).weight (f x) (f y) : Option R) = m.weight x y := by
  rw [weight, weight, indexOf?_rename hclasses hf hx, indexOf?_rename hclasses hf hy]
  rfl

end lookup

theorem pairs_rename {R : Type} [Scale R] (hclasses : ∀ name ∈ m.classes, name ∈ names)
    (hf : StrictMonoOn f names) :
    ((m.rename f).pairs : List (PairCoupling R)) = m.pairs.map (PairCoupling.rename f) := by
  rw [pairs, pairs, List.map_filterMap]
  refine List.filterMap_congr fun e _ => ?_
  obtain ⟨⟨i, j⟩, n⟩ := e
  simp only [class?_rename]
  cases hi : m.class? i with
  | none => rfl
  | some x =>
    cases hj : m.class? j with
    | none => rfl
    | some y =>
      simp only [Option.map_some, Option.bind_eq_bind, Option.bind_some,
        ClassPair.of?_rename hf (hclasses x (List.mem_of_getElem? hi))
          (hclasses y (List.mem_of_getElem? hj))]
      cases ClassPair.of? x y <;> rfl

section events

variable {events : List Event} (hf : StrictMonoOn f (eventNames events))

theorem mem_eventNames (hx : x ∈ (ofEvents events).classes) : x ∈ eventNames events := by
  obtain ⟨e, he, -, hinvolves⟩ := (mem_classes_ofEvents x).mp hx
  exact ⟨e, he, hinvolves⟩

theorem ends_mem {e : Event} (he : e ∈ events) :
    e.caller ∈ eventNames events ∧ e.callee ∈ eventNames events :=
  ⟨⟨e, he, Or.inl rfl⟩, ⟨e, he, Or.inr rfl⟩⟩

include hf

theorem isSelf_rename {e : Event} (he : e ∈ events) : (e.rename f).isSelf = e.isSelf := by
  obtain ⟨hcaller, hcallee⟩ := ends_mem he
  rw [Event.isSelf, Event.isSelf, Bool.eq_iff_iff, beq_iff_eq, beq_iff_eq]
  exact hf.injOn.eq_iff hcaller hcallee

theorem rename_eq_iff {e : Event} (he : e ∈ events) (hx : x ∈ eventNames events)
    (hy : y ∈ eventNames events) : e.rename f = ⟨f x, f y⟩ ↔ e = ⟨x, y⟩ := by
  obtain ⟨hcaller, hcallee⟩ := ends_mem he
  obtain ⟨caller, callee⟩ := e
  rw [Event.rename, Event.mk.injEq, Event.mk.injEq, hf.injOn.eq_iff hcaller hx,
    hf.injOn.eq_iff hcallee hy]

theorem mem_classes_rename (name : String) :
    name ∈ (ofEvents (events.map (Event.rename f))).classes ↔
      name ∈ (ofEvents events).classes.map f := by
  have hne {e : Event} (he : e ∈ events) :
      (e.rename f).caller ≠ (e.rename f).callee ↔ e.caller ≠ e.callee :=
    (hf.injOn.eq_iff (ends_mem he).1 (ends_mem he).2).not
  rw [mem_classes_ofEvents, List.mem_map]
  constructor
  · rintro ⟨e', he', hcross, hname⟩
    obtain ⟨e, he, rfl⟩ := List.mem_map.mp he'
    have hcross := (hne he).mp hcross
    rcases hname with rfl | rfl
    · exact ⟨e.caller, (mem_classes_ofEvents _).mpr ⟨e, he, hcross, Or.inl rfl⟩, rfl⟩
    · exact ⟨e.callee, (mem_classes_ofEvents _).mpr ⟨e, he, hcross, Or.inr rfl⟩, rfl⟩
  · rintro ⟨x, hx, rfl⟩
    obtain ⟨e, he, hcross, hname⟩ := (mem_classes_ofEvents x).mp hx
    exact ⟨e.rename f, List.mem_map_of_mem he, (hne he).mpr hcross,
      hname.imp (congrArg f) (congrArg f)⟩

/-- The matrix of renamed events is the renamed matrix. -/
theorem ofEvents_rename :
    ofEvents (events.map (Event.rename f)) = (ofEvents events).rename f := by
  have h := ofEvents_canonical events
  have h' := ofEvents_canonical (events.map (Event.rename f))
  have hsorted : ((ofEvents events).classes.map f).Pairwise fun x y => compare x y = .lt := by
    refine List.pairwise_map.mpr (h.sorted.imp_of_mem fun hx hy hlt => ?_)
    exact compare_lt_iff_lt.mpr
      (hf (mem_eventNames hx) (mem_eventNames hy) (compare_lt_iff_lt.mp hlt))
  have hclasses := eq_of_sorted id h'.sorted hsorted (mem_classes_rename hf)
  have hinj {x y : String} (hx : x ∈ (ofEvents events).classes)
      (hy : y ∈ (ofEvents events).classes) : f x = f y ↔ x = y :=
    hf.injOn.eq_iff (mem_eventNames hx) (mem_eventNames hy)
  have hpairs := pairCounts_eq_of_map hclasses h h' fun x hx y hy => by
    rw [pairCount_ofEvents, pairCount_ofEvents, List.countP_map, if_congr (hinj hx hy) rfl rfl]
    refine congrArg (ite _ 0) (List.countP_congr fun e he => ?_)
    simp [Event.joins, rename_eq_iff hf he (mem_eventNames hx) (mem_eventNames hy),
      rename_eq_iff hf he (mem_eventNames hy) (mem_eventNames hx)]
  have hcalls := callCounts_eq_of_map hclasses h h' fun x hx y hy => by
    rw [directedCount_ofEvents, directedCount_ofEvents, List.count_eq_countP,
      List.count_eq_countP, List.countP_map, if_congr (hinj hx hy) rfl rfl]
    refine congrArg (ite _ 0) (List.countP_congr fun e he => ?_)
    simp [rename_eq_iff hf he (mem_eventNames hx) (mem_eventNames hy)]
  have htotal : (ofEvents (events.map (Event.rename f))).total = (ofEvents events).total := by
    rw [total_ofEvents, total_ofEvents, List.countP_map]
    exact List.countP_congr fun e he => by simp [isSelf_rename hf he]
  rw [rename, ← hclasses, ← hpairs, ← hcalls, ← htotal]

end events

end Matrix

end Linkage
