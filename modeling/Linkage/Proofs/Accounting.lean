import Linkage.Proofs.Analysis
import Linkage.Proofs.Event.Filter
import Linkage.Proofs.Matrix.Conservation

/-!
# The accounts of a run

Every event that is loaded is dropped for one reason, or kept and counted as an invocation of
another class or of the class itself. The classes of the matrix are those of the project that the
kept events join to others, and every class is a member of one cluster.
-/

namespace Linkage
open Scale

variable {R : Type} [Scale R] {events : List Event} {x : String}

/-- The names in the results: of classes, pairs and calls, and in clusters and merges. -/
inductive Analysis.Mentions (a : Analysis R) : String → Prop
  | classOf {x : String} (h : x ∈ a.matrix.classes) : a.Mentions x
  | first {p : PairCoupling R} (h : p ∈ a.matrix.pairs) : a.Mentions p.pair.first
  | second {p : PairCoupling R} (h : p ∈ a.matrix.pairs) : a.Mentions p.pair.second
  | caller {x y : String} {n : Nat} (h : (x, y, n) ∈ a.matrix.directedCounts) : a.Mentions x
  | callee {x y : String} {n : Nat} (h : (x, y, n) ∈ a.matrix.directedCounts) : a.Mentions y
  | member {c : Cluster R} {x : String} (hc : c ∈ a.outcome.clusters) (hx : x ∈ c.members) :
      a.Mentions x
  | central {c : Cluster R} {x : String} (hc : c ∈ a.outcome.clusters) (hx : x ∈ c.central) :
      a.Mentions x
  | into {s : MergeStep R} {x : String} (hs : s ∈ a.outcome.steps) (hx : x ∈ s.into) :
      a.Mentions x
  | absorbed {s : MergeStep R} {x : String} (hs : s ∈ a.outcome.steps) (hx : x ∈ s.absorbed) :
      a.Mentions x

namespace Matrix

variable {m : Matrix}

theorem cluster_names_subset (h : m.WellFormed) {threshold : R} {centralCount : Nat}
    {c : Cluster R} (hc : c ∈ (m.cluster threshold centralCount).clusters) :
    c.members ⊆ m.classes ∧ c.central ⊆ m.classes := by
  obtain ⟨members, -, id, rfl⟩ := mem_cluster_clusters threshold centralCount h hc
  exact ⟨m.namesOf_subset _, m.namesOf_subset _⟩

end Matrix

/-- The results name no class but those of the matrix. -/
theorem mem_classes_of_mentions {config : Config R} {b : Bracketing}
    (h : (analyze events config b).Mentions x) : x ∈ (Matrix.ofEvents events).classes := by
  have hcanonical := Matrix.ofEvents_canonical events
  have hformed := hcanonical.toWellFormed
  cases h with
  | classOf h => exact h
  | first h => exact (Matrix.mem_classes_of_mem_pairs hformed h).1
  | second h => exact (Matrix.mem_classes_of_mem_pairs hformed h).2
  | caller h => exact (Matrix.mem_classes_of_mem_directedCounts hcanonical h).1
  | callee h => exact (Matrix.mem_classes_of_mem_directedCounts hcanonical h).2
  | member hc hx => exact (Matrix.cluster_names_subset hformed hc).1 hx
  | central hc hx => exact (Matrix.cluster_names_subset hformed hc).2 hx
  | into hs hx => exact (Matrix.sides_subset _ _ hformed hs).1 hx
  | absorbed hs hx => exact (Matrix.sides_subset _ _ hformed hs).2 hx

theorem mem_classes_kept_iff (f : Filter) (events : List Event) :
    x ∈ (Matrix.ofEvents (f.apply events).1).classes ↔
      ∃ y, y ≠ x ∧ f.isProjectClass x ∧ f.isProjectClass y ∧
        (⟨x, y⟩ ∈ events ∨ ⟨y, x⟩ ∈ events) := by
  rw [Matrix.mem_classes_ofEvents]
  constructor
  · intro h
    obtain ⟨⟨caller, callee⟩, hkept, hne, hinvolves⟩ := h
    obtain ⟨hevent, hcaller, hcallee⟩ := f.mem_kept_iff.mp hkept
    obtain rfl | rfl := hinvolves
    · exact ⟨callee, Ne.symm hne, hcaller, hcallee, Or.inl hevent⟩
    · exact ⟨caller, hne, hcallee, hcaller, Or.inr hevent⟩
  · intro h
    obtain ⟨y, hne, hx, hy, hevent | hevent⟩ := h
    · exact ⟨⟨x, y⟩, f.mem_kept_iff.mpr ⟨hevent, hx, hy⟩, Ne.symm hne, Or.inl rfl⟩
    · exact ⟨⟨y, x⟩, f.mem_kept_iff.mpr ⟨hevent, hy, hx⟩, hne, Or.inr rfl⟩

/-- Loaded events are dropped or kept, kept ones counted once, and clusters have each class once.
The classes are those of the project that some loaded event joins to another, and no result names
any other class. -/
theorem analysis_accounts_for_events (f : Filter) (events : List Event) (config : Config R)
    (bracketing : Bracketing) :
    let kept := (f.apply events).1
    let stats := (f.apply events).2
    let a := analyze kept config bracketing
    stats.kept + stats.blank + stats.excluded + stats.unknown = events.length ∧
    stats.kept = a.matrix.total + a.selfTotal ∧
    (a.outcome.clusters.map Cluster.size).sum = a.matrix.classCount ∧
    a.matrix.classCount = a.summary.classCount ∧
    (∀ x, x ∈ a.matrix.classes ↔ ∃ y, y ≠ x ∧ f.isProjectClass x ∧ f.isProjectClass y ∧
      (⟨x, y⟩ ∈ events ∨ ⟨y, x⟩ ∈ events)) ∧
    a.matrix.classes.Nodup ∧
    (a.outcome.clusters.flatMap Cluster.members).Perm a.matrix.classes ∧
    ∀ x, a.Mentions x → f.isProjectClass x := by
  intro kept stats a
  have hformed := Matrix.ofEvents_wellFormed kept
  have hsizes := Matrix.sum_size config.threshold config.centralCount hformed
  refine ⟨f.stats_add_up events, ?_, hsizes, hsizes.symm, fun x => mem_classes_kept_iff f events,
    hformed.nodup, Matrix.flatMap_members_perm _ _ hformed, ?_⟩
  · have hself : a.selfTotal = kept.countP Event.isSelf := Tally.selfTotal_recordAll kept
    have hcrossing : a.matrix.total = kept.countP fun e => !e.isSelf := Matrix.total_ofEvents kept
    rw [f.kept_eq_length, hself, hcrossing, Nat.add_comm,
      List.length_eq_countP_add_countP Event.isSelf]
    congr 1
    exact List.countP_congr fun e _ => by simp
  · intro x hx
    obtain ⟨y, -, hproject, -⟩ := (mem_classes_kept_iff f events).mp (mem_classes_of_mentions hx)
    exact hproject

end Linkage
