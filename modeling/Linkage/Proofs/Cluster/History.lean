import Linkage.Proofs.Cluster.Average
import Linkage.Proofs.Cluster.Phases
import Linkage.Proofs.Tally
import Mathlib.Data.List.InsertIdx

/-!
# The history of a clustering

The recorded steps tell the clustering in the names of the classes. Every step joins, of all pairs
of groups at that point, the first of those with the greatest average coupling, and replaying the
steps from one class each leads to the clusters.
-/

namespace Linkage
open Scale

variable {R : Type} [Scale R]

/-- Two groups at two positions. -/
structure PairAt (groups : List (List String)) (i j : Nat) (a b : List String) : Prop where
  lt : i < j
  first : groups[i]? = some a
  second : groups[j]? = some b

/-- The step joins the groups at two positions, the first ones with the greatest coupling. -/
structure GreedyStep (m : Matrix) (groups : List (List String)) (i j : Nat) (s : MergeStep R) :
    Prop where
  pair : PairAt groups i j s.into s.absorbed
  coupling_eq : s.coupling = m.averageCoupling s.into s.absorbed
  greatest : ∀ i' j' a b, PairAt groups i' j' a b → atMost (m.averageCoupling a b) s.coupling
  before : ∀ i' j' a b, PairAt groups i' j' a b → i' < i ∨ i' = i ∧ j' < j →
    less (m.averageCoupling a b) s.coupling

/-- Greedy steps, numbered on from earlier ones, and the groups before and after them. The absorbed
group is appended to the other one, and its place is removed. -/
inductive History (m : Matrix) (allowed : List (List String) → MergeStep R → Prop) :
    Nat → List (List String) → List (MergeStep R) → List (List String) → Prop
  | done (k : Nat) (groups : List (List String)) : History m allowed k groups [] groups
  | step {k i j : Nat} {groups last : List (List String)} {s : MergeStep R}
      {steps : List (MergeStep R)} (greedy : GreedyStep m groups i j s) (number : s.step = k + 1)
      (guard : allowed groups s)
      (rest : History m allowed (k + 1) ((groups.set i (s.into ++ s.absorbed)).eraseIdx j)
        steps last) :
      History m allowed k groups (s :: steps) last

section unique

variable [LawfulScale R] {m : Matrix} {groups : List (List String)} {i j i' j' : Nat}
  {s s' : MergeStep R}

theorem GreedyStep.not_before (h : GreedyStep m groups i j s) (h' : GreedyStep m groups i' j' s') :
    ¬ (i' < i ∨ i' = i ∧ j' < j) := by
  intro hbefore
  have hless := h.before i' j' s'.into s'.absorbed h'.pair hbefore
  have hle := h'.greatest i j s.into s.absorbed h.pair
  rw [← h'.coupling_eq] at hless
  rw [← h.coupling_eq] at hle
  exact not_atMost_of_less hless hle

/-- The groups determine the step. -/
theorem GreedyStep.unique (h : GreedyStep m groups i j s) (h' : GreedyStep m groups i' j' s') :
    i = i' ∧ j = j' ∧ s.into = s'.into ∧ s.absorbed = s'.absorbed ∧ s.coupling = s'.coupling := by
  have hnot := h.not_before h'
  have hnot' := h'.not_before h
  obtain rfl : i = i' := by omega
  obtain rfl : j = j' := by omega
  have hinto := Option.some.inj (h.pair.first.symm.trans h'.pair.first)
  have habsorbed := Option.some.inj (h.pair.second.symm.trans h'.pair.second)
  refine ⟨rfl, rfl, hinto, habsorbed, ?_⟩
  rw [h.coupling_eq, h'.coupling_eq, hinto, habsorbed]

end unique

namespace Matrix

section steps

variable {m : Matrix} {w : Weights R} {groups last : List Group} {c : Candidate R}
  {made : List (Candidate R)}

theorem map_names_singletons (m : Matrix) :
    m.singletons.map m.namesOf = m.classes.map fun name => [name] := by
  have hclasses := congrArg (List.map Option.toList) m.map_class?_range
  rw [List.map_map, List.map_map] at hclasses
  rw [singletons, List.map_map]
  refine Eq.trans (List.map_congr_left fun i _ => ?_) hclasses
  cases hi : m.class? i <;> simp [namesOf, hi]

theorem map_names_join (hc : c.Of w groups) : (c.join groups).map m.namesOf =
    ((groups.map m.namesOf).set c.intoAt (m.namesOf c.into ++ m.namesOf c.absorbed)).eraseIdx
      c.absorbedAt := by
  rw [Candidate.join, modify_eq_set_of_getElem? _ hc.into_at, ← List.eraseIdx_map, List.map_set,
    namesOf_append]

theorem averageCoupling_names (h : m.WellFormed) (hp : Partition m.classCount groups) {g g' : Group}
    (hg : g ∈ groups) (hg' : g' ∈ groups) :
    m.averageCoupling (m.namesOf g) (m.namesOf g') = (average m.weightAt g g' : R) := by
  rw [averageCoupling, indexesOf_namesOf h fun i hi => hp.lt hg hi,
    indexesOf_namesOf h fun i hi => hp.lt hg' hi]

theorem exists_of_pairAt (h : m.WellFormed) (hp : Partition m.classCount groups) {i j : Nat}
    {a b : List String} (hpair : PairAt (groups.map m.namesOf) i j a b) :
    ∃ d : Candidate R, d.Of m.weightAt groups ∧ d.intoAt = i ∧ d.absorbedAt = j ∧
      d.coupling = m.averageCoupling a b := by
  obtain ⟨hlt, hi, hj⟩ := hpair
  rw [List.getElem?_map, Option.map_eq_some_iff] at hi hj
  obtain ⟨g, hg, rfl⟩ := hi
  obtain ⟨g', hg', rfl⟩ := hj
  exact ⟨⟨i, j, g, g', average m.weightAt g g'⟩, ⟨hlt, hg, hg', rfl⟩, rfl, rfl,
    (averageCoupling_names h hp (List.mem_of_getElem? hg) (List.mem_of_getElem? hg')).symm⟩

variable [LawfulScale R] (h : m.WellFormed) (hmeans : m.MeansPositive R)
include h hmeans

theorem isNumber_coupling (hp : Partition m.classCount groups) (hc : c.Of m.weightAt groups) :
    IsNumber c.coupling := by
  rw [hc.coupling_eq]
  exact average_isNumber h hmeans (hp.length_le (List.mem_of_getElem? hc.into_at))
    (hp.length_le (List.mem_of_getElem? hc.absorbed_at))

theorem greedyStep_of_choice (hp : Partition m.classCount groups)
    (hc : mostCoupled? m.weightAt groups = some c) (k : Nat) (phase : Phase) :
    GreedyStep m (groups.map m.namesOf) c.intoAt c.absorbedAt
      ⟨k, phase, m.namesOf c.into, m.namesOf c.absorbed, c.coupling⟩ := by
  have hof := mostCoupled?_of hc
  have hnum : ∀ d : Candidate R, d.Of m.weightAt groups → IsNumber d.coupling :=
    fun d hd => isNumber_coupling h hmeans hp hd
  have hpair : PairAt (groups.map m.namesOf) c.intoAt c.absorbedAt (m.namesOf c.into)
      (m.namesOf c.absorbed) :=
    ⟨hof.lt, by rw [List.getElem?_map, hof.into_at]; rfl,
      by rw [List.getElem?_map, hof.absorbed_at]; rfl⟩
  refine ⟨hpair, ?_, fun i j a b hother => ?_, fun i j a b hother hbefore => ?_⟩
  · rw [averageCoupling_names h hp (List.mem_of_getElem? hof.into_at)
      (List.mem_of_getElem? hof.absorbed_at)]
    exact hof.coupling_eq
  · obtain ⟨d, hd, -, -, hcoupling⟩ := exists_of_pairAt (R := R) h hp hother
    rw [← hcoupling]
    exact (mostCoupled?_greatest hnum hc hd).1
  · obtain ⟨d, hd, rfl, rfl, hcoupling⟩ := exists_of_pairAt (R := R) h hp hother
    rw [← hcoupling]
    exact (mostCoupled?_greatest hnum hc hd).2 hbefore

/-- By name, a run of merges is a history. -/
theorem history_of_run {goesOn : Guard R} {phase : Phase}
    {allowed : List (List String) → MergeStep R → Prop} (hp : Partition m.classCount groups)
    (hallowed : ∀ gs c k, Partition m.classCount gs → mostCoupled? m.weightAt gs = some c →
      goesOn gs c.coupling → allowed (gs.map m.namesOf)
        ⟨k, phase, m.namesOf c.into, m.namesOf c.absorbed, c.coupling⟩)
    (hrun : MergeRun m.weightAt goesOn groups made last) (k : Nat) :
    History m allowed k (groups.map m.namesOf) (m.stepsOf phase k made)
      (last.map m.namesOf) := by
  induction hrun generalizing k with
  | stop groups => exact History.done k _
  | merge hc hgo hrest ih =>
    have hof := mostCoupled?_of hc
    refine History.step (greedyStep_of_choice h hmeans hp hc (k + 1) phase) rfl
      (hallowed _ _ _ hp hc hgo) ?_
    rw [← map_names_join hof]
    exact ih (hp.join hof) (k + 1)

omit h hmeans in
theorem less_of_exceeds {threshold x : R} (hthreshold : IsNumber threshold) (hx : IsNumber x)
    {gs : List Group} (hgo : exceeds threshold gs x) : less threshold x := by
  refine LawfulScale.less_iff.mpr ⟨hthreshold, hx, fun hle => ?_⟩
  rw [exceeds, hle] at hgo
  cases hgo

/-- When the first phase ends, no coupling exceeds the threshold. -/
theorem thresholdPhase_pairwise (threshold : R) : (m.thresholdPhase threshold).groups.Pairwise
    fun a b => atMost (average m.weightAt a b) threshold := by
  refine (Candidate.pairwise_average_iff (P := fun x => atMost x threshold)).mpr fun d hd => ?_
  have hp := m.thresholdPhase_partition threshold
  obtain ⟨c, hc⟩ := exists_mostCoupled? (R := R) (w := m.weightAt) (two_le_length hd)
  have hle := (mostCoupled?_greatest (fun e he => isNumber_coupling h hmeans hp he) hc hd).1
  have hended := m.thresholdPhase_ended threshold c hc
  rw [exceeds, Bool.not_eq_false'] at hended
  exact LawfulScale.atMost_trans hle hended

theorem atMost_of_thresholdPhase (threshold : R) {i j : Nat} {a b : List String}
    (hpair : PairAt ((m.thresholdPhase threshold).groups.map m.namesOf) i j a b) :
    atMost (m.averageCoupling a b) threshold := by
  obtain ⟨d, hd, -, -, hcoupling⟩ :=
    exists_of_pairAt (R := R) h (m.thresholdPhase_partition threshold) hpair
  rw [← hcoupling]
  exact (Candidate.pairwise_average_iff (P := fun x => atMost x threshold)).mp
    (thresholdPhase_pairwise h hmeans threshold) d hd

/-- By name, the merges of the first phase are a history in which every coupling exceeds the
threshold. -/
theorem threshold_history (threshold : R) :
    History m (fun _ s => ¬ atMost s.coupling threshold) 0 (m.classes.map fun name => [name])
      (m.stepsOf .threshold 0 (m.thresholdPhase threshold).made)
      ((m.thresholdPhase threshold).groups.map m.namesOf) := by
  rw [← map_names_singletons]
  refine history_of_run h hmeans (Partition.singletons m) (fun gs c k hp hc hgo => ?_)
    (m.thresholdPhase_run threshold) 0
  exact Bool.eq_false_iff.mp ((Bool.not_eq_true' _).mp hgo)

end steps

/-- Replaying the recorded steps from one class each, in the order of the classes, leads to the
clusters. The steps above the threshold come first; after them no two groups are coupled more
strongly than the threshold. The other steps are those made while there are more than half as many
groups as classes. The invocations fit a counter of 64 bits, so that every coupling is a number. -/
theorem cluster_history (events : List Event) (htotal : (ofEvents events).total < 2 ^ 64)
    {threshold : Float} (hthreshold : threshold.isNaN = false) (centralCount : Nat) :
    let m := ofEvents events
    let o := m.cluster threshold centralCount
    ∃ first second middle, o.steps = first ++ second ∧
      History m (fun _ s => s.phase = .threshold ∧ threshold < s.coupling) 0
        (m.classes.map fun name => [name]) first middle ∧
      (∀ i j a b, PairAt middle i j a b → m.averageCoupling a b ≤ threshold) ∧
      History m (fun groups s => s.phase = .cardinality ∧
          0 < m.classCount / 2 ∧ m.classCount / 2 < groups.length)
        first.length middle second (o.clusters.map Cluster.members) ∧
      (0 < m.classCount / 2 → (o.clusters.map Cluster.members).length ≤ m.classCount / 2) := by
  intro m o
  have h : m.WellFormed := ofEvents_wellFormed events
  have hmeans : m.MeansPositive Float := meansPositive_of_total_lt h htotal
  have hnumber : IsNumber threshold := (Double.isNumber_iff_isNaN threshold).mpr hthreshold
  have hlength : (m.stepsOf .threshold 0 (m.thresholdPhase threshold).made).length =
      (m.thresholdPhase threshold).made.length := by
    rw [stepsOf, List.length_map, List.length_zipIdx]
  refine ⟨_, _, (m.thresholdPhase threshold).groups.map m.namesOf,
    cluster_steps threshold h centralCount, ?_, fun i j a b hpair => ?_, ?_, fun hhalf => ?_⟩
  · rw [← map_names_singletons]
    refine history_of_run h hmeans (Partition.singletons m) (fun gs c k hp hc hgo => ⟨rfl, ?_⟩)
      (m.thresholdPhase_run threshold) 0
    exact of_decide_eq_true
      (less_of_exceeds hnumber (isNumber_coupling h hmeans hp (mostCoupled?_of hc)) hgo)
  · exact of_decide_eq_true (atMost_of_thresholdPhase h hmeans threshold hpair)
  · rw [map_members_clusters threshold h, hlength]
    refine history_of_run h hmeans (m.thresholdPhase_partition threshold)
      (fun gs c k hp hc hgo => ⟨rfl, ?_⟩) (m.cardinalityPhase_run threshold) _
    rw [List.length_map]
    exact of_decide_eq_true hgo
  · rw [map_members_clusters threshold h, List.length_map]
    exact length_mergeDownTo_le _ hhalf _

theorem cluster_history_of_chain :
    let m := ofEvents [⟨"A", "B"⟩, ⟨"B", "C"⟩, ⟨"C", "D"⟩]
    m.total < 2 ^ 64 ∧ (0.5 : Float).isNaN = false ∧
      ∃ first second middle, (m.cluster (0.5 : Float) 5).steps = first ++ second ∧
        History m (fun _ s => s.phase = .threshold ∧ 0.5 < s.coupling) 0
          (m.classes.map fun name => [name]) first middle := by
  refine ⟨by decide, by decide, ?_⟩
  obtain ⟨first, second, middle, hsteps, hhistory, -⟩ :=
    cluster_history [⟨"A", "B"⟩, ⟨"B", "C"⟩, ⟨"C", "D"⟩] (by decide)
      (show (0.5 : Float).isNaN = false by decide) 5
  exact ⟨first, second, middle, hsteps, hhistory⟩

end Matrix

end Linkage
