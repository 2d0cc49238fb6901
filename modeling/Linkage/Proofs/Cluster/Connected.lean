import Linkage.Proofs.Cluster.History
import Linkage.Proofs.Cluster.Outcome
import Mathlib.Combinatorics.SimpleGraph.Connectivity.Subgraph

/-!
# Merges follow recorded pairs

No merge joins groups that have nothing to do with one another, so that all clusters are connected
in the graph of the recorded pairs. For merges above a threshold this follows from their coupling.
The forced merges have the most coupled groups to choose from: if no two of those had a recorded
pair, every group would hold a class together with all of its pairs, thus two classes at least, and
there would be no more than half as many groups as classes.
-/

namespace Linkage
open Scale

namespace Matrix

/-- The graph of the recorded pairs. -/
def graph (m : Matrix) : SimpleGraph String where
  Adj x y := 0 < m.pairCount x y
  symm := ⟨fun x y hxy => by rwa [m.pairCount_comm y x]⟩
  loopless := ⟨fun x hx => by rw [m.pairCount_self x] at hx; exact Nat.lt_irrefl 0 hx⟩

variable {m : Matrix} {groups : List Group} {a b : Group}

theorem Coupled.exists_adj (h : m.WellFormed) (hab : m.Coupled a b) :
    ∃ x ∈ m.namesOf a, ∃ y ∈ m.namesOf b, m.graph.Adj x y := by
  obtain ⟨i, hi, j, hj, hpair⟩ := hab
  obtain ⟨x, hx⟩ := class?_isSome (hpair.lt h).1
  obtain ⟨y, hy⟩ := class?_isSome (hpair.lt h).2
  exact ⟨x, mem_namesOf.mpr ⟨i, hi, hx⟩, y, mem_namesOf.mpr ⟨j, hj, hy⟩,
    (pairCount_pos_iff h).mpr ⟨i, j, hx, hy, hpair⟩⟩

theorem two_le_length_of_ne {members : Group} {i j : Nat} (hi : i ∈ members) (hj : j ∈ members)
    (hne : i ≠ j) : 2 ≤ members.length := by
  match members with
  | [] => cases hi
  | [k] => exact absurd ((List.mem_singleton.mp hi).trans (List.mem_singleton.mp hj).symm) hne
  | _ :: _ :: rest => exact Nat.le_add_left 2 rest.length

/-- The members of a group are connected among themselves. -/
def IsConnected (m : Matrix) (members : List String) : Prop :=
  (m.graph.induce {x | x ∈ members}).Connected

theorem isConnected_singleton (m : Matrix) (name : String) : m.IsConnected [name] := by
  refine (SimpleGraph.connected_iff _).mpr ⟨?_, ⟨name, List.mem_singleton_self name⟩⟩
  rintro ⟨x, hx⟩ ⟨y, hy⟩
  obtain rfl := List.mem_singleton.mp hx
  obtain rfl := List.mem_singleton.mp hy
  exact SimpleGraph.Reachable.refl _

theorem isConnected_append {xs ys : List String} (hxs : m.IsConnected xs) (hys : m.IsConnected ys)
    (hadj : ∃ x ∈ xs, ∃ y ∈ ys, m.graph.Adj x y) : m.IsConnected (xs ++ ys) := by
  obtain ⟨x, hx, y, hy, hxy⟩ := hadj
  have hunion : {z | z ∈ xs ++ ys} = {z | z ∈ xs} ∪ {z | z ∈ ys} :=
    Set.ext fun z => List.mem_append
  rw [IsConnected, hunion]
  exact SimpleGraph.connected_induce_union hxs.preconnected hys.preconnected hx hy hxy

theorem IsConnected.reachable {members : List String} (hc : m.IsConnected members) {x y : String}
    (hx : x ∈ members) (hy : y ∈ members) : m.graph.Reachable x y :=
  (hc.preconnected ⟨x, hx⟩ ⟨y, hy⟩).map (SimpleGraph.Embedding.induce _).toHom

/-- A connected group of two members or more has a recorded pair of members. -/
theorem IsConnected.exists_adj {members : List String} (hc : m.IsConnected members)
    (hnodup : members.Nodup) (htwo : 2 ≤ members.length) :
    ∃ x ∈ members, ∃ y ∈ members, m.graph.Adj x y := by
  match members, htwo with
  | x :: y :: rest, _ =>
    have hx : x ∈ x :: y :: rest := List.mem_cons_self ..
    have hy : y ∈ x :: y :: rest := List.mem_cons_of_mem x (List.mem_cons_self ..)
    have hne : x ≠ y := fun heq => (List.nodup_cons.mp hnodup).1 (heq ▸ List.mem_cons_self ..)
    have : Nontrivial {z | z ∈ x :: y :: rest} :=
      ⟨⟨x, hx⟩, ⟨y, hy⟩, fun heq => hne (congrArg Subtype.val heq)⟩
    obtain ⟨⟨z, hz⟩, hadj⟩ := hc.preconnected.exists_adj_of_nontrivial ⟨x, hx⟩
    exact ⟨x, hx, z, hz, hadj⟩

section merges

variable {R : Type} [Scale R] {goesOn : Guard R} {c : Candidate R} {last : List Group}
  {made : List (Candidate R)}

/-- A partition into connected groups. -/
structure ConnectedPartition (m : Matrix) (groups : List Group) : Prop where
  partition : Partition m.classCount groups
  connected : ∀ g ∈ groups, m.IsConnected (m.namesOf g)

theorem connected_singletons (m : Matrix) : m.ConnectedPartition m.singletons where
  partition := Partition.singletons m
  connected g hg := by
    have hnames := List.mem_map_of_mem (f := m.namesOf) hg
    rw [map_names_singletons] at hnames
    obtain ⟨name, -, heq⟩ := List.mem_map.mp hnames
    rw [← heq]
    exact m.isConnected_singleton name

variable (h : m.WellFormed)
include h

theorem ConnectedPartition.join {w : Weights R} (hp : m.ConnectedPartition groups)
    (hc : c.Of w groups) (hcoupled : m.Coupled c.into c.absorbed) :
    m.ConnectedPartition (c.join groups) where
  partition := hp.partition.join hc
  connected g hg := by
    rcases hc.mem_join hg with rfl | hg
    · rw [namesOf_append]
      exact isConnected_append (hp.connected _ (List.mem_of_getElem? hc.into_at))
        (hp.connected _ (List.mem_of_getElem? hc.absorbed_at)) (hcoupled.exists_adj h)
    · exact hp.connected g hg

/-- A run whose guard allows only merges of coupled groups keeps all groups connected. -/
theorem connected_of_run (hrun : MergeRun m.weightAt goesOn groups made last)
    (hcoupled : ∀ gs c, Partition m.classCount gs → mostCoupled? m.weightAt gs = some c →
      goesOn gs c.coupling → m.Coupled c.into c.absorbed)
    (hp : m.ConnectedPartition groups) : m.ConnectedPartition last :=
  (hrun.invariant (fun gs c hgs hc hgo =>
    hgs.join h (mostCoupled?_of hc) (hcoupled gs c hgs.partition hc hgo)) hp).1

variable [LawfulScale R] (hmeans : m.MeansPositive R)
include hmeans

/-- Above a threshold of zero or more all merged groups are coupled. -/
theorem coupled_of_exceeds {threshold : R} (hthreshold : atMost zero threshold)
    (hp : Partition m.classCount groups) (hc : c.Of m.weightAt groups)
    (hgo : exceeds threshold groups c.coupling) : m.Coupled c.into c.absorbed := by
  have hnumber := (LawfulScale.isNumber_of_atMost hthreshold).2
  have hless := less_of_exceeds hnumber (isNumber_coupling h hmeans hp hc) hgo
  have hpos := less_of_atMost_of_less hthreshold hless
  rw [hc.coupling_eq] at hpos
  exact coupled_of_average_pos h hpos

theorem coupled_of_choice (hp : Partition m.classCount groups)
    (hc : mostCoupled? m.weightAt groups = some c) {p q : Nat} (hpq : p < q)
    (ha : groups[p]? = some a) (hb : groups[q]? = some b) (hab : m.Coupled a b) :
    m.Coupled c.into c.absorbed := by
  have hle := (mostCoupled?_greatest (d := ⟨p, q, a, b, average m.weightAt a b⟩)
    (fun e he => isNumber_coupling h hmeans hp he) hc ⟨hpq, ha, hb, rfl⟩).1
  have hpos := less_of_less_of_atMost (average_pos h hmeans
    (hp.length_le (List.mem_of_getElem? ha)) (hp.length_le (List.mem_of_getElem? hb)) hab) hle
  rw [(mostCoupled?_of hc).coupling_eq] at hpos
  exact coupled_of_average_pos h hpos

/-- As long as there are more than half as many groups as classes, some two groups are coupled. -/
theorem coupled_of_outnumbers (hp : Partition m.classCount groups)
    (hc : mostCoupled? m.weightAt groups = some c) (hmore : m.classCount / 2 < groups.length) :
    m.Coupled c.into c.absorbed := by
  by_contra hnone
  refine Nat.not_le_of_lt hmore (hp.length_le_half fun g hg => ?_)
  -- A class of the group has a recorded pair, whose other class can only be in the same group.
  obtain ⟨i, hi⟩ := List.exists_mem_of_ne_nil g (hp.ne_nil g hg)
  obtain ⟨j, hpair⟩ := h.exists_hasPair (hp.lt hg hi)
  obtain ⟨g', hg', hj⟩ := hp.exists_mem (hpair.lt h).2
  obtain ⟨p, hat⟩ := List.mem_iff_getElem?.mp hg
  obtain ⟨q, hat'⟩ := List.mem_iff_getElem?.mp hg'
  rcases Nat.lt_trichotomy p q with hlt | rfl | hlt
  · exact absurd (coupled_of_choice h hmeans hp hc hlt hat hat' ⟨i, hi, j, hj, hpair⟩) hnone
  · rw [hat] at hat'
    cases hat'
    exact two_le_length_of_ne hi hj (hpair.ne h)
  · exact absurd (coupled_of_choice h hmeans hp hc hlt hat' hat ⟨j, hj, i, hi, hpair.symm⟩) hnone

omit [LawfulScale R] in
/-- If its guard allows only merges of coupled groups, the couplings of a run are positive. -/
theorem coupled_of_run (hrun : MergeRun m.weightAt goesOn groups made last)
    (hcoupled : ∀ gs c, Partition m.classCount gs → mostCoupled? m.weightAt gs = some c →
      goesOn gs c.coupling → m.Coupled c.into c.absorbed)
    (hp : Partition m.classCount groups) {d : Candidate R} (hd : d ∈ made) :
    m.Coupled d.into d.absorbed ∧ less zero d.coupling := by
  have hstep := fun gs e (hgs : Partition m.classCount gs)
    (he : mostCoupled? m.weightAt gs = some e) (_ : goesOn gs e.coupling) =>
      hgs.join (mostCoupled?_of he)
  obtain ⟨gs, hgs, hchoice, hgo⟩ := (hrun.invariant hstep hp).2 d hd
  have hof := mostCoupled?_of hchoice
  have hpair := hcoupled gs d hgs hchoice hgo
  refine ⟨hpair, ?_⟩
  rw [hof.coupling_eq]
  exact average_pos h hmeans (hgs.length_le (List.mem_of_getElem? hof.into_at))
    (hgs.length_le (List.mem_of_getElem? hof.absorbed_at)) hpair

omit [LawfulScale R] in
/-- A cluster of two members or more has a positive cohesion if it is connected. -/
theorem cohesion_pos_of_connected (hp : m.ConnectedPartition groups) {members : Group}
    (hmem : members ∈ groups) (htwo : 2 ≤ members.length) :
    less zero (cohesion (m.weightAt : Weights R) members) := by
  have hnodup : members.Nodup :=
    (List.sublist_flatten_of_mem hmem).nodup hp.partition.nodup_flatten
  obtain ⟨x, hx, y, hy, hxy⟩ := (hp.connected members hmem).exists_adj (nodup_namesOf h hnodup)
    (by rwa [length_namesOf fun i hi => hp.partition.lt hmem hi])
  obtain ⟨i, j, hi, hj, hpair⟩ := (pairCount_pos_iff h).mp hxy
  obtain ⟨i', hi', hx'⟩ := mem_namesOf.mp hx
  obtain ⟨j', hj', hy'⟩ := mem_namesOf.mp hy
  rw [← class?_inj h hi hx'] at hi'
  rw [← class?_inj h hj hy'] at hj'
  exact cohesion_pos h hmeans (hp.partition.length_le hmem) hi' hj' hpair

/-- The step joins groups with a recorded pair between them, and its coupling is positive. -/
def FollowsPair (m : Matrix) (s : MergeStep R) : Prop :=
  (∃ x ∈ s.into, ∃ y ∈ s.absorbed, m.graph.Adj x y) ∧ less zero s.coupling

omit hmeans [LawfulScale R] in
theorem followsPair_of_mem_stepsOf {phase : Phase} {done : Nat} {s : MergeStep R}
    (hmade : ∀ d ∈ made, m.Coupled d.into d.absorbed ∧ less zero d.coupling)
    (hs : s ∈ m.stepsOf phase done made) : m.FollowsPair s := by
  obtain ⟨⟨d, k⟩, hd, rfl⟩ := List.mem_map.mp hs
  obtain ⟨hpair, hpos⟩ := hmade d (List.fst_mem_of_mem_zipIdx hd)
  exact ⟨hpair.exists_adj h, hpos⟩

/-- Whatever the threshold, the forced merges follow recorded pairs. -/
theorem followsPair_of_cardinality (threshold : R) (centralCount : Nat) {s : MergeStep R}
    (hs : s ∈ (m.cluster threshold centralCount).steps) (hphase : s.phase = .cardinality) :
    m.FollowsPair s := by
  refine followsPair_of_mem_stepsOf h (fun d hd => ?_)
    (mem_cardinality_steps threshold centralCount h hs hphase)
  exact coupled_of_run h hmeans (m.cardinalityPhase_run threshold)
    (fun gs c hp hc hgo => coupled_of_outnumbers h hmeans hp hc (of_decide_eq_true hgo).2)
    (m.thresholdPhase_partition threshold) hd

variable {threshold : R} (hthreshold : atMost zero threshold)
include hthreshold

theorem followsPair_of_mem_steps (centralCount : Nat) {s : MergeStep R}
    (hs : s ∈ (m.cluster threshold centralCount).steps) : m.FollowsPair s := by
  cases hphase : s.phase with
  | cardinality => exact followsPair_of_cardinality h hmeans threshold centralCount hs hphase
  | threshold =>
    rw [cluster_steps threshold h] at hs
    rcases List.mem_append.mp hs with hs | hs
    · refine followsPair_of_mem_stepsOf h (fun d hd => ?_) hs
      exact coupled_of_run h hmeans (m.thresholdPhase_run threshold)
        (fun gs c hp hc hgo =>
          coupled_of_exceeds h hmeans hthreshold hp (mostCoupled?_of hc) hgo)
        (Partition.singletons m) hd
    · rw [phase_of_mem_stepsOf hs] at hphase
      cases hphase

theorem connected_clusters : m.ConnectedPartition (m.cardinalityPhase threshold).groups := by
  refine connected_of_run h (m.cardinalityPhase_run threshold)
    (fun gs c hp hc hgo => coupled_of_outnumbers h hmeans hp hc (of_decide_eq_true hgo).2) ?_
  exact connected_of_run h (m.thresholdPhase_run threshold)
    (fun gs c hp hc hgo => coupled_of_exceeds h hmeans hthreshold hp (mostCoupled?_of hc) hgo)
    (connected_singletons m)

end merges

/-- At a threshold of zero or more every merge follows a recorded pair, so that every cluster is
connected and any two members of one make its cohesion positive. The forced merges follow recorded
pairs at any threshold. The invocations fit a counter of 64 bits. -/
theorem merges_follow_pairs (events : List Event) (htotal : (ofEvents events).total < 2 ^ 64)
    (centralCount : Nat) :
    let m := ofEvents events
    (∀ threshold : Float, 0.0 ≤ threshold →
      let o := m.cluster threshold centralCount
      (∀ s ∈ o.steps,
        (∃ x ∈ s.into, ∃ y ∈ s.absorbed, m.graph.Adj x y) ∧ 0.0 < s.coupling) ∧
      ∀ c ∈ o.clusters, (m.graph.induce {x | x ∈ c.members}).Connected ∧
        (∀ x ∈ c.members, ∀ y ∈ c.members, m.graph.Reachable x y) ∧
        (2 ≤ c.members.length → 0.0 < c.cohesion)) ∧
    ∀ threshold : Float, ∀ s ∈ (m.cluster threshold centralCount).steps,
      s.phase = .cardinality → ∃ x ∈ s.into, ∃ y ∈ s.absorbed, m.graph.Adj x y := by
  intro m
  have h : m.WellFormed := ofEvents_wellFormed events
  have hmeans : m.MeansPositive Float := meansPositive_of_total_lt h htotal
  refine ⟨fun threshold hthreshold => ⟨fun s hs => ?_, fun c hc => ?_⟩,
    fun threshold s hs hphase =>
      (followsPair_of_cardinality h hmeans threshold centralCount hs hphase).1⟩
  · obtain ⟨hadj, hpos⟩ :=
      followsPair_of_mem_steps h hmeans (decide_eq_true hthreshold) centralCount hs
    exact ⟨hadj, of_decide_eq_true hpos⟩
  · obtain ⟨members, hmem, id, rfl⟩ := mem_cluster_clusters threshold centralCount h hc
    have hp := connected_clusters h hmeans (decide_eq_true hthreshold)
    have hconnected := hp.connected members hmem
    refine ⟨hconnected, fun x hx y hy => hconnected.reachable hx hy, fun htwo => ?_⟩
    have hlength := length_namesOf fun i hi => hp.partition.lt hmem hi
    exact of_decide_eq_true (cohesion_pos_of_connected h hmeans hp hmem (hlength ▸ htwo))

theorem merges_follow_pairs_of_chain :
    let m := ofEvents [⟨"A", "B"⟩, ⟨"B", "C"⟩, ⟨"C", "D"⟩]
    m.total < 2 ^ 64 ∧ ∀ s ∈ (m.cluster (0.25 : Float) 5).steps,
      (∃ x ∈ s.into, ∃ y ∈ s.absorbed, m.graph.Adj x y) ∧ 0.0 < s.coupling :=
  ⟨by decide, ((merges_follow_pairs _ (by decide) 5).1 0.25 (by decide)).1⟩

end Matrix

end Linkage
