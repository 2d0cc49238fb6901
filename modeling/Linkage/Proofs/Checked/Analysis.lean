import Linkage.Proofs.Checked.Cluster
import Linkage.Proofs.Checked.Tally
import Linkage.Proofs.Matrix.Entries
import Linkage.Report.Graph

/-!
# Analyses with checked accesses

From the events to the graph with every access checked. With fewer classes than words no access
fails, so the checked analysis has the result of the analysis itself, and no call, pair or edge is
left out.
-/

namespace Linkage
open Scale

variable {R : Type} [Scale R] {m : Matrix}

namespace Matrix

def directedCounts? (m : Matrix) : Option (List (String × String × Nat)) :=
  m.callCounts.mapM fun ((a, b), n) => do return (← m.class? a, ← m.class? b, n)

def pairs? (m : Matrix) : Option (List (PairCoupling R)) :=
  m.pairCounts.mapM fun ((a, b), n) => do
    let pair ← ClassPair.of? (← m.class? a) (← m.class? b)
    return ⟨pair, n, m.share n⟩

theorem directedCounts?_eq (h : m.Canonical) : m.directedCounts? = some m.directedCounts := by
  apply mapM_eq_filterMap
  intro e he
  obtain ⟨-, hi, hj⟩ := h.call_lt e he
  simp [class?_eq_nameAt hi, class?_eq_nameAt hj]

theorem pairs?_eq (h : m.WellFormed) : m.pairs? = some (m.pairs : List (PairCoupling R)) := by
  apply mapM_eq_filterMap
  intro e he
  obtain ⟨hij, hj⟩ := h.key_lt e he
  have hpair : ClassPair.of? (m.nameAt e.1.1) (m.nameAt e.1.2) =
      some ⟨m.nameAt e.1.1, m.nameAt e.1.2⟩ :=
    ClassPair.of?_eq_some_iff.mpr ⟨before_nameAt h hij hj, Or.inl ⟨rfl, rfl⟩⟩
  simp [class?_eq_nameAt (hij.trans hj), class?_eq_nameAt hj, hpair]

end Matrix

namespace Summary

def intraSum? (w : Weights R) (groups : List Group) (b : Bracketing) : Option R := do
  let sums ← groups.mapM fun members => do
    let rows ← scanRows? (fun x later => later.filterMap (w x)) members
    return sumFrom zero rows.flatten
  return b.sum sums

def interAverages? (w : Weights R) (groups : List Group) : Option (List R) := do
  let averages ← scan? (fun _ _ a b => average w a b) groups
  return averages.filter fun x => less zero x

theorem intraSum?_eq (w : Weights R) (groups : List Group) (b : Bracketing) :
    intraSum? w groups b = some (intraSum w groups b) := by
  have hsums : (groups.mapM fun members => do
      let rows ← scanRows? (fun x later => later.filterMap (w x)) members
      return sumFrom zero rows.flatten) =
      some (groups.map fun members => sumFrom zero (recorded w (pairsOf members))) := by
    apply mapM_eq_map
    intro members _
    have hrows : (members.zipIdx.map fun p => (members.drop (p.2 + 1)).filterMap (w p.1)).flatten =
        recorded w (pairsOf members) := by
      rw [pairsOf_eq_flatMap, recorded, List.filterMap_flatMap, List.flatMap_def]
      simp only [List.filterMap_map]
      rfl
    rw [bind_of_some (scanRows?_eq ..), hrows]
    rfl
  rw [intraSum?, bind_of_some hsums]
  rfl

theorem interAverages?_eq (w : Weights R) (groups : List Group) :
    interAverages? w groups = some (interAverages w groups) := by
  have haverages : (pairsOf groups.zipIdx).map (fun p => average w p.1.1 p.2.1) =
      (pairsOf groups).map fun p => average w p.1 p.2 := by
    rw [← map_pairsOf_zipIdx groups, List.map_map]
    rfl
  rw [interAverages?, bind_of_some (scan?_eq ..), haverages]
  rfl

def ofClusters? (m : Matrix) (clusters : List (Cluster R)) (b : Bracketing) :
    Option (Summary R) := do
  let table : Matrix.WeightTable R := m.weightTable
  let w : Weights R := table.get
  let sizes := clusters.map Cluster.size
  let members := sizes.foldr (· + ·) 0
  let groups := clusters.map fun c => m.indexesOf c.members
  let divisor : R := ofCount (max clusters.length 1)
  let intra ← intraSum? w groups b
  let pairs ← m.pairs? (R := R)
  let inter ← interAverages? w groups
  let totalWeight : R := sum (pairs.map PairCoupling.weight)
  return {
    clusterCount := clusters.length
    classCount := members
    singletonCount := clusters.countP Cluster.isSingleton
    largest := sizes.max?.getD 0
    smallest := sizes.min?.getD 0
    averageSize := ofCount members / divisor
    averageCohesion := sum (clusters.map Cluster.cohesion) / divisor
    intraWeight := if less zero totalWeight then intra / totalWeight else zero
    interCoupling := if inter.isEmpty then zero else sum inter / ofCount inter.length }

theorem ofClusters?_eq (h : m.WellFormed) (clusters : List (Cluster R)) (b : Bracketing) :
    ofClusters? m clusters b = some (ofClusters m clusters b) := by
  refine (bind_of_some (intraSum?_eq ..) _).trans ?_
  refine (bind_of_some (Matrix.pairs?_eq h) _).trans ?_
  exact (bind_of_some (interAverages?_eq ..) _).trans rfl

end Summary

def analyze? (events : List Event) (config : Config R) (b : Bracketing) :
    Option (Analysis R) := do
  let tally ← Tally.empty.recordAll? events
  let matrix ← tally.build?
  let outcome ← matrix.cluster? config.threshold config.centralCount
  let summary ← Summary.ofClusters? matrix outcome.clusters b
  return { matrix, outcome, summary, selfTotal := tally.selfTotal }

theorem analyze?_eq {events : List Event} (h : (Matrix.ofEvents events).classCount < 2 ^ 32)
    (config : Config R) (b : Bracketing) :
    analyze? events config b = some (analyze events config b) := by
  have hconsistent := Tally.recordAll_consistent Tally.empty_consistent events
  have hcalls := Tally.recordAll_callsConsistent Tally.empty_consistent Tally.empty_callsConsistent
    events
  have hsize : (Tally.empty.recordAll events).names.size ≤ 2 ^ 32 := by
    rw [← Tally.length_classes hconsistent.numbered]
    exact Nat.le_of_lt h
  have hcount : (Tally.empty.recordAll events).build.classCount < 2 ^ 32 := h
  rw [analyze?, bind_of_some (Tally.recordAll?_eq hsize),
    bind_of_some (Tally.build?_eq hconsistent hcalls hsize),
    bind_of_some (Matrix.cluster?_eq hcount config.threshold config.centralCount),
    bind_of_some (Summary.ofClusters?_eq (Tally.build_wellFormed hconsistent) _ b)]
  rfl

namespace Report

/-- The lines of the graph with an edge for every pair. -/
def graphLines? (m : Matrix) (clusters : List (Cluster Float)) : Option (List String) := do
  let pairs ← m.pairs?
  let edges ← pairs.zipIdx.mapM fun (p, k) => do
    return edgeLines k (← m.indexOf? p.pair.first) (← m.indexOf? p.pair.second) p.weight
  return graphHead ++
    (m.classes.zipIdx.flatMap fun (name, i) => nodeLines i name (assigned? clusters name)) ++
    edges.flatten ++ graphFoot

theorem graphLines?_eq (h : m.WellFormed) (clusters : List (Cluster Float)) :
    graphLines? m clusters = some (graphLines m clusters) := by
  have hedges : ((m.pairs : List (PairCoupling Float)).zipIdx.mapM fun (p, k) => do
      return edgeLines k (← m.indexOf? p.pair.first) (← m.indexOf? p.pair.second) p.weight) =
      some ((m.pairs : List (PairCoupling Float)).zipIdx.map fun (p, k) => pairLines m p k) := by
    apply mapM_eq_map
    intro e he
    obtain ⟨hfirst, hsecond⟩ := Matrix.mem_classes_of_mem_pairs h (List.fst_mem_of_mem_zipIdx he)
    obtain ⟨source, hsource⟩ := Option.isSome_iff_exists.mp (List.isSome_idxOf?.mpr hfirst)
    obtain ⟨target, htarget⟩ := Option.isSome_iff_exists.mp (List.isSome_idxOf?.mpr hsecond)
    simp [pairLines, Matrix.indexOf?, hsource, htarget]
  rw [graphLines?, bind_of_some (Matrix.pairs?_eq h), bind_of_some hedges, ← List.flatMap_def]
  rfl

end Report

/-- With fewer classes than words, and whatever the configuration, every access of an analysis and
of the lists and the graph that are made from it is in range. -/
theorem accesses_in_range {events : List Event}
    (h : (Matrix.ofEvents events).classCount < 2 ^ 32) (config : Config R) (b : Bracketing) :
    analyze? events config b = some (analyze events config b) ∧
      (Matrix.ofEvents events).directedCounts? = some (Matrix.ofEvents events).directedCounts ∧
      (Matrix.ofEvents events).pairs? = some ((Matrix.ofEvents events).pairs (R := R)) ∧
      ∀ clusters, Report.graphLines? (Matrix.ofEvents events) clusters =
        some (Report.graphLines (Matrix.ofEvents events) clusters) := by
  have hcanonical := Matrix.ofEvents_canonical events
  have hformed := hcanonical.toWellFormed
  exact ⟨analyze?_eq h config b, Matrix.directedCounts?_eq hcanonical, Matrix.pairs?_eq hformed,
    Report.graphLines?_eq hformed⟩

/-- Calls in both directions, a class that invokes itself, and a threshold that is no number. -/
theorem accesses_in_range_of_chain :
    let events : List Event := [⟨"b", "a"⟩, ⟨"c", "b"⟩, ⟨"c", "c"⟩, ⟨"d", "c"⟩, ⟨"a", "b"⟩]
    let config : Config Float := ⟨0.0 / 0.0, [], 3, 2⟩
    (Matrix.ofEvents events).classCount < 2 ^ 32 ∧
      analyze? events config .inOrder = some (analyze events config .inOrder) ∧
      (Matrix.ofEvents events).directedCounts? = some (Matrix.ofEvents events).directedCounts := by
  intro events config
  have hcount : (Matrix.ofEvents events).classCount < 2 ^ 32 := by decide +kernel
  obtain ⟨hanalysis, hcalls, -⟩ := accesses_in_range hcount config .inOrder
  exact ⟨hcount, hanalysis, hcalls⟩

end Linkage
