import Linkage.Analysis
import Linkage.Proofs.Cluster.Outcome
import Linkage.Proofs.Matrix.Renamed
import Linkage.Proofs.Matrix.Repeated
import Linkage.Proofs.Scale.Bracketing

/-!
# Analyses of related events

Clustering sees the classes as indexes with weights and names only its results, and a summary sees
no names at all. So names that keep their order can be replaced before an analysis or after it.
Repeating all events changes no weight, and so it changes nothing but the counts. The brackets of
the one sum that several workers add show in the share of the weight inside clusters only.
-/

namespace Linkage
open Scale

section rename

variable {R : Type}

def Cluster.rename (f : String → String) (c : Cluster R) : Cluster R :=
  { c with members := c.members.map f, central := c.central.map f }

def MergeStep.rename (f : String → String) (s : MergeStep R) : MergeStep R :=
  { s with into := s.into.map f, absorbed := s.absorbed.map f }

def Outcome.rename (f : String → String) (o : Outcome R) : Outcome R :=
  { o with
    clusters := o.clusters.map (Cluster.rename f)
    steps := o.steps.map (MergeStep.rename f) }

/-- The analysis with other names of its classes. The summary has no names. -/
def Analysis.rename (f : String → String) (a : Analysis R) : Analysis R :=
  { a with matrix := a.matrix.rename f, outcome := a.outcome.rename f }

end rename

section dependence

variable {R : Type} [Scale R] {m m' : Matrix}

theorem Matrix.cluster_rename (f : String → String) (m : Matrix) (threshold : R)
    (centralCount : Nat) :
    (m.rename f).cluster threshold centralCount = (m.cluster threshold centralCount).rename f := by
  have htable : ((m.rename f).weightTable : Matrix.WeightTable R) = m.weightTable := rfl
  simp only [cluster, Outcome.rename, singletons, stepsOf, classCount_rename, htable,
    List.map_append, List.map_map]
  simp [clusterOf, namesOf_rename, Function.comp_def, Cluster.rename, MergeStep.rename]

theorem Matrix.cluster_congr (hclasses : m'.classes = m.classes)
    (htable : (m'.weightTable : Matrix.WeightTable R) = m.weightTable) (threshold : R)
    (centralCount : Nat) :
    m'.cluster threshold centralCount = m.cluster threshold centralCount := by
  have hclass : m'.class? = m.class? := by
    funext i
    rw [class?, class?, hclasses]
  simp only [cluster, singletons, stepsOf, clusterOf, namesOf, classCount, hclasses, hclass,
    htable]

/-- A summary depends on the weights and on the sizes, the cohesions and the indexes of the
clusters, and on the brackets. -/
theorem Summary.ofClusters_congr {clusters clusters' : List (Cluster R)} {b : Bracketing}
    (htable : (m'.weightTable : Matrix.WeightTable R) = m.weightTable)
    (hweights : (m'.pairs : List (PairCoupling R)).map PairCoupling.weight =
      m.pairs.map PairCoupling.weight)
    (hsizes : clusters'.map Cluster.size = clusters.map Cluster.size)
    (hcohesions : clusters'.map Cluster.cohesion = clusters.map Cluster.cohesion)
    (hindexes : (clusters'.map fun c => m'.indexesOf c.members) =
      clusters.map fun c => m.indexesOf c.members) :
    Summary.ofClusters m' clusters' b = Summary.ofClusters m clusters b := by
  have hlength : clusters'.length = clusters.length := by
    have hlength := congrArg List.length hsizes
    rwa [List.length_map, List.length_map] at hlength
  have hsingle (cs : List (Cluster R)) :
      cs.countP Cluster.isSingleton = (cs.map Cluster.size).countP (· == 1) := by
    rw [List.countP_map]
    rfl
  simp only [ofClusters, hsingle, htable, hweights, hsizes, hcohesions, hindexes, hlength]

/-- Brackets that give the same sums of as many summands as there are clusters give the same
summary. -/
theorem Summary.ofClusters_agree {clusters : List (Cluster R)} {b b' : Bracketing}
    (h : b'.Agree R b clusters.length) :
    Summary.ofClusters m clusters b' = Summary.ofClusters m clusters b := by
  have hsum (w : Weights R) : intraSum w (clusters.map fun c => m.indexesOf c.members) b' =
      intraSum w (clusters.map fun c => m.indexesOf c.members) b :=
    h _ (by rw [List.length_map, List.length_map])
  simp only [ofClusters, hsum]

/-- The summary with another weight inside clusters. -/
def Summary.withIntraWeight (s : Summary R) (x : R) : Summary R := { s with intraWeight := x }

/-- Brackets show in no other figure. -/
theorem Summary.ofClusters_bracketing (m : Matrix) (clusters : List (Cluster R))
    (b b' : Bracketing) : Summary.ofClusters m clusters b' =
      (Summary.ofClusters m clusters b).withIntraWeight
        (Summary.ofClusters m clusters b').intraWeight := rfl

end dependence

section renamed

variable {R : Type} [Scale R] {events : List Event} {f : String → String}

theorem selfTotal_rename (hf : StrictMonoOn f (eventNames events)) :
    (Tally.empty.recordAll (events.map (Event.rename f))).selfTotal =
      (Tally.empty.recordAll events).selfTotal := by
  rw [Tally.selfTotal_recordAll, Tally.selfTotal_recordAll, List.countP_map]
  exact List.countP_congr fun e he => by simp [Matrix.isSelf_rename hf he]

theorem summary_rename {m : Matrix} {names : Set String} {clusters : List (Cluster R)}
    (hclasses : ∀ name ∈ m.classes, name ∈ names) (hf : StrictMonoOn f names)
    (hmembers : ∀ c ∈ clusters, ∀ name ∈ c.members, name ∈ names) (b : Bracketing) :
    Summary.ofClusters (m.rename f) (clusters.map (Cluster.rename f)) b =
      Summary.ofClusters m clusters b := by
  refine Summary.ofClusters_congr rfl ?_ ?_ ?_ ?_
  · rw [Matrix.pairs_rename hclasses hf, List.map_map]
    rfl
  · rw [List.map_map]
    rfl
  · rw [List.map_map]
    rfl
  · rw [List.map_map]
    refine List.map_congr_left fun c hc => ?_
    rw [Function.comp_apply, Cluster.rename, Matrix.indexesOf, Matrix.indexesOf,
      List.filterMap_map]
    exact List.filterMap_congr fun name hname =>
      Matrix.indexOf?_rename hclasses hf.injOn (hmembers c hc name hname)

/-- The brackets of three clusters can show in the last bit of the weight inside them. -/
example :
    let events : List Event := [⟨"A", "B"⟩, ⟨"C", "D"⟩, ⟨"E", "F"⟩, ⟨"E", "F"⟩, ⟨"E", "F"⟩,
      ⟨"E", "F"⟩]
    let config : Config Float := ⟨0.0, [], 1, 10⟩
    (analyze events config .inOrder).summary.intraWeight ≠
      (analyze events config (.cut 1 .inOrder .inOrder)).summary.intraWeight := by
  decide +kernel

end renamed

/-- Coupling is normalised. Repeating all events multiplies every count, and leaves the classes, the
recorded pairs, the weights, the clusters and the summary as they are, whatever the brackets. -/
theorem analyze_repeated (events : List Event) {k : Nat} (hk : 1 ≤ k) (config : Config Rat)
    (b b' : Bracketing) :
    let a := analyze events config b
    let a' := analyze (List.replicate k events).flatten config b'
    a'.matrix.classes = a.matrix.classes ∧
    (a'.matrix.pairs : List (PairCoupling Rat)) =
      a.matrix.pairs.map (PairCoupling.repeated k) ∧
    (∀ x y, a'.matrix.pairCount x y = k * a.matrix.pairCount x y ∧
      a'.matrix.directedCount x y = k * a.matrix.directedCount x y ∧
      (a'.matrix.weight x y : Option Rat) = a.matrix.weight x y) ∧
    a'.matrix.total = k * a.matrix.total ∧ a'.selfTotal = k * a.selfTotal ∧
    a'.outcome = a.outcome ∧ a'.summary = a.summary := by
  intro a a'
  have h : a.matrix.Canonical := Matrix.ofEvents_canonical events
  have hmatrix : a'.matrix = a.matrix.repeated k := Matrix.ofEvents_repeated events hk
  have hclasses : (a.matrix.repeated k).classes = a.matrix.classes := rfl
  have htable := Matrix.weightTable_repeated h hk
  have hpairs := Matrix.pairs_repeated h hk
  have houtcome : a'.outcome = a.outcome := by
    refine (congrArg (Matrix.cluster · config.threshold config.centralCount) hmatrix).trans ?_
    exact Matrix.cluster_congr hclasses htable config.threshold config.centralCount
  have hsummary : a'.summary = a.summary := by
    show Summary.ofClusters a'.matrix a'.outcome.clusters b' = _
    rw [hmatrix, houtcome, Summary.ofClusters_agree (Fraction.agree b' b _)]
    refine Summary.ofClusters_congr htable ?_ rfl rfl rfl
    rw [hpairs, List.map_map]
    rfl
  have hself : a'.selfTotal = k * a.selfTotal := by
    refine (Tally.selfTotal_recordAll _).trans ?_
    rw [countP_flatten_replicate, ← Tally.selfTotal_recordAll]
    rfl
  refine ⟨?_, ?_, fun x y => ⟨?_, ?_, ?_⟩, ?_, hself, houtcome, hsummary⟩
  · rw [hmatrix, hclasses]
  · rw [hmatrix, hpairs]
  · rw [hmatrix, Matrix.pairCount_repeated]
  · rw [hmatrix, Matrix.directedCount_repeated]
  · rw [hmatrix, Matrix.weight_repeated h hk]
  · rw [hmatrix]
    rfl

theorem analyze_repeated_thrice :
    let events : List Event := [⟨"A", "B"⟩, ⟨"B", "A"⟩, ⟨"C", "D"⟩, ⟨"B", "C"⟩, ⟨"E", "E"⟩]
    let config : Config Rat := ⟨1 / 3, [], 1, 10⟩
    let b : Bracketing := .cut 1 .inOrder .inOrder
    let a' := analyze (List.replicate 3 events).flatten config b
    a'.matrix.pairCount "A" "B" = 6 ∧ a'.matrix.total = 12 ∧ a'.selfTotal = 3 ∧
      a'.outcome = (analyze events config .inOrder).outcome := by
  intro events config b a'
  obtain ⟨-, -, hcounts, htotal, hself, houtcome, -⟩ :=
    analyze_repeated events (show 1 ≤ 3 by decide) config .inOrder b
  have hpair : (analyze events config .inOrder).matrix.pairCount "A" "B" = 2 := by decide +kernel
  have htotal' : (analyze events config .inOrder).matrix.total = 4 := by decide +kernel
  have hself' : (analyze events config .inOrder).selfTotal = 1 := by decide +kernel
  exact ⟨(hcounts "A" "B").1.trans (congrArg (3 * ·) hpair),
    htotal.trans (congrArg (3 * ·) htotal'), hself.trans (congrArg (3 * ·) hself'), houtcome⟩

end Linkage
