import Linkage.Proofs.Cluster.Finite
import Linkage.Proofs.Cluster.Outcome
import Linkage.Proofs.Cluster.Record
import Linkage.Proofs.Config
import Linkage.Proofs.Json.Null
import Linkage.Proofs.Matrix.Conservation
import Linkage.Proofs.Report.Files

/-!
# Saved results are read back

The files of a saved analysis hold all of it: each part is read from its member by its own form, no
number is written as null, and a number that stands in two places is the same in both.
-/

namespace Linkage

namespace Matrix

variable {m : Matrix} (h : m.WellFormed) (threshold : Float) (centralCount : Nat)

include h

theorem summary_counts_le {s : Summary Float} {b : Scale.Bracketing}
    (hs : s = Summary.ofClusters m (m.cluster threshold centralCount).clusters b) :
    ∀ n ∈ [s.clusterCount, s.classCount, s.singletonCount, s.largest, s.smallest],
      n ≤ m.classCount := by
  have hlength : (m.cluster threshold centralCount).clusters.length ≤ m.classCount :=
    Nat.le.intro (length_clusters_add_steps threshold centralCount h)
  have hsizes : ∀ n ∈ (m.cluster threshold centralCount).clusters.map Cluster.size,
      n ≤ m.classCount := List.forall_mem_map.mpr fun c => size_le threshold centralCount h
  have hextreme {n : Option Nat}
      (hn : ∀ k, n = some k → k ∈ (m.cluster threshold centralCount).clusters.map Cluster.size) :
      n.getD 0 ≤ m.classCount := by
    cases n with
    | none => exact Nat.zero_le _
    | some k => exact hsizes k (hn k rfl)
  subst hs
  simp only [List.forall_mem_cons]
  exact ⟨hlength, (sum_size threshold centralCount h).le, List.countP_le_length.trans hlength,
    hextreme fun k => List.max?_mem, hextreme fun k => List.min?_mem, nofun⟩

end Matrix

namespace Report
open Json

theorem forall_mem_savedValues {a : Analysis Float} {stats : FilterStats} {topPairs : Nat}
    {p : Value → Prop} : (∀ v ∈ savedValues a stats topPairs, p v) ↔
      p (summaryJson a stats topPairs) ∧ p (matrixJson a.matrix) ∧ p (clustersJson a.outcome) ∧
        p (stepsJson a.outcome) := by
  simp [savedValues]

section doubles

variable (a : Analysis Float) (stats : FilterStats) (topPairs : Nat)

theorem reals_pairs (ps : List (PairCoupling Float)) :
    (PairCoupling.format.list.toJson ps).reals = ps.map PairCoupling.weight :=
  Format.reals_list_map PairCoupling.reals_toJson ps

theorem reals_summaryJson : (summaryJson a stats topPairs).reals =
    (a.matrix.strongestPairs topPairs).map PairCoupling.weight ++ a.outcome.threshold ::
      [a.summary.averageSize, a.summary.averageCohesion, a.summary.intraWeight,
        a.summary.interCoupling] := by
  show ((PairCoupling.format.list.toJson (a.matrix.strongestPairs topPairs)).reals ++ []) ++
    a.outcome.threshold :: ((Summary.format.toJson a.summary).reals ++ []) = _
  rw [List.append_nil, List.append_nil, reals_pairs, Summary.reals_toJson]

theorem reals_matrixJson (m : Matrix) :
    (matrixJson m).reals = (m.pairs : List (PairCoupling Float)).map PairCoupling.weight := by
  show (nameFormat.list.toJson m.classes).reals ++
    ((PairCoupling.format.list.toJson m.pairs).reals ++ []) = _
  rw [reals_nameList, reals_pairs, List.append_nil, List.nil_append]

theorem reals_clustersJson (o : Outcome Float) :
    (clustersJson o).reals = o.clusters.map Cluster.cohesion := by
  show (Cluster.format.list.toJson o.clusters).reals ++ [] = _
  rw [Format.reals_list_map Cluster.reals_toJson, List.append_nil]

theorem reals_stepsJson (o : Outcome Float) :
    (stepsJson o).reals = o.steps.map MergeStep.coupling := by
  show (MergeStep.format.list.toJson o.steps).reals ++ [] = _
  rw [Format.reals_list_map MergeStep.reals_toJson, List.append_nil]

end doubles

section analyze

variable {events : List Event} {config : Config Float} (b : Scale.Bracketing)
  (stats : FilterStats) (topPairs : Nat)

/-- No division is by zero, and nothing grows beyond the range of doubles. -/
theorem isFinite_saved (hconfig : config.validate = .ok config)
    (htotal : (Matrix.ofEvents events).total < 2 ^ 64) :
    ∀ v ∈ savedValues (analyze events config b) stats topPairs, ∀ x ∈ v.reals, x.isFinite := by
  have h := Matrix.ofEvents_wellFormed events
  have hcounts := Matrix.pairCounts_le_total events
  have hpair : ∀ p ∈ ((Matrix.ofEvents events).pairs : List (PairCoupling Float)),
      p.weight.isFinite := fun p hp => (Matrix.moderate_weight htotal h hcounts hp).isFinite
  have hstrongest : ∀ p ∈ ((Matrix.ofEvents events).strongestPairs topPairs :
      List (PairCoupling Float)), p.weight.isFinite :=
    fun p hp => hpair p (Matrix.mem_pairs_of_mem_strongestPairs hp)
  have hlength := Nat.le.intro
    (Matrix.length_clusters_add_steps config.threshold config.centralCount h)
  obtain ⟨hsize, hcohesion, hintra, hinter⟩ := Matrix.summary_finite h hcounts htotal hlength
    (fun c => Matrix.length_members_le config.threshold config.centralCount h) b
    (Matrix.sum_size config.threshold config.centralCount h).le
    (fun c => Matrix.moderate_cohesion h hcounts htotal config.threshold config.centralCount)
  rw [forall_mem_savedValues, reals_summaryJson, reals_matrixJson, reals_clustersJson,
    reals_stepsJson]
  simp only [List.forall_mem_append, List.forall_mem_cons, List.forall_mem_map]
  have hthreshold := (Config.validate_eq_ok_iff.mp hconfig).2
  exact ⟨⟨hstrongest, hthreshold, hsize, hcohesion, hintra, hinter, nofun⟩, hpair,
    fun c hc => (Matrix.moderate_cohesion h hcounts htotal _ _ hc).isFinite,
    fun s hs => (Matrix.moderate_coupling h hcounts htotal _ _ hs).isFinite⟩

end analyze

theorem nullsAreReals_saved (a : Analysis Float) (stats : FilterStats) (topPairs : Nat) :
    ∀ v ∈ savedValues a stats topPairs, v.NullsAreReals := by
  have hlist {α : Type} (f : Format α) (xs : List α) : (f.list.toJson xs).NullsAreReals :=
    f.list.output.nullsAreReals_toJson _
  have hfiltering : (filteringJson stats).NullsAreReals :=
    nullsAreReals_object <| by
      simp only [List.forall_mem_cons, nullsAreReals_natural, true_and]
      exact nofun
  have hcoupling : (couplingJson a.matrix topPairs).NullsAreReals :=
    nullsAreReals_object <| by
      simp only [List.forall_mem_cons, nullsAreReals_natural, hlist, true_and]
      exact nofun
  have hclustering : (clusteringJson a.outcome).NullsAreReals :=
    nullsAreReals_object <| by
      simp only [List.forall_mem_cons, nullsAreReals_natural, nullsAreReals_real, true_and]
      exact nofun
  have hsummary : (Summary.format.toJson a.summary).NullsAreReals :=
    Summary.format.output.nullsAreReals_toJson _
  refine forall_mem_savedValues.mpr ⟨nullsAreReals_object ?_, nullsAreReals_object ?_,
    nullsAreReals_object ?_, nullsAreReals_object ?_⟩
  · simp only [List.forall_mem_cons]
    exact ⟨hfiltering, hcoupling, hclustering, hsummary, nofun⟩
  · simp only [List.forall_mem_cons]
    exact ⟨nullsAreReals_natural _, hlist nameFormat _, hlist PairCoupling.format _, nofun⟩
  · exact List.forall_mem_singleton.mpr (hlist Cluster.format _)
  · exact List.forall_mem_singleton.mpr (hlist MergeStep.format _)

section members

variable {a : Analysis Float} {stats : FilterStats} {topPairs : Nat}

theorem restores_clusters {o : Outcome Float} (hid : ∀ c ∈ o.clusters, c.id < 2 ^ 32)
    (hsize : ∀ c ∈ o.clusters, c.size < 2 ^ 64) (hreals : ∀ x ∈ (clustersJson o).reals, Kept x) :
    (Cluster.format.list.member "clusters").Restores (clustersJson o) o.clusters := by
  rw [reals_clustersJson, List.forall_mem_map] at hreals
  have hlist : Cluster.format.list.Restores (Cluster.format.list.toJson o.clusters) o.clusters :=
    .list fun c hc => Cluster.restores (hid c hc) (hsize c hc) (hreals c hc)
  exact hlist.member (by simp) (.head _)

theorem restores_steps {o : Outcome Float} (hstep : ∀ s ∈ o.steps, s.step < 2 ^ 64)
    (hreals : ∀ x ∈ (stepsJson o).reals, Kept x) :
    (MergeStep.format.list.member "steps").Restores (stepsJson o) o.steps := by
  rw [reals_stepsJson, List.forall_mem_map] at hreals
  have hlist : MergeStep.format.list.Restores (MergeStep.format.list.toJson o.steps) o.steps :=
    .list fun s hs => MergeStep.restores (hstep s hs) (hreals s hs)
  exact hlist.member (by simp) (.head _)

theorem restores_pairs {m : Matrix}
    (hcount : ∀ p ∈ (m.pairs : List (PairCoupling Float)), p.invocations < 2 ^ 64)
    (hreals : ∀ x ∈ (matrixJson m).reals, Kept x) :
    (PairCoupling.format.list.member "pairs").Restores (matrixJson m) m.pairs := by
  rw [reals_matrixJson, List.forall_mem_map] at hreals
  have hlist :
      PairCoupling.format.list.Restores (PairCoupling.format.list.toJson m.pairs) m.pairs :=
    .list fun p hp => PairCoupling.restores (hcount p hp) (hreals p hp)
  exact hlist.member (by simp) (.tail _ (.tail _ (.head _)))

theorem restores_classes (m : Matrix) :
    (nameFormat.list.member "classes").Restores (matrixJson m) m.classes :=
  (restores_names m.classes).member (by simp) (.tail _ (.head _))

theorem restores_summary
    (hcounts : ∀ n ∈ [a.summary.clusterCount, a.summary.classCount, a.summary.singletonCount,
      a.summary.largest, a.summary.smallest], n < 2 ^ 64)
    (hreals : ∀ x ∈ (summaryJson a stats topPairs).reals, Kept x) :
    (Summary.format.member "cluster_stats").Restores (summaryJson a stats topPairs) a.summary := by
  rw [reals_summaryJson, List.forall_mem_append, List.forall_mem_cons] at hreals
  exact (Summary.restores hcounts hreals.2.2).member (by simp)
    (.tail _ (.tail _ (.tail _ (.head _))))

theorem restores_inCoupling {α : Type} {f : Format α} {x : α}
    (h : f.Restores (couplingJson a.matrix topPairs) x) :
    (f.member "coupling_stats").Restores (summaryJson a stats topPairs) x :=
  h.member (by simp) (.tail _ (.head _))

theorem restores_inClustering {α : Type} {f : Format α} {x : α}
    (h : f.Restores (clusteringJson a.outcome) x) :
    (f.member "clustering").Restores (summaryJson a stats topPairs) x :=
  h.member (by simp) (.tail _ (.tail _ (.head _)))

theorem restores_strongest
    (hcount : ∀ p ∈ (a.matrix.strongestPairs topPairs : List (PairCoupling Float)),
      p.invocations < 2 ^ 64)
    (hreals : ∀ x ∈ (summaryJson a stats topPairs).reals, Kept x) :
    ((PairCoupling.format.list.member "strongest_pairs").member "coupling_stats").Restores
      (summaryJson a stats topPairs) (a.matrix.strongestPairs topPairs) := by
  rw [reals_summaryJson, List.forall_mem_append, List.forall_mem_map] at hreals
  have hlist : PairCoupling.format.list.Restores
      (PairCoupling.format.list.toJson (a.matrix.strongestPairs topPairs))
      (a.matrix.strongestPairs topPairs) :=
    .list fun p hp => PairCoupling.restores (hcount p hp) (hreals.1 p hp)
  exact restores_inCoupling (hlist.member (by simp) (.tail _ (.tail _ (.tail _ (.head _)))))

end members

/-! ### Results in a directory -/

/-- What a file of a directory says in a JSON form. -/
def readBack {α : Type} (t : Files.Tree) (directory name : String) (f : Format α) :
    Except Error α := do
  let content ← readContent t (Files.join directory name) .jsonFile
  (f.decode content.toBytes).mapError .json

/-- The results of an analysis are read back from the members that hold them. -/
structure Restored (a : Analysis Float) (t : Files.Tree) (directory : String) : Prop where
  clusters : readBack t directory "clusters.json" (Cluster.format.list.member "clusters") =
    .ok a.outcome.clusters
  steps : readBack t directory "merge_steps.json" (MergeStep.format.list.member "steps") =
    .ok a.outcome.steps
  pairs : readBack t directory "coupling_matrix.json" (PairCoupling.format.list.member "pairs") =
    .ok a.matrix.pairs
  classes : readBack t directory "coupling_matrix.json" (nameFormat.list.member "classes") =
    .ok a.matrix.classes
  summary : readBack t directory "summary.json" (Summary.format.member "cluster_stats") =
    .ok a.summary

/-- A number of a part of the summary. -/
def readFigure (t : Files.Tree) (directory part name : String) : Except Error Nat :=
  readBack t directory "summary.json" ((naturalFormat.member name).member part)

/-- What the files say twice is the same in both places. -/
structure Consistent (a : Analysis Float) (t : Files.Tree) (directory : String) : Prop where
  pairCount : readFigure t directory "coupling_stats" "coupled_pair_count" =
    .ok (a.matrix.pairs : List (PairCoupling Float)).length
  classCount : readFigure t directory "coupling_stats" "class_count" = .ok a.matrix.classes.length
  summaryClassCount : a.summary.classCount = a.matrix.classes.length
  total : readFigure t directory "coupling_stats" "total_invocations" = .ok a.matrix.total ∧
    readBack t directory "coupling_matrix.json" (naturalFormat.member "total_invocations") =
      .ok a.matrix.total
  strongest : ∃ strongest, readBack t directory "summary.json"
      ((PairCoupling.format.list.member "strongest_pairs").member "coupling_stats") =
        .ok strongest ∧
    strongest ⊆ a.matrix.pairs
  merges : ∃ byThreshold forced,
    readFigure t directory "clustering" "threshold_merges" = .ok byThreshold ∧
    readFigure t directory "clustering" "forced_merges" = .ok forced ∧
    byThreshold + forced = a.outcome.steps.length
  clusterCount : a.summary.clusterCount = a.outcome.clusters.length

theorem readBack_of_restores {α : Type} {f : Format α} {t : Files.Tree} {directory name : String}
    {v : Value} {x : α} (h : f.Restores v x)
    (hread : t.read (Files.join directory name) = .ok (.bytes (Text.encode v.sorted.pretty))) :
    readBack t directory name f = .ok x := by
  have hfind : (t.find? (Files.join directory name)).isNone = false := by
    rw [Files.Tree.read] at hread
    cases hfind : t.find? (Files.join directory name) with
    | none =>
      rw [hfind] at hread
      cases hread
    | some entry => rfl
  have hcontent : readContent t (Files.join directory name) .jsonFile =
      .ok (.bytes (Text.encode v.sorted.pretty)) := by
    rw [readContent, hfind, hread]
    rfl
  rw [readBack, hcontent]
  show (f.decode (Text.encode v.sorted.pretty)).mapError Error.json = _
  rw [h.decode]
  rfl

section results

variable {events : List Event} {config : Config Float} {b : Scale.Bracketing} {stats : FilterStats}
  {topPairs : Nat} {directory : String} {before after : Files.Tree}
  (hclasses : (Matrix.ofEvents events).classCount ≤ 2 ^ 32)
  (htotal : (Matrix.ofEvents events).total < 2 ^ 64)
  (hkept : ∀ v ∈ savedValues (analyze events config b) stats topPairs, ∀ x ∈ v.reals, Kept x)
  (hsave : (save (analyze events config b) stats topPairs directory).run before = (.ok (), after))

include hclasses htotal hkept hsave

theorem restored_of_save : Restored (analyze events config b) after directory := by
  have h := Matrix.ofEvents_wellFormed events
  have hword : (2 : Nat) ^ 32 < 2 ^ 64 := by decide
  have hfiles := read_save hsave
  obtain ⟨hsummary, hmatrix, hclusters, hsteps⟩ := forall_mem_savedValues.mp hkept
  refine ⟨?_, ?_, ?_, ?_, ?_⟩
  · refine readBack_of_restores (restores_clusters (fun c hc => ?_) (fun c hc => ?_) hclusters)
      (hfiles _ (.tail _ (.tail _ (.head _))))
    · exact (Matrix.id_lt _ _ h hc).trans_le hclasses
    · exact (Matrix.size_le _ _ h hc).trans_lt (hclasses.trans_lt hword)
  · refine readBack_of_restores (restores_steps (fun s hs => ?_) hsteps)
      (hfiles _ (.tail _ (.tail _ (.tail _ (.head _)))))
    exact (Matrix.step_le _ _ h hs).trans_lt (hclasses.trans_lt hword)
  · refine readBack_of_restores (restores_pairs (fun p hp => ?_) hmatrix)
      (hfiles _ (.tail _ (.head _)))
    exact (Matrix.invocations_le_total hp).trans_lt htotal
  · exact readBack_of_restores (restores_classes _) (hfiles _ (.tail _ (.head _)))
  · refine readBack_of_restores (restores_summary (fun n hn => ?_) hsummary) (hfiles _ (.head _))
    exact (Matrix.summary_counts_le h _ _ rfl n hn).trans_lt (hclasses.trans_lt hword)

theorem consistent_of_save : Consistent (analyze events config b) after directory := by
  have h := Matrix.ofEvents_wellFormed events
  have hcount {n : Nat} (hn : n ≤ (Matrix.ofEvents events).classCount) : n < 2 ^ 64 :=
    hn.trans_lt (hclasses.trans_lt (by decide))
  have hpairs := (Matrix.pairTotal_le_total events).trans_lt htotal
  have hmerges := (analyze events config b).outcome.mergesIn_add
  have hlength : (analyze events config b).outcome.steps.length < 2 ^ 64 :=
    hcount ((Nat.le_add_left ..).trans (Matrix.length_clusters_add_steps _ _ h).le)
  have hfiles := read_save hsave
  have hread := hfiles _ (.head _)
  refine ⟨?_, ?_, Matrix.sum_size _ _ h, ⟨?_, ?_⟩,
    ⟨(Matrix.ofEvents events).strongestPairs topPairs, ?_,
      fun p => Matrix.mem_pairs_of_mem_strongestPairs⟩, ⟨_, _, ?_, ?_, hmerges⟩, rfl⟩
  · show _ = Except.ok ((Matrix.ofEvents events).pairs : List (PairCoupling Float)).length
    rw [Matrix.length_pairs h]
    exact readBack_of_restores (restores_inCoupling ((restores_natural hpairs).member (by simp)
      (.tail _ (.head _)))) hread
  · exact readBack_of_restores (restores_inCoupling ((restores_natural (hcount le_rfl)).member
      (by simp) (.head _))) hread
  · exact readBack_of_restores (restores_inCoupling ((restores_natural htotal).member (by simp)
      (.tail _ (.tail _ (.head _))))) hread
  · exact readBack_of_restores ((restores_natural htotal).member (by simp) (.head _))
      (hfiles _ (.tail _ (.head _)))
  · obtain ⟨hsummary, -⟩ := forall_mem_savedValues.mp hkept
    refine readBack_of_restores (restores_strongest (fun p hp => ?_) hsummary) hread
    exact (Matrix.invocations_le_total (Matrix.mem_pairs_of_mem_strongestPairs hp)).trans_lt htotal
  · refine readBack_of_restores (restores_inClustering ((restores_natural ?_).member (by simp)
      (.tail _ (.tail _ (.head _))))) hread
    omega
  · refine readBack_of_restores (restores_inClustering ((restores_natural ?_).member (by simp)
      (.tail _ (.tail _ (.tail _ (.head _)))))) hread
    omega

end results

/-- What is saved of an analysis is read back without loss, and no number in the files is null. Ids
fit 32 bits and counts 64. Of its doubles it is assumed that each is read as it was written. -/
theorem saved_results_restored {events : List Event} {config : Config Float}
    {bracketing : Scale.Bracketing} {stats : FilterStats} {topPairs : Nat} {directory : String}
    {before after : Files.Tree}
    (hconfig : config.validate = .ok config)
    (hclasses : (Matrix.ofEvents events).classCount ≤ 2 ^ 32)
    (htotal : (Matrix.ofEvents events).total < 2 ^ 64)
    (hback : ∀ v ∈ savedValues (analyze events config bracketing) stats topPairs, ∀ x ∈ v.reals,
      x.isFinite → ReadsBack x)
    (hsave : (save (analyze events config bracketing) stats topPairs directory).run before =
      (.ok (), after)) :
    let a := analyze events config bracketing
    Restored a after directory ∧ Consistent a after directory ∧
    ∀ name ∈ savedNames, ∃ content,
      after.read (Files.join directory name) = .ok (.bytes content) ∧
      (∃ t : Tree, t.Spelled content) ∧ ∀ t : Tree, t.Spelled content → ¬ t.HasNull := by
  intro a
  have hfinite := isFinite_saved bracketing stats topPairs hconfig htotal
  have hkept : ∀ v ∈ savedValues a stats topPairs, ∀ x ∈ v.reals, Kept x :=
    fun v hv x hx => ⟨hfinite v hv x hx, hback v hv x hx (hfinite v hv x hx)⟩
  refine ⟨restored_of_save hclasses htotal hkept hsave,
    consistent_of_save hclasses htotal hkept hsave, fun name hname => ?_⟩
  rw [← names_savedFiles a stats topPairs] at hname
  obtain ⟨f, hf, rfl⟩ := List.mem_map.mp hname
  obtain ⟨v, hv, hvalue⟩ := List.mem_map.mp (List.of_mem_zip hf).2
  refine ⟨_, read_save hsave f hf, ?_⟩
  rw [← hvalue]
  refine ⟨⟨_, v.sorted.spelled_pretty⟩, fun t => Value.not_hasNull fun hnull => ?_⟩
  obtain ⟨x, hx, hnot⟩ := nullsAreReals_saved a stats topPairs v hv hnull
  exact hnot (hfinite v hv x hx)

/-- Names with a quote, a backslash and a line feed, saved in a new directory. -/
theorem saved_results_restored_of_chain :
    let events : List Event := [⟨"A\"", "B\\"⟩, ⟨"B\\", "C\n"⟩, ⟨"B\\", "C\n"⟩]
    let a := analyze events Config.default .inOrder
    let stats : FilterStats := ⟨3, 1, 0, 0⟩
    Config.default.validate = .ok Config.default ∧ a.matrix.classCount ≤ 2 ^ 32 ∧
      a.matrix.total < 2 ^ 64 ∧
      (∀ v ∈ savedValues a stats 10, ∀ x ∈ v.reals, x.isFinite → ReadsBack x) ∧
      ∃ after, (save a stats 10 "out").run .empty = (.ok (), after) ∧
        Restored a after "out" ∧ Consistent a after "out" := by
  intro events a stats
  have hback : ∀ v ∈ savedValues a stats 10, ∀ x ∈ v.reals, x.isFinite → ReadsBack x := by
    decide +kernel
  have hready : (Files.ensureDirectories "out").run Files.Tree.empty =
      (.ok (), ⟨[(["out"], .directory)]⟩) := by
    rw [Files.ensureDirectories, show (Files.parts "out").reverse = ["out"] by decide +kernel,
      Files.ensureReversed]
    rfl
  have hleads : (⟨[(["out"], .directory)]⟩ : Files.Tree).Leads "out" ["out"] :=
    ⟨by decide +kernel, by decide +kernel⟩
  obtain ⟨after, hsave⟩ := save_ok a stats 10 hready hleads (by decide +kernel)
  have hclasses : a.matrix.classCount ≤ 2 ^ 32 := by decide +kernel
  have htotal : a.matrix.total < 2 ^ 64 := by decide +kernel
  obtain ⟨hrestored, hconsistent, -⟩ := saved_results_restored rfl hclasses htotal hback hsave
  exact ⟨rfl, hclasses, htotal, hback, after, hsave, hrestored, hconsistent⟩

end Report

end Linkage
