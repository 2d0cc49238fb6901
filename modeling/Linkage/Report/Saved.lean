import Linkage.Analysis
import Linkage.Cluster.Record

/-!
# Saved results

The results of an analysis as four JSON files in one directory: figures, the matrix, the clusters
and the merges. The members of every object are sorted by name. The files are written one after
another, and the first one that cannot be written ends the writing.

Embeds `save_results`, `save_summary`, `save_matrix` and `write_json`.
-/

namespace Linkage.Report
open Json

def filteringJson (s : FilterStats) : Value :=
  .object [("kept", .natural s.kept), ("blank", .natural s.blank),
    ("excluded", .natural s.excluded), ("unknown", .natural s.unknown)]

def couplingJson (m : Matrix) (topPairs : Nat) : Value :=
  .object [("class_count", .natural m.classCount), ("coupled_pair_count", .natural m.pairTotal),
    ("total_invocations", .natural m.total),
    ("strongest_pairs", PairCoupling.format.list.toJson (m.strongestPairs topPairs))]

def clusteringJson (o : Outcome Float) : Value :=
  .object [("threshold", .real o.threshold), ("max_modules", .natural o.maxModules),
    ("threshold_merges", .natural (o.mergesIn .threshold)),
    ("forced_merges", .natural (o.mergesIn .cardinality))]

def summaryJson (a : Analysis Float) (stats : FilterStats) (topPairs : Nat) : Value :=
  .object [("filtering", filteringJson stats), ("coupling_stats", couplingJson a.matrix topPairs),
    ("clustering", clusteringJson a.outcome), ("cluster_stats", Summary.format.toJson a.summary)]

def matrixJson (m : Matrix) : Value :=
  .object [("total_invocations", .natural m.total),
    ("classes", nameFormat.list.toJson m.classes),
    ("pairs", PairCoupling.format.list.toJson m.pairs)]

def clustersJson (o : Outcome Float) : Value :=
  .object [("clusters", Cluster.format.list.toJson o.clusters)]

def stepsJson (o : Outcome Float) : Value :=
  .object [("steps", MergeStep.format.list.toJson o.steps)]

def savedNames : List String :=
  ["summary.json", "coupling_matrix.json", "clusters.json", "merge_steps.json"]

def savedValues (a : Analysis Float) (stats : FilterStats) (topPairs : Nat) : List Value :=
  [summaryJson a stats topPairs, matrixJson a.matrix, clustersJson a.outcome, stepsJson a.outcome]

def savedFiles (a : Analysis Float) (stats : FilterStats) (topPairs : Nat) :
    List (String × String) :=
  savedNames.zip ((savedValues a stats topPairs).map fun v => v.sorted.pretty)

def writeAll (directory : String) (files : List (String × String)) : Files.Action Unit :=
  files.forM fun (name, text) => Files.writeText (Files.join directory name) text

/-- Saves the results of an analysis in a directory, which is made if it is not there. -/
def save (a : Analysis Float) (stats : FilterStats) (topPairs : Nat) (directory : String) :
    Files.Action Unit := do
  Files.ensureDirectories directory
  writeAll directory (savedFiles a stats topPairs)

end Linkage.Report
