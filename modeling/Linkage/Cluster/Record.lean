import Linkage.Cluster.Summary

/-!
# The JSON forms of results

How couplings, clusters, merges and summaries are written as JSON and read again. The numbers are
doubles.

Embeds the derived JSON forms of `PairCoupling`, `Cluster`, `MergePhase`, `MergeStep`,
`ClusteringOutcome` and `PartitionSummary`.
-/

namespace Linkage
open Json

def namesShape : Shape := .listOf .text

def nameFormat : Format String := .ofShape .text id id

def PairCoupling.format : Format (PairCoupling Float) :=
  .ofShape
    (.record "PairCoupling"
      (.field "pair" ClassPair.format.input
        (.field "invocations" (.natural .word64) (.field "weight" .real .done))))
    (fun (pair, invocations, weight, _) => ⟨ClassPair.format.ofInput pair, invocations, weight⟩)
    (fun p => (ClassPair.format.toOutput p.pair, p.invocations, p.weight, ()))

def Cluster.format : Format (Cluster Float) :=
  .ofShape
    (.record "Cluster"
      (.field "id" (.natural .word32)
        (.field "members" namesShape
          (.field "size" (.natural .size)
            (.field "cohesion" .real (.field "central_classes" namesShape .done))))))
    (fun (id, members, size, cohesion, central, _) => ⟨id, members, size, cohesion, central⟩)
    (fun c => (c.id, c.members, c.size, c.cohesion, c.central, ()))

def Phase.format : Format Phase :=
  .ofShape (.choice "threshold" "cardinality")
    (fun isSecond => bif isSecond then .cardinality else .threshold)
    (fun
      | .threshold => false
      | .cardinality => true)

def MergeStep.format : Format (MergeStep Float) :=
  .ofShape
    (.record "MergeStep"
      (.field "step" (.natural .size)
        (.field "phase" Phase.format.input
          (.field "absorbed_into" namesShape
            (.field "absorbed" namesShape (.field "coupling" .real .done))))))
    (fun (step, phase, into, absorbed, coupling, _) =>
      ⟨step, Phase.format.ofInput phase, into, absorbed, coupling⟩)
    (fun s => (s.step, Phase.format.toOutput s.phase, s.into, s.absorbed, s.coupling, ()))

def Outcome.format : Format (Outcome Float) :=
  .ofShape
    (.record "ClusteringOutcome"
      (.field "clusters" Cluster.format.list.input
        (.field "steps" MergeStep.format.list.input
          (.field "threshold" .real
            (.field "class_count" (.natural .size)
              (.field "max_modules" (.natural .size) .done))))))
    (fun (clusters, steps, threshold, classCount, maxModules, _) =>
      ⟨Cluster.format.list.ofInput clusters, MergeStep.format.list.ofInput steps, threshold,
       classCount, maxModules⟩)
    (fun o =>
      (Cluster.format.list.toOutput o.clusters, MergeStep.format.list.toOutput o.steps,
       o.threshold, o.classCount, o.maxModules, ()))

def Summary.format : Format (Summary Float) :=
  .ofShape
    (.record "PartitionSummary"
      (.field "cluster_count" (.natural .size)
        (.field "class_count" (.natural .size)
          (.field "singleton_count" (.natural .size)
            (.field "largest_cluster_size" (.natural .size)
              (.field "smallest_cluster_size" (.natural .size)
                (.field "avg_cluster_size" .real
                  (.field "avg_cohesion" .real
                    (.field "intra_cluster_weight" .real
                      (.field "avg_inter_cluster_coupling" .real .done))))))))))
    (fun (clusterCount, classCount, singletonCount, largest, smallest, averageSize,
          averageCohesion, intraWeight, interCoupling, _) =>
      ⟨clusterCount, classCount, singletonCount, largest, smallest, averageSize, averageCohesion,
       intraWeight, interCoupling⟩)
    (fun s =>
      (s.clusterCount, s.classCount, s.singletonCount, s.largest, s.smallest, s.averageSize,
       s.averageCohesion, s.intraWeight, s.interCoupling, ()))

end Linkage
