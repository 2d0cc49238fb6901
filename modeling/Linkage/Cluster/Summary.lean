import Linkage.Cluster.Merge

/-!
# The summary of a partition

Sizes, cohesion and coupling of a list of clusters as a whole: the share of the coupling that lies
inside clusters, and the mean coupling of those clusters that are coupled at all.

Embeds `PartitionSummary` and its function `from_clusters`, which adds the sums of the clusters by a
parallel iterator, in brackets that its workers choose.
-/

namespace Linkage
open Scale

structure Summary (R : Type) where
  clusterCount : Nat
  classCount : Nat
  singletonCount : Nat
  largest : Nat
  smallest : Nat
  averageSize : R
  averageCohesion : R
  /-- The share of all weight that lies between members of one cluster. -/
  intraWeight : R
  /-- The mean of the average couplings between clusters, over those above zero. -/
  interCoupling : R
deriving DecidableEq, Repr

namespace Summary

variable {R : Type} [Scale R]

/-- The weights inside groups: the sum of the sums of all groups. Each group is added in order, and
the sums of the groups in some bracketing. -/
def intraSum (w : Weights R) (groups : List Group) (bracketing : Bracketing) : R :=
  bracketing.sum (groups.map fun members => sumFrom zero (recorded w (pairsOf members)))

def interAverages (w : Weights R) (groups : List Group) : List R :=
  ((pairsOf groups).map fun (a, b) => average w a b).filter fun x => less zero x

/-- The summary of clusters of the classes of a matrix. Members that are no classes of the matrix
count only for the sizes. Where no bracketing is given, one worker adds everything in order. -/
def ofClusters (m : Matrix) (clusters : List (Cluster R)) (bracketing : Bracketing := .inOrder) :
    Summary R :=
  let table : Matrix.WeightTable R := m.weightTable
  let w : Weights R := table.get
  let sizes := clusters.map Cluster.size
  let members := sizes.foldr (· + ·) 0
  let groups := clusters.map fun c => m.indexesOf c.members
  let divisor : R := ofCount (max clusters.length 1)
  let totalWeight : R := sum ((m.pairs (R := R)).map PairCoupling.weight)
  let inter := interAverages w groups
  { clusterCount := clusters.length
    classCount := members
    singletonCount := clusters.countP Cluster.isSingleton
    largest := sizes.max?.getD 0
    smallest := sizes.min?.getD 0
    averageSize := ofCount members / divisor
    averageCohesion := sum (clusters.map Cluster.cohesion) / divisor
    intraWeight :=
      if less zero totalWeight then intraSum w groups bracketing / totalWeight else zero
    interCoupling := if inter.isEmpty then zero else sum inter / ofCount inter.length }

end Summary

end Linkage
