/-!
# Clusters

A cluster is a group of classes that clustering proposes as a module. The outcome of clustering is a
list of clusters and the merges that led to them.

Embeds the types `Cluster`, `MergePhase`, `MergeStep` and `ClusteringOutcome` with their functions
`contains`, `is_singleton`, `merges_in` and `cluster_of`.
-/

namespace Linkage

structure Cluster (R : Type) where
  id : Nat
  /-- The classes in the order in which they joined. -/
  members : List String
  size : Nat
  cohesion : R
  central : List String
deriving DecidableEq, Repr

namespace Cluster

variable {R : Type}

def contains (c : Cluster R) (name : String) : Bool := c.members.contains name

def isSingleton (c : Cluster R) : Bool := c.size == 1

end Cluster

inductive Phase where
  /-- Their coupling exceeds the threshold. -/
  | threshold
  /-- There are more groups than there may be modules. -/
  | cardinality
deriving DecidableEq, Repr

structure MergeStep (R : Type) where
  /-- The number of the merge, from one on. -/
  step : Nat
  phase : Phase
  /-- The members of the group that remains, before the merge. -/
  into : List String
  absorbed : List String
  coupling : R
deriving DecidableEq, Repr

structure Outcome (R : Type) where
  clusters : List (Cluster R)
  steps : List (MergeStep R)
  threshold : R
  classCount : Nat
  /-- The number of groups down to which merges are forced. -/
  maxModules : Nat
deriving DecidableEq, Repr

namespace Outcome

variable {R : Type}

def mergesIn (o : Outcome R) (phase : Phase) : Nat := o.steps.countP fun s => s.phase == phase

def clusterOf? (o : Outcome R) (name : String) : Option (Cluster R) :=
  o.clusters.find? fun c => c.contains name

end Outcome

end Linkage
