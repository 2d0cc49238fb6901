import Linkage.Cluster
import Linkage.Cluster.Average

/-!
# Clustering by merging

At first every class is a group of its own. Again and again the two groups with the greatest average
coupling become one; of equally coupled pairs the first one does, by the position of the one group
and then of the other. In the first phase this goes on as long as the coupling exceeds the
threshold, in the second as long as there are more than half as many groups as classes.

Embeds `most_coupled_pair`, `merge_groups` as `join`, and the type `HierarchicalClusterer`: its
function `run` is `Matrix.cluster`, the two loops of which are `mergeAbove` and `mergeDownTo`, and
`build_clusters` makes its clusters as `clusterOf` does.
-/

namespace Linkage
open Scale

variable {R : Type} [Scale R]

structure Candidate (R : Type) where
  /-- The position of the group that remains. -/
  intoAt : Nat
  /-- The position, further on, of the group that is merged into it. -/
  absorbedAt : Nat
  into : Group
  absorbed : Group
  coupling : R
deriving DecidableEq, Repr

namespace Candidate

/-- The pairs of groups, by the position of the one and then of the other. -/
def all (w : Weights R) (groups : List Group) : List (Candidate R) :=
  (pairsOf groups.zipIdx).map fun ((a, i), (b, j)) => ⟨i, j, a, b, average w a b⟩

/-- The better of two: the second only if it is coupled more strongly. -/
def better (best next : Candidate R) : Candidate R :=
  if less best.coupling next.coupling then next else best

/-- The first one with the greatest coupling. -/
def best? : List (Candidate R) → Option (Candidate R)
  | [] => none
  | c :: cs => some (cs.foldl better c)

/-- The groups after the merge. The others keep their order. -/
def join (c : Candidate R) (groups : List Group) : List Group :=
  (groups.modify c.intoAt fun members => members ++ c.absorbed).eraseIdx c.absorbedAt

end Candidate

def mostCoupled? (w : Weights R) (groups : List Group) : Option (Candidate R) :=
  Candidate.best? (Candidate.all w groups)

structure Merges (R : Type) where
  made : List (Candidate R)
  groups : List Group
deriving DecidableEq, Repr

/-- Merges the most coupled groups as long as `goesOn` allows it, at most `fuel` times. -/
def mergeWhile (w : Weights R) (goesOn : List Group → R → Bool) (fuel : Nat)
    (groups : List Group) : Merges R :=
  match fuel with
  | 0 => ⟨[], groups⟩
  | fuel + 1 =>
    match mostCoupled? w groups with
    | none => ⟨[], groups⟩
    | some c =>
      if goesOn groups c.coupling then
        let rest := mergeWhile w goesOn fuel (c.join groups)
        ⟨c :: rest.made, rest.groups⟩
      else ⟨[], groups⟩

/-- The phase of the threshold. Every merge leaves one group less, so there are fewer merges than
groups. -/
def mergeAbove (w : Weights R) (threshold : R) (groups : List Group) : Merges R :=
  mergeWhile w (fun _ coupling => !atMost coupling threshold) groups.length groups

/-- The phase of the number of groups. Without a limit there is none. -/
def mergeDownTo (w : Weights R) (limit : Nat) (groups : List Group) : Merges R :=
  if limit = 0 then ⟨[], groups⟩
  else mergeWhile w (fun gs _ => limit < gs.length) groups.length groups

namespace Matrix

def singletons (m : Matrix) : List Group := (List.range m.classCount).map fun i => [i]

/-- The merges of a phase as steps, numbered on from `done` earlier ones. -/
def stepsOf (m : Matrix) (phase : Phase) (done : Nat) (made : List (Candidate R)) :
    List (MergeStep R) :=
  (made.zipIdx (done + 1)).map fun (c, step) =>
    { step, phase, into := m.namesOf c.into, absorbed := m.namesOf c.absorbed
      coupling := c.coupling }

def clusterOf (m : Matrix) (w : Weights R) (centralCount : Nat) (id : Nat) (members : Group) :
    Cluster R :=
  { id
    members := m.namesOf members
    size := members.length
    cohesion := cohesion w members
    central := m.namesOf (central w members centralCount) }

def defaultCentralCount : Nat := 5

def cluster (m : Matrix) (threshold : R) (centralCount : Nat) : Outcome R :=
  let table : WeightTable R := m.weightTable
  let w : Weights R := table.get
  let maxModules := m.classCount / 2
  let first := mergeAbove w threshold m.singletons
  let second := mergeDownTo w maxModules first.groups
  { clusters := second.groups.zipIdx.map fun (members, id) => m.clusterOf w centralCount id members
    steps := m.stepsOf .threshold 0 first.made ++
      m.stepsOf .cardinality first.made.length second.made
    threshold
    classCount := m.classCount
    maxModules }

end Matrix

end Linkage
