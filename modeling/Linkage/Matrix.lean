import Linkage.ClassPair
import Linkage.Counts
import Linkage.Ranking
import Linkage.Scale

/-!
# The coupling matrix

The classes that take part in invocations of other classes, sorted by name and numbered in that
order, and how often each two of them invoke one another. The weight of a pair is its share of all
invocations. A pair without invocations has no entry and no weight.

Embeds the types `PairCoupling` and `CouplingMatrix` with its functions `index_of`, `class`,
`class_count`, `len` as `pairTotal`, `weight`, `weight_by_index` as `weightAt`, `pair_count`,
`directed_count`, `directed_counts`, `pairs` and `strongest_pairs`.
-/

namespace Linkage

/-- A coupling matrix. Both lists of counts are sorted by their pairs of indexes. -/
structure Matrix where
  classes : List String
  /-- Invocations in either direction, the lower index first. -/
  pairCounts : List (IndexPair × Nat)
  callCounts : List (IndexPair × Nat)
  total : Nat
deriving DecidableEq, Repr

structure PairCoupling (R : Type) where
  pair : ClassPair
  invocations : Nat
  weight : R
deriving DecidableEq, Repr

/-- The weight of two classes, by their indexes, where they have one. -/
abbrev Weights (R : Type) := Nat → Nat → Option R

namespace Matrix

def empty : Matrix := ⟨[], [], [], 0⟩

def indexOf? (m : Matrix) (name : String) : Option Nat := m.classes.idxOf? name

def class? (m : Matrix) (index : Nat) : Option String := m.classes[index]?

def classCount (m : Matrix) : Nat := m.classes.length

/-- The indexes of those names that are classes of the matrix. -/
def indexesOf (m : Matrix) (names : List String) : List Nat := names.filterMap m.indexOf?

def namesOf (m : Matrix) (indexes : List Nat) : List String := indexes.filterMap m.class?

variable {R : Type} [Scale R]

/-- The share that a number of invocations has in all of them. -/
def share (m : Matrix) (count : Nat) : R := Scale.ofCount count / Scale.ofCount (max m.total 1)

def pairTotal (m : Matrix) : Nat := m.pairCounts.length

def weightAt (m : Matrix) : Weights R := fun a b =>
  if a = b then none else (m.pairCounts.lookup (indexKey a b)).map m.share

def weight (m : Matrix) (a b : String) : Option R := do
  m.weightAt (← m.indexOf? a) (← m.indexOf? b)

/-- The number of invocations between two classes in either direction. -/
def pairCount (m : Matrix) (a b : String) : Nat :=
  match m.indexOf? a, m.indexOf? b with
  | some i, some j => if i = j then 0 else (m.pairCounts.lookup (indexKey i j)).getD 0
  | _, _ => 0

/-- The number of invocations of one class from another. -/
def directedCount (m : Matrix) (caller callee : String) : Nat :=
  match m.indexOf? caller, m.indexOf? callee with
  | some i, some j => (m.callCounts.lookup (i, j)).getD 0
  | _, _ => 0

/-- The invocations from class to class: caller, callee and their number. -/
def directedCounts (m : Matrix) : List (String × String × Nat) :=
  m.callCounts.filterMap fun ((a, b), n) => do return (← m.class? a, ← m.class? b, n)

def pairs (m : Matrix) : List (PairCoupling R) :=
  m.pairCounts.filterMap fun ((a, b), n) => do
    let pair ← ClassPair.of? (← m.class? a) (← m.class? b)
    return ⟨pair, n, m.share n⟩

def PairCoupling.atLeast (p q : PairCoupling R) : Bool := Scale.ranksUpTo q.weight p.weight

/-- The `n` pairs of greatest weight, in descending order; of equal weights the lesser pair comes
first. -/
def strongestPairs (m : Matrix) (n : Nat) : List (PairCoupling R) :=
  (sortBy PairCoupling.atLeast m.pairs).take n

/-- The weights of a matrix in a search tree. -/
structure WeightTable (R : Type) where
  weights : Std.TreeMap IndexPair R IndexPair.compare

def WeightTable.get (t : WeightTable R) : Weights R := fun a b =>
  if a = b then none else t.weights[indexKey a b]?

def weightTable (m : Matrix) : WeightTable R :=
  ⟨Std.TreeMap.ofList (m.pairCounts.map fun (k, n) => (k, m.share n)) IndexPair.compare⟩

end Matrix

end Linkage
