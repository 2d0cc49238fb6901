import Linkage.Matrix

/-!
# Average coupling

How strongly groups of classes are coupled: the mean over those pairs of classes that have a weight.
A pair without a weight does not count, neither in the sum nor in the number of pairs.

Embeds `average_linkage` as `average`, `central_classes` as `central`, and the functions `cohesion`
and `average_coupling`.
-/

namespace Linkage
open Scale

abbrev Group := List Nat

variable {R : Type} [Scale R]

/-- The weights of those pairs that have one. -/
def recorded (w : Weights R) (pairs : List IndexPair) : List R :=
  pairs.filterMap fun (x, y) => w x y

def average (w : Weights R) (a b : Group) : R := mean (recorded w (crossPairs a b))

def cohesion (w : Weights R) (members : Group) : R := mean (recorded w (pairsOf members))

def strength (w : Weights R) (members : Group) (x : Nat) : R := sum (members.filterMap (w x))

/-- The `n` strongest members of a group, in descending order of their strength. -/
def central (w : Weights R) (members : Group) (n : Nat) : Group :=
  let rated := members.map fun x => (x, strength w members x)
  ((sortBy (fun p q => ranksUpTo q.2 p.2) rated).take n).map Prod.fst

namespace Matrix

/-- The average coupling between two lists of classes. Names that are no classes of the matrix do
not count. -/
def averageCoupling (m : Matrix) (a b : List String) : R :=
  average m.weightAt (m.indexesOf a) (m.indexesOf b)

end Matrix

end Linkage
