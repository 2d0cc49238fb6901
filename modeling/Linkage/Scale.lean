/-!
# Scales

The arithmetic that couplings are measured in: quotients of counts, sums of them, comparisons, and a
total order for rankings. Doubles are one scale, and exact fractions are another.

Embeds the doubles of `CouplingMatrix`, their order `total_cmp`, and the sums of `cohesion`,
`average_linkage`, `central_classes` and `from_clusters`.
-/

namespace Linkage

/-- A kind of number that couplings are measured in. -/
class Scale (R : Type) extends Add R, Div R where
  /-- The value of a coupling that is not there. -/
  zero : R
  /-- The sum of no summands: adding it changes no number, not even the sign of a zero. -/
  emptySum : R
  ofCount : Nat → R
  less : R → R → Bool
  atMost : R → R → Bool
  /-- A total order for rankings, which extends `less`. -/
  ranksUpTo : R → R → Bool

namespace Scale

def sumFrom {R : Type} [Scale R] (start : R) (xs : List R) : R := xs.foldl (· + ·) start

def sum {R : Type} [Scale R] (xs : List R) : R := sumFrom emptySum xs

/-- How a sum is bracketed. Summands that several workers add are cut into parts, each of which a
worker adds from the first to the last or cuts again; where the cuts are is up to the workers. -/
inductive Bracketing where
  | inOrder
  | cut (front : Nat) (left right : Bracketing)
deriving DecidableEq, Repr

/-- The sum of a list in brackets. The sums of two parts are added as two summands. -/
def Bracketing.sum {R : Type} [Scale R] : Bracketing → List R → R
  | .inOrder, xs => Scale.sum xs
  | .cut front left right, xs =>
    Scale.sum [left.sum (xs.take front), right.sum (xs.drop front)]

/-- The mean of a list; that of no numbers is zero. -/
def mean {R : Type} [Scale R] (xs : List R) : R :=
  if xs.isEmpty then zero else sumFrom zero xs / ofCount xs.length

end Scale

/-- The place of a double in the total order of all doubles: by sign, then by magnitude, the two
zeros and the values that are no number told apart. -/
def doubleRank (x : Float) : Nat :=
  let bits := x.toBits.toNat
  if Nat.pow 2 63 ≤ bits then Nat.pow 2 64 - 1 - bits else Nat.pow 2 63 + bits

instance : Scale Float where
  zero := 0.0
  emptySum := -0.0
  ofCount := Float.ofNat
  less x y := decide (x < y)
  atMost x y := decide (x ≤ y)
  ranksUpTo x y := decide (doubleRank x ≤ doubleRank y)

instance : Scale Rat where
  zero := 0
  emptySum := 0
  ofCount n := (n : Rat)
  less x y := decide (x < y)
  atMost x y := decide (x ≤ y)
  ranksUpTo x y := decide (x ≤ y)

end Linkage
