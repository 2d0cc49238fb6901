/-!
# The fewest digits that read back

A finite double is a whole number of powers of two, and the reals that round to it form an interval
around it. Its shortest decimal is a decimal of the fewest digits inside that interval and, of
those, the nearest to the value. Both facts are decided by exact arithmetic on natural numbers.

Embeds the digits of the doubles that `write_json` and `write_graphml` write.
-/

namespace Linkage.Decimal

/-- The magnitude of a finite double: `significand` times two to the `exponent`. -/
structure Magnitude where
  significand : Nat
  exponent : Int
  /-- The gap to the next smaller double is half the gap to the next greater one. -/
  narrowBelow : Bool
deriving DecidableEq, Repr

namespace Magnitude

def ofBits (bits : UInt64) : Magnitude :=
  let field : Nat := (bits.toNat / Nat.pow 2 52) % Nat.pow 2 11
  let fraction : Nat := bits.toNat % Nat.pow 2 52
  if field = 0 then ⟨fraction, -1074, false⟩
  else ⟨Nat.pow 2 52 + fraction, Int.ofNat field - 1075, fraction = 0 && 1 < field⟩

/-- The magnitude over ten to the `place`, as a numerator and a denominator. -/
def quotientAt (x : Magnitude) (place : Int) : Nat × Nat :=
  (x.significand * Nat.pow 2 x.exponent.toNat * Nat.pow 10 (-place).toNat,
   Nat.pow 2 (-x.exponent).toNat * Nat.pow 10 place.toNat)

end Magnitude

/-- A decimal numeral: `digits` times ten to the `exponent`. -/
structure Numeral where
  digits : Nat
  exponent : Int
deriving DecidableEq, Repr

/-- Compares `a` times ten to the `i` with `b` times two to the `j`. -/
def compareScaled (a : Nat) (i : Int) (b : Nat) (j : Int) : Ordering :=
  compare (a * Nat.pow 10 i.toNat * Nat.pow 2 (-j).toNat)
    (b * Nat.pow 2 j.toNat * Nat.pow 10 (-i).toNat)

/-- The numeral lies among the reals that round to `x`. The interval reaches half way to the two
neighbours of `x`, and holds its ends exactly when the significand is even. -/
def Magnitude.readsBack (x : Magnitude) (d : Numeral) : Bool :=
  let low := if x.narrowBelow then 4 * x.significand - 1 else 4 * x.significand - 2
  let high := 4 * x.significand + 2
  let closed := x.significand % 2 == 0
  let toLow := compareScaled d.digits d.exponent low (x.exponent - 2)
  let toHigh := compareScaled d.digits d.exponent high (x.exponent - 2)
  (toLow == .gt || (closed && toLow == .eq)) && (toHigh == .lt || (closed && toHigh == .eq))

inductive Tie where
  | toEven
  | upward
deriving DecidableEq, Repr

/-- The least power of ten above the magnitude, found near the estimate that the binary length
gives. -/
def Magnitude.scale (x : Magnitude) : Int :=
  let estimate := ((x.significand.log2 : Int) + 1 + x.exponent) * 30103 / 100000
  let above (k : Int) : Bool := compareScaled 1 k x.significand x.exponent == .gt
  ([estimate - 1, estimate, estimate + 1].find? above).getD (estimate + 2)

/-- The decimal of `n` digits that reads back and lies nearest, if one reads back at all. Only the
two neighbours of the value on the grid of `n` digits can. -/
def Magnitude.ofLength? (x : Magnitude) (tie : Tie) (scale : Int) (n : Nat) : Option Numeral :=
  let place := scale - (n : Int)
  let (num, den) := x.quotientAt place
  let below : Numeral := ⟨num / den, place⟩
  let above : Numeral := ⟨num / den + 1, place⟩
  match x.readsBack below, x.readsBack above with
  | false, false => none
  | true, false => some below
  | false, true => some above
  | true, true =>
    match compare (2 * num) ((2 * below.digits + 1) * den), tie with
    | .lt, _ => some below
    | .gt, _ => some above
    | .eq, .upward => some above
    | .eq, .toEven => some (if below.digits % 2 = 0 then below else above)

def Numeral.stripZeros (d : Numeral) : Numeral :=
  if h : 0 < d.digits ∧ d.digits % 10 = 0 then
    stripZeros ⟨d.digits / 10, d.exponent + 1⟩
  else d
termination_by d.digits
decreasing_by exact Nat.div_lt_self h.1 (by decide)

/-- The value written out exactly, for a magnitude that no search settles. -/
def Magnitude.exact (x : Magnitude) : Numeral :=
  ⟨x.significand * Nat.pow 2 x.exponent.toNat * Nat.pow 5 (-x.exponent).toNat, min x.exponent 0⟩

/-- The shortest decimal of a magnitude. Seventeen digits always suffice. -/
def Magnitude.shortest (x : Magnitude) (tie : Tie) : Numeral :=
  if x.significand = 0 then ⟨0, 0⟩
  else
    let scale := x.scale
    let found := (List.range 17).findSome? fun n => x.ofLength? tie scale (n + 1)
    (found.getD x.exact).stripZeros

end Linkage.Decimal
