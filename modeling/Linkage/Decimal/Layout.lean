import Linkage.Decimal.Shortest

/-!
# Laying out doubles as text

Two ways to write a double. In its natural form it has the fewest digits that read back; a record
of decisions says when the digits are written positionally, whether a whole number keeps a point,
and how ties fall. In its fixed form it has a set number of places, the exact binary value being
rounded and a tie going to the even neighbour.

Embeds the printing of doubles in messages, in the log and by `write_graphml`.
-/

namespace Linkage.Decimal

structure Layout where
  /-- The exponents of the leading digit that are written positionally. -/
  positional : Int → Bool
  /-- A whole number written positionally ends in a point and a zero. -/
  pointZero : Bool
  tie : Tie

/-- The digits with a point after the first `whole` of them, padded by zeros on either side. -/
def positionalText (pointZero : Bool) (digits : List Char) (whole : Int) : List Char :=
  if whole ≤ 0 then '0' :: '.' :: (List.replicate (-whole).toNat '0' ++ digits)
  else
    let n := whole.toNat
    if n < digits.length then digits.take n ++ '.' :: digits.drop n
    else digits ++ List.replicate (n - digits.length) '0' ++ (if pointZero then ['.', '0'] else [])

/-- One digit, a point before any others, and the signed exponent of the leading digit. -/
def scientificText (digits : List Char) (exponent : Int) : List Char :=
  let fraction := match digits.drop 1 with
    | [] => []
    | rest => '.' :: rest
  let sign := if exponent < 0 then '-' else '+'
  digits.take 1 ++ fraction ++ 'e' :: sign :: Nat.toDigits 10 exponent.natAbs

def Layout.decimalText (l : Layout) (d : Numeral) : List Char :=
  let digits := Nat.toDigits 10 d.digits
  let leading := d.exponent + (digits.length : Int) - 1
  if l.positional leading then positionalText l.pointZero digits (leading + 1)
  else scientificText digits leading

def isNegative (x : Float) : Bool := decide (Nat.pow 2 63 ≤ x.toBits.toNat)

def withSign (x : Float) (text : List Char) : List Char :=
  if isNegative x then '-' :: text else text

/-- The text of a double in the natural form. The two infinities and the values that are no number
have names. -/
def Layout.render (l : Layout) (x : Float) : String :=
  if x.isNaN then "NaN"
  else String.ofList <| withSign x <|
    if x.isInf then ['i', 'n', 'f']
    else l.decimalText ((Magnitude.ofBits x.toBits).shortest l.tie)

/-- Digits and a point, never an exponent; a whole number has no point. -/
def plain : Layout where
  positional := fun _ => true
  pointZero := false
  tie := .upward

/-- The quotient rounded to a whole number, a tie going to the even one. -/
def roundDiv (num den : Nat) : Nat :=
  let quotient := num / den
  match compare (2 * (num % den)) den with
  | .lt => quotient
  | .gt => quotient + 1
  | .eq => if quotient % 2 = 0 then quotient else quotient + 1

/-- The digits of a number of units, with a point before the last `places` of them. -/
def fixedDigits (places units : Nat) : List Char :=
  let digits := Nat.toDigits 10 units
  let padded := List.replicate (places + 1 - digits.length) '0' ++ digits
  let whole := padded.length - places
  padded.take whole ++ '.' :: padded.drop whole

/-- The text of a double with `places` digits after the point, for one place or more. -/
def fixed (places : Nat) (x : Float) : String :=
  if x.isNaN then "NaN"
  else String.ofList <| withSign x <|
    if x.isInf then ['i', 'n', 'f']
    else
      let (num, den) := (Magnitude.ofBits x.toBits).quotientAt (-(places : Int))
      fixedDigits places (roundDiv num den)

end Linkage.Decimal
