/-!
# Reading decimal numerals

The texts that name a double where one is given as an option: a sign or none, then digits with or
without a point and an exponent, or one of the names of infinity and of what is no number, in any
case. The double is the nearest to the value written, and a value beyond all doubles is infinite.

Embeds the parsing of the numbers that `Cli` declares.
-/

namespace Linkage.Decimal

def digit? (c : Char) : Option Nat := if c.isDigit then some (c.toNat - 48) else none

def valueOf (digits : List Char) : Nat :=
  digits.foldl (fun n c => 10 * n + (c.toNat - 48)) 0

/-- The digits at the front of a text, and what follows them. -/
def spanDigits (cs : List Char) : List Char × List Char :=
  (cs.takeWhile Char.isDigit, cs.dropWhile Char.isDigit)

/-- A sign at the front of a text, if there is one: whether it is a minus, and what follows. -/
def spanSign : List Char → Bool × List Char
  | '-' :: cs => (true, cs)
  | '+' :: cs => (false, cs)
  | cs => (false, cs)

/-- A natural number below `limit`: digits, with or without a plus before them. -/
def natural? (limit : Nat) (s : String) : Option Nat :=
  let digits := match s.toList with
    | '+' :: cs => cs
    | cs => cs
  if digits ≠ [] ∧ digits.all Char.isDigit ∧ valueOf digits < limit then some (valueOf digits)
  else none

/-- The double nearest to `digits` times ten to the `exponent`. Beyond four hundred places on either
side the double is infinite or zero whatever the digits are. -/
def nearest (digits : Nat) (exponent : Int) : Float :=
  let leading := exponent + ((Nat.toDigits 10 digits).length : Int)
  if digits = 0 ∨ leading < -400 then 0
  else if 400 < leading then 1 / 0
  else Float.ofScientific digits (exponent < 0) exponent.natAbs

/-- The exponent part of a numeral: nothing, or a letter `e`, a sign or none, and digits. -/
def exponent? : List Char → Option Int
  | [] => some 0
  | e :: cs =>
    if e.toLower = 'e' then
      let (negative, digits) := spanSign cs
      if digits ≠ [] ∧ digits.all Char.isDigit then
        some (if negative then -(valueOf digits : Int) else (valueOf digits : Int))
      else none
    else none

/-- A numeral without a sign: digits on at least one side of the point, then the exponent. -/
def unsigned? (cs : List Char) : Option Float :=
  let (whole, afterWhole) := spanDigits cs
  let (fraction, afterFraction) := match afterWhole with
    | '.' :: rest => spanDigits rest
    | rest => ([], rest)
  if whole = [] ∧ fraction = [] then none
  else (exponent? afterFraction).map fun e =>
    nearest (valueOf (whole ++ fraction)) (e - (fraction.length : Int))

def named? (cs : List Char) : Option Float :=
  let name := String.ofList (cs.map Char.toLower)
  if name = "inf" ∨ name = "infinity" then some (1 / 0)
  else if name = "nan" then some (0 / 0)
  else none

/-- The double that a text names. -/
def real? (s : String) : Option Float :=
  let (negative, cs) := spanSign s.toList
  ((named? cs).or (unsigned? cs)).map fun x => if negative then -x else x

end Linkage.Decimal
