import Linkage.Json.Fault
import Linkage.Text.Bytes
import Linkage.Decimal.Numeral

/-!
# Reading JSON from bytes

The parts of a JSON text, read from the front of a list of bytes. A reader returns what it read and
the bytes that follow, or the first fault that it meets; bytes behind that fault are never looked
at. A value that nobody asked for is skipped: then only its syntax counts, so a number may have any
size and a string may hold any escape.

Embeds the reading of JSON below `from_file` and `load_events`.
-/

namespace Linkage.Json
open Linkage.Text

abbrev Reader := StateT Bytes (Except Fault)

def byteOf (c : Char) : UInt8 := c.toNat.toUInt8

def isSpace (b : UInt8) : Bool := b == 0x20 || b == 0x09 || b == 0x0A || b == 0x0D

def isDigit (b : UInt8) : Bool := 0x30 ≤ b && b ≤ 0x39

def digitValue (b : UInt8) : Nat := b.toNat - 0x30

def skipSpaces : Reader Unit := modify fun input => input.dropWhile isSpace

def advance : Reader Unit := modify fun input => input.drop 1

/-- The first byte that is no blank, which stays in front; `fault` if there is none. -/
def peekOr (fault : Fault) : Reader UInt8 := do
  skipSpaces
  match ← get with
  | [] => throw fault
  | b :: _ => return b

/-- The letters of `true`, `false` or `null` after the first. -/
def readLetters : List Char → Reader Unit
  | [] => return
  | c :: cs => do
    match ← get with
    | [] => throw .endInValue
    | b :: rest =>
      if b = byteOf c then
        set rest
        readLetters cs
      else throw .expectedIdent

def readDigits : Reader Bytes := do
  let input ← get
  set (input.dropWhile isDigit)
  return input.takeWhile isDigit

def escapedByte? (b : UInt8) : Option UInt8 :=
  if b = byteOf '"' ∨ b = byteOf '\\' ∨ b = byteOf '/' then some b
  else if b = byteOf 'b' then some 0x08
  else if b = byteOf 'f' then some 0x0C
  else if b = byteOf 'n' then some 0x0A
  else if b = byteOf 'r' then some 0x0D
  else if b = byteOf 't' then some 0x09
  else none

def hexValue? (b : UInt8) : Option Nat :=
  if isDigit b then some (b.toNat - 0x30)
  else if 0x61 ≤ b ∧ b ≤ 0x66 then some (b.toNat - 0x57)
  else if 0x41 ≤ b ∧ b ≤ 0x46 then some (b.toNat - 0x37)
  else none

def hexUnit? (a b c d : UInt8) : Option Nat := do
  return ((← hexValue? a) * 16 + (← hexValue? b)) * 256 + (← hexValue? c) * 16 + (← hexValue? d)

def opensPair (unit : Nat) : Bool := 0xD800 ≤ unit && unit ≤ 0xDBFF

def closesPair (unit : Nat) : Bool := 0xDC00 ≤ unit && unit ≤ 0xDFFF

def pairValue (high low : Nat) : Nat := (high - 0xD800) * 0x400 + (low - 0xDC00) + 0x10000

def codePointBytes (n : Nat) : Bytes := encode (String.singleton (Char.ofNat n))

def prependTo (front : Bytes) : Except Fault (Bytes × Bytes) → Except Fault (Bytes × Bytes) :=
  Except.map fun (body, rest) => (front ++ body, rest)

/-- The body of a string up to its closing quote, escapes replaced, and what follows the quote. -/
def stringBody : Bytes → Except Fault (Bytes × Bytes)
  | [] => .error .endInString
  | b :: rest =>
    if b = byteOf '"' then .ok ([], rest)
    else if b = byteOf '\\' then
      match rest with
      | [] => .error .endInString
      | e :: rest =>
        if e = byteOf 'u' then
          match rest with
          | h₁ :: h₂ :: h₃ :: h₄ :: rest =>
            match hexUnit? h₁ h₂ h₃ h₄ with
            | none => .error .invalidEscape
            | some high =>
              if closesPair high then .error .loneSurrogate
              else if opensPair high then
                match rest with
                | [] => .error .endInString
                | s :: rest =>
                  if s = byteOf '\\' then
                    match rest with
                    | [] => .error .endInString
                    | u :: rest =>
                      if u = byteOf 'u' then
                        match rest with
                        | l₁ :: l₂ :: l₃ :: l₄ :: rest =>
                          match hexUnit? l₁ l₂ l₃ l₄ with
                          | none => .error .invalidEscape
                          | some low =>
                            if closesPair low then
                              prependTo (codePointBytes (pairValue high low)) (stringBody rest)
                            else .error .loneSurrogate
                        | _ => .error .endInString
                      else .error .endOfSurrogates
                  else .error .endOfSurrogates
              else prependTo (codePointBytes high) (stringBody rest)
          | _ => .error .endInString
        else match escapedByte? e with
          | some c => prependTo [c] (stringBody rest)
          | none => .error .invalidEscape
    else if b < 0x20 then .error .controlCharacter
    else prependTo [b] (stringBody rest)

/-- A string whose opening quote is read. Its bytes have to be a text. -/
def readString : Reader String := do
  let (body, rest) ← stringBody (← get)
  set rest
  match decode? body with
  | some s => return s
  | none => throw .invalidCodePoint

/-- What follows the closing quote of a string that is skipped. -/
def afterString : Bytes → Except Fault Bytes
  | [] => .error .endInString
  | b :: rest =>
    if b = byteOf '"' then .ok rest
    else if b = byteOf '\\' then
      match rest with
      | [] => .error .endInString
      | e :: rest =>
        if e = byteOf 'u' then
          match rest with
          | h₁ :: h₂ :: h₃ :: h₄ :: rest =>
            if (hexUnit? h₁ h₂ h₃ h₄).isSome then afterString rest else .error .invalidEscape
          | _ => .error .endInString
        else if (escapedByte? e).isSome then afterString rest
        else .error .invalidEscape
    else if b < 0x20 then .error .controlCharacter
    else afterString rest

def skipString : Reader Unit := do set (← afterString (← get))

/-- A number as it is written: a whole number that fits 64 bits, or a double. -/
inductive Number where
  | whole (i : Int)
  | real (x : Float)

/-- Counts as many digits into `n` as keep it below two to the 64, and tells how many those are. -/
def absorb : Nat → Bytes → Nat × Nat
  | n, [] => (n, 0)
  | n, d :: ds =>
    let next := 10 * n + digitValue d
    if next < Nat.pow 2 64 then
      let (m, k) := absorb next ds
      (m, k + 1)
    else (n, 0)

def powerOfTen (n : Nat) : Float := Float.ofScientific 1 false n

/-- A double times ten to the `exponent`, by one multiplication or by divisions of at most 308
places; none if the value exceeds every double. -/
def scaled? (x : Float) (exponent : Int) : Option Float :=
  if exponent < -308 then
    if x == 0 then some x else scaled? (x / powerOfTen 308) (exponent + 308)
  else if exponent < 0 then some (x / powerOfTen exponent.natAbs)
  else if exponent ≤ 308 then
    let y := x * powerOfTen exponent.natAbs
    if y.isInf then none else some y
  else if x == 0 then some x
  else none
termination_by exponent.natAbs
decreasing_by omega

def signed (negative : Bool) (x : Float) : Float := if negative then -x else x

def readScaled (negative : Bool) (significand : Nat) (exponent : Int) : Reader Number :=
  match scaled? (Float.ofNat significand) exponent with
  | some x => return .real (signed negative x)
  | none => throw .outOfRange

/-- The exponent after its letter: a sign or none, and digits. An exponent beyond 31 bits is decided
at once. -/
def readExponent (negative : Bool) (significand : Nat) (start : Int) : Reader Number := do
  let down ← do
    match ← get with
    | b :: rest =>
      if b = byteOf '-' then
        set rest
        pure true
      else if b = byteOf '+' then
        set rest
        pure false
      else pure false
    | [] => pure false
  let digits ← readDigits
  if digits = [] then
    match ← get with
    | [] => throw .endInValue
    | _ => throw .invalidNumber
  else
    let e := digits.foldl (fun n d => 10 * n + digitValue d) 0
    if e < Nat.pow 2 31 then readScaled negative significand (if down then start - e else start + e)
    else if significand ≠ 0 ∧ !down then throw .outOfRange
    else return .real (signed negative 0)

def atExponent (input : Bytes) : Bool :=
  match input with
  | b :: _ => b == byteOf 'e' || b == byteOf 'E'
  | [] => false

/-- A number whose minus, if any, is read. Digits beyond 64 bits only move the point. -/
def readNumber (negative : Bool) : Reader Number := do
  let digits ← readDigits
  match digits with
  | [] => do
    match ← get with
    | [] => throw .endInValue
    | _ => throw .invalidNumber
  | d :: rest =>
    if d = byteOf '0' ∧ rest ≠ [] then throw .invalidNumber
    let (significand, taken) := absorb 0 digits
    let dropped : Int := digits.length - taken
    let input ← get
    if input.head? = some (byteOf '.') then
      advance
      let fraction ← readDigits
      if fraction = [] then
        match ← get with
        | [] => throw .endInValue
        | _ => throw .invalidNumber
      else
        let (significand, taken) := absorb significand fraction
        let exponent := dropped - taken
        if atExponent (← get) then
          advance
          readExponent negative significand exponent
        else readScaled negative significand exponent
    else if atExponent input then
      advance
      readExponent negative significand dropped
    else if dropped ≠ 0 then readScaled negative significand dropped
    else if !negative then return .whole significand
    else if significand = 0 ∨ Nat.pow 2 63 < significand then
      return .real (-(Float.ofNat significand))
    else return .whole (-(significand : Int))

def skipDigits : Reader Unit := do
  if (← readDigits) = [] then throw .invalidNumber

def skipNumber : Reader Unit := do
  match ← readDigits with
  | [] => throw .invalidNumber
  | d :: rest => if d = byteOf '0' ∧ rest ≠ [] then throw .invalidNumber
  if (← get).head? = some (byteOf '.') then
    advance
    skipDigits
  if atExponent (← get) then
    advance
    match (← get).head? with
    | some b => if b = byteOf '+' ∨ b = byteOf '-' then advance
    | none => pure ()
    skipDigits

/-! ### Skipping values -/

/-- A bound on the parts of a text. Every part that is entered takes at least one byte, and at most
two parts start at the same one. -/
def fuelFor (input : Bytes) : Nat := 2 * input.length + 2

mutual

/-- Skips a value of any kind; `fuel` bounds the parts that are entered. -/
def skipValue (fuel : Nat) : Reader Unit :=
  match fuel with
  | 0 => throw .endInValue
  | fuel + 1 => do
    let b ← peekOr .endInValue
    if b = byteOf 'n' then
      advance
      readLetters ['u', 'l', 'l']
    else if b = byteOf 't' then
      advance
      readLetters ['r', 'u', 'e']
    else if b = byteOf 'f' then
      advance
      readLetters ['a', 'l', 's', 'e']
    else if b = byteOf '-' then
      advance
      skipNumber
    else if isDigit b then skipNumber
    else if b = byteOf '"' then
      advance
      skipString
    else if b = byteOf '[' then
      advance
      if (← peekOr .endInList) = byteOf ']' then advance else skipItems fuel
    else if b = byteOf '{' then
      advance
      if (← peekOr .endInObject) = byteOf '}' then advance else skipMembers fuel
    else throw .expectedValue

def skipItems (fuel : Nat) : Reader Unit :=
  match fuel with
  | 0 => throw .endInList
  | fuel + 1 => do
    skipValue fuel
    let b ← peekOr .endInList
    advance
    if b = byteOf ',' then skipItems fuel
    else if b = byteOf ']' then return
    else throw .expectedListEnd

def skipMembers (fuel : Nat) : Reader Unit :=
  match fuel with
  | 0 => throw .endInObject
  | fuel + 1 => do
    if (← peekOr .endInObject) ≠ byteOf '"' then throw .keyNotString
    advance
    skipString
    if (← peekOr .endInObject) ≠ byteOf ':' then throw .expectedColon
    advance
    skipValue fuel
    let b ← peekOr .endInObject
    advance
    if b = byteOf ',' then skipMembers fuel
    else if b = byteOf '}' then return
    else throw .expectedObjectEnd

end

end Linkage.Json
