import Linkage.Decimal.Layout
import Linkage.Text.Blank

/-!
# JSON values and how they are written

A JSON value as a program builds it before writing: whole numbers and doubles are kept apart, and an
object keeps its members in the order given. There are two written forms, one without blanks and one
with a line for each item and an indent of two spaces, and a pass that sorts the members of every
object by name.

Embeds the writing of JSON below `write_json`.
-/

namespace Linkage.Json

inductive Value where
  | null
  | natural (n : Nat)
  | real (x : Float)
  | text (s : String)
  | array (items : List Value)
  | object (members : List (String × Value))
deriving Inhabited

/-- Doubles have a point or an exponent: positional from 0.00001 to below 10^16, with at least one
digit after the point, and otherwise with a signed exponent. -/
def numberLayout : Decimal.Layout where
  positional := fun e => decide (-5 ≤ e ∧ e ≤ 15)
  pointZero := true
  tie := .toEven

/-- The text of a double. A double that is not finite is written as null. -/
def realText (x : Float) : List Char :=
  if x.isFinite then (numberLayout.render x).toList else ['n', 'u', 'l', 'l']

def escapeLetter? (c : Char) : Option Char :=
  match c with
  | '"' => some '"'
  | '\\' => some '\\'
  | '\x08' => some 'b'
  | '\x0c' => some 'f'
  | '\n' => some 'n'
  | '\r' => some 'r'
  | '\t' => some 't'
  | _ => none

/-- One character inside a string. The other controls below the space are written by number. -/
def escapeChar (c : Char) : List Char :=
  match escapeLetter? c with
  | some l => ['\\', l]
  | none =>
    if c.toNat < 0x20 then
      ['\\', 'u', '0', '0', Nat.digitChar (c.toNat / 16), Nat.digitChar (c.toNat % 16)]
    else [c]

def stringText (s : String) : List Char := '"' :: (s.toList.flatMap escapeChar ++ ['"'])

mutual

def Value.compactChars : Value → List Char
  | .null => ['n', 'u', 'l', 'l']
  | .natural n => Nat.toDigits 10 n
  | .real x => realText x
  | .text s => stringText s
  | .array items => '[' :: (compactItems items ++ [']'])
  | .object members => '{' :: (compactMembers members ++ ['}'])

def compactItems : List Value → List Char
  | [] => []
  | [v] => v.compactChars
  | v :: vs => v.compactChars ++ ',' :: compactItems vs

def compactMembers : List (String × Value) → List Char
  | [] => []
  | [(k, v)] => stringText k ++ ':' :: v.compactChars
  | (k, v) :: ms => stringText k ++ ':' :: v.compactChars ++ ',' :: compactMembers ms

end

def Value.compact (v : Value) : String := String.ofList v.compactChars

def newLine (depth : Nat) : List Char := '\n' :: List.replicate (2 * depth) ' '

mutual

/-- A value at a nesting depth. An array or object without content stays on its line. -/
def Value.prettyChars (depth : Nat) : Value → List Char
  | .null => ['n', 'u', 'l', 'l']
  | .natural n => Nat.toDigits 10 n
  | .real x => realText x
  | .text s => stringText s
  | .array [] => ['[', ']']
  | .array (v :: vs) => '[' :: (prettyItems (depth + 1) (v :: vs) ++ newLine depth ++ [']'])
  | .object [] => ['{', '}']
  | .object (m :: ms) => '{' :: (prettyMembers (depth + 1) (m :: ms) ++ newLine depth ++ ['}'])

def prettyItems (depth : Nat) : List Value → List Char
  | [] => []
  | [v] => newLine depth ++ v.prettyChars depth
  | v :: vs => newLine depth ++ v.prettyChars depth ++ ',' :: prettyItems depth vs

def prettyMembers (depth : Nat) : List (String × Value) → List Char
  | [] => []
  | [(k, v)] => newLine depth ++ stringText k ++ ':' :: ' ' :: v.prettyChars depth
  | (k, v) :: ms =>
    newLine depth ++ stringText k ++ ':' :: ' ' :: v.prettyChars depth ++
      ',' :: prettyMembers depth ms

end

/-- The text of a value with indents, without a line feed at the end. -/
def Value.pretty (v : Value) : String := String.ofList (v.prettyChars 0)

/-- Puts a member before the first one with a greater name. -/
def insertMember (m : String × Value) : List (String × Value) → List (String × Value)
  | [] => [m]
  | x :: xs => if x.1 < m.1 then x :: insertMember m xs else m :: x :: xs

mutual

def Value.sorted : Value → Value
  | .array items => .array (sortedItems items)
  | .object members => .object (sortedMembers members)
  | v => v

def sortedItems : List Value → List Value
  | [] => []
  | v :: vs => v.sorted :: sortedItems vs

def sortedMembers : List (String × Value) → List (String × Value)
  | [] => []
  | (k, v) :: ms => insertMember (k, v.sorted) (sortedMembers ms)

end

end Linkage.Json
