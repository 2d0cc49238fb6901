import Linkage.Json.Reader

/-!
# Shapes of JSON values

A shape says what a JSON value has to look like to be read as a value of some type, and the type
follows from the shape. One reader and one writer serve all shapes. A record is read from an object
with its members in any order, other members being skipped, or from an array of its fields in order.
In settings every field may be left out.

Embeds the derived readers and writers of the types that `from_file`, `load_events` and `write_json`
are used at.
-/

namespace Linkage.Json
open Linkage.Text

inductive Width where
  | word32
  | word64
  | size
deriving DecidableEq, Repr

def Width.name : Width → String
  | .word32 => "u32"
  | .word64 => "u64"
  | .size => "usize"

def Width.bound : Width → Nat
  | .word32 => Nat.pow 2 32
  | .word64 => Nat.pow 2 64
  | .size => Nat.pow 2 64

mutual

inductive Shape where
  | text
  | natural (width : Width)
  | real
  /-- One of two names. -/
  | choice (first second : String)
  | listOf (item : Shape)
  /-- A record whose fields all have to be there. -/
  | record (name : String) (fields : Fields)
  /-- A record whose fields may be left out. -/
  | settings (name : String) (fields : Fields)

inductive Fields where
  | done
  | field (name : String) (shape : Shape) (rest : Fields)

end

mutual

/-- The values of a shape. A choice is true if it is the second name. -/
def Shape.Value : Shape → Type
  | .text => String
  | .natural _ => Nat
  | .real => Float
  | .choice _ _ => Bool
  | .listOf item => List item.Value
  | .record _ fields => fields.Values
  | .settings _ fields => fields.Options

def Fields.Values : Fields → Type
  | .done => Unit
  | .field _ shape rest => shape.Value × rest.Values

def Fields.Options : Fields → Type
  | .done => Unit
  | .field _ shape rest => Option shape.Value × rest.Options

end

namespace Fields

def count : Fields → Nat
  | .done => 0
  | .field _ _ rest => rest.count + 1

def noOptions : (fields : Fields) → fields.Options
  | .done => ()
  | .field _ _ rest => (none, rest.noOptions)

/-- The values of all fields, or the first field without one. -/
def complete : (fields : Fields) → fields.Options → Except Fault fields.Values
  | .done, _ => .ok ()
  | .field name _ rest, (v, vs) =>
    match v with
    | none => .error (.missingField name)
    | some v => (rest.complete vs).map fun vs => (v, vs)

end Fields

/-! ### Writing -/

def chosenName (first second : String) (isSecond : Bool) : String :=
  if isSecond then second else first

mutual

def Shape.toJson : (s : Shape) → s.Value → Value
  | .text, s => .text s
  | .natural _, n => .natural n
  | .real, x => .real x
  | .choice first second, b => .text (chosenName first second b)
  | .listOf item, vs => .array (vs.map item.toJson)
  | .record _ fields, vs => .object (fields.members vs)
  | .settings _ fields, vs => .object (fields.someMembers vs)

def Fields.members : (fields : Fields) → fields.Values → List (String × Value)
  | .done, _ => []
  | .field name shape rest, (v, vs) => (name, shape.toJson v) :: rest.members vs

def Fields.someMembers : (fields : Fields) → fields.Options → List (String × Value)
  | .done, _ => []
  | .field name shape rest, (v, vs) =>
    match v with
    | none => rest.someMembers vs
    | some v => (name, shape.toJson v) :: rest.someMembers vs

end

/-! ### Reading -/

def Number.found : Number → Found
  | .whole i => .integer i
  | .real x => .real x

/-- Refuses the value whose first byte is `b`. A scalar is read to its end to say what it is, and
its own faults come first. -/
def refuse (α : Type) (b : UInt8) (wanted : String) : Reader α := do
  if b = byteOf 'n' then
    advance
    readLetters ['u', 'l', 'l']
    throw (.wrongType .null wanted)
  else if b = byteOf 't' then
    advance
    readLetters ['r', 'u', 'e']
    throw (.wrongType (.truth true) wanted)
  else if b = byteOf 'f' then
    advance
    readLetters ['a', 'l', 's', 'e']
    throw (.wrongType (.truth false) wanted)
  else if b = byteOf '-' then
    advance
    throw (.wrongType (← readNumber true).found wanted)
  else if isDigit b then throw (.wrongType (← readNumber false).found wanted)
  else if b = byteOf '"' then
    advance
    throw (.wrongType (.text (← readString)) wanted)
  else if b = byteOf '[' then throw (.wrongType .array wanted)
  else if b = byteOf '{' then throw (.wrongType .object wanted)
  else throw .expectedValue

def readText : Reader String := do
  let b ← peekOr .endInValue
  if b = byteOf '"' then
    advance
    readString
  else refuse String b "a string"

def readAnyNumber (wanted : String) : Reader Number := do
  let b ← peekOr .endInValue
  if b = byteOf '-' then
    advance
    readNumber true
  else if isDigit b then readNumber false
  else refuse Number b wanted

/-- Reads a double. A whole number becomes the nearest double. -/
def readReal : Reader Float := do
  match ← readAnyNumber "f64" with
  | .whole i => return if i < 0 then -(Float.ofNat i.natAbs) else Float.ofNat i.natAbs
  | .real x => return x

def readNatural (width : Width) : Reader Nat := do
  match ← readAnyNumber width.name with
  | .whole i =>
    if 0 ≤ i ∧ i.natAbs < width.bound then return i.natAbs
    else throw (.wrongValue i width.name)
  | .real x => throw (.wrongType (.real x) width.name)

def chosen (first second name : String) : Reader Bool :=
  if name = first then return false
  else if name = second then return true
  else throw (.unknownChoice name first second)

/-- Reads one of two names: a string, or an object with that name as its only key and null as the
value. -/
def readChoice (first second : String) : Reader Bool := do
  let b ← peekOr .endInValue
  if b = byteOf '"' then
    advance
    chosen first second (← readString)
  else if b = byteOf '{' then
    advance
    let q ← peekOr .endInObject
    if q = byteOf '}' then throw .expectedValue
    if q ≠ byteOf '"' then throw .keyNotString
    advance
    let which ← chosen first second (← readString)
    if (← peekOr .endInObject) ≠ byteOf ':' then throw .expectedColon
    advance
    let v ← peekOr .endInValue
    if v ≠ byteOf 'n' then refuse Unit v "unit"
    advance
    readLetters ['u', 'l', 'l']
    if (← peekOr .endInObject) ≠ byteOf '}' then throw .expectedValue
    advance
    return which
  else throw .expectedValue

/-- Whether another item stands in front, the comma before it being taken. The closing bracket
stays. -/
def anotherItem (first : Bool) : Reader Bool := do
  let b ← peekOr .endInList
  if b = byteOf ']' then return false
  else if first then return true
  else if b = byteOf ',' then
    advance
    if (← peekOr .endInValue) = byteOf ']' then throw .trailingComma
    return true
  else throw .expectedListEnd

def closeArray : Reader Unit := do
  let b ← peekOr .endInList
  advance
  if b = byteOf ']' then return
  else if b = byteOf ',' then
    skipSpaces
    if (← get).head? = some (byteOf ']') then throw .trailingComma else throw .trailingText
  else throw .trailingText

/-- Reads items up to the closing bracket; `fuel` bounds their number. -/
def readItemsFrom {α : Type} (item : Reader α) (first : Bool) (fuel : Nat) : Reader (List α) :=
  match fuel with
  | 0 => throw .endInList
  | fuel + 1 => do
    if ← anotherItem first then
      let x ← item
      let xs ← readItemsFrom item false fuel
      return x :: xs
    else return []

def readItems {α : Type} (item : Reader α) (fuel : Nat) : Reader (List α) := do
  let xs ← readItemsFrom item true fuel
  closeArray
  return xs

/-- Reads members up to the closing brace, the opening quote of a key being in front; `fuel` bounds
their number. The function `member` reads the value of a key. -/
def readMembersFrom {σ : Type} (member : String → σ → Reader σ) (fuel : Nat) (state : σ) :
    Reader σ :=
  match fuel with
  | 0 => throw .endInObject
  | fuel + 1 => do
    advance
    let key ← readString
    let state ← member key state
    let b ← peekOr .endInObject
    if b = byteOf '}' then
      advance
      return state
    else if b = byteOf ',' then
      advance
      let q ← peekOr .endInValue
      if q = byteOf '"' then readMembersFrom member fuel state
      else if q = byteOf '}' then throw .trailingComma
      else throw .keyNotString
    else throw .expectedObjectEnd

def readMembers {σ : Type} (member : String → σ → Reader σ) (fuel : Nat) (state : σ) :
    Reader σ := do
  let b ← peekOr .endInObject
  if b = byteOf '}' then
    advance
    return state
  else if b = byteOf '"' then readMembersFrom member fuel state
  else throw .keyNotString

def readColon : Reader Unit := do
  if (← peekOr .endInObject) ≠ byteOf ':' then throw .expectedColon
  advance

/-- What a record is called where something else stands in its place. -/
def recordName (name : String) : String := s!"struct {name}"

mutual

/-- Reads a value of a shape; `fuel` bounds the parts of an array or object. -/
def Shape.read (fuel : Nat) : (s : Shape) → Reader s.Value
  | .text => readText
  | .natural width => readNatural width
  | .real => readReal
  | .choice first second => readChoice first second
  | .listOf item => do
    let b ← peekOr .endInValue
    if b = byteOf '[' then
      advance
      readItems (item.read fuel) fuel
    else refuse (List item.Value) b "a sequence"
  | .record name fields => do
    let b ← peekOr .endInValue
    if b = byteOf '[' then
      advance
      let vs ← fields.readInOrder fuel name fields.count 0
      closeArray
      return vs
    else if b = byteOf '{' then
      advance
      let vs ← readMembers (fields.readMember fuel) fuel fields.noOptions
      liftM (fields.complete vs)
    else refuse fields.Values b (recordName name)
  | .settings name fields => do
    let b ← peekOr .endInValue
    if b = byteOf '[' then
      advance
      let vs ← fields.readLeading fuel true
      closeArray
      return vs
    else if b = byteOf '{' then
      advance
      readMembers (fields.readMember fuel) fuel fields.noOptions
    else refuse fields.Options b (recordName name)

/-- Reads the value of a key into its field. A field that has a value already is refused before its
colon; a key without a field has its value skipped. -/
def Fields.readMember (fuel : Nat) :
    (fields : Fields) → String → fields.Options → Reader fields.Options
  | .done, _, _ => do
    readColon
    skipValue fuel
  | .field name shape rest, key, (v, vs) =>
    if key = name then do
      if v.isSome then throw (.duplicateField name)
      readColon
      return (some (← shape.read fuel), vs)
    else do return (v, ← rest.readMember fuel key vs)

/-- Reads all fields from the items of an array, `index` of `total` being read already. -/
def Fields.readInOrder (fuel : Nat) : (fields : Fields) → String → Nat → Nat → Reader fields.Values
  | .done, _, _, _ => return ()
  | .field _ shape rest, name, total, index => do
    if ← anotherItem (index == 0) then
      let v ← shape.read fuel
      return (v, ← rest.readInOrder fuel name total (index + 1))
    else throw (.wrongLength index name total)

/-- Reads fields from the items of an array as far as there are items. -/
def Fields.readLeading (fuel : Nat) : (fields : Fields) → Bool → Reader fields.Options
  | .done, _ => return ()
  | .field _ shape rest, first => do
    if ← anotherItem first then
      let v ← shape.read fuel
      return (some v, ← rest.readLeading fuel false)
    else return (none, rest.noOptions)

end

structure Format (α : Type) where
  input : Shape
  ofInput : input.Value → α
  output : Shape
  toOutput : α → output.Value

namespace Format

def ofShape {α : Type} (s : Shape) (ofValue : s.Value → α) (toValue : α → s.Value) : Format α :=
  ⟨s, ofValue, s, toValue⟩

def list {α : Type} (f : Format α) : Format (List α) where
  input := .listOf f.input
  ofInput := List.map f.ofInput
  output := .listOf f.output
  toOutput := List.map f.toOutput

def toJson {α : Type} (f : Format α) (x : α) : Value := f.output.toJson (f.toOutput x)

/-- Reads a text that holds one value. Only blanks may follow it. -/
def decode {α : Type} (f : Format α) (bytes : Bytes) : Except Fault α := do
  let (v, rest) ← f.input.read (fuelFor bytes) bytes
  if rest.all isSpace then return f.ofInput v else throw .trailingText

end Format

end Linkage.Json
