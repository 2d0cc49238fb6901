import Linkage.Json.Value
import Linkage.Text.Quoted

/-!
# What can be wrong with a JSON text

The causes for which a JSON text is refused, of syntax and of type alike, and the wording of each.

Embeds the errors of JSON that `from_file` and `load_events` pass on.
-/

namespace Linkage.Json

inductive Found where
  | null
  | truth (b : Bool)
  | integer (i : Int)
  | real (x : Float)
  | text (s : String)
  | array
  | object

def Found.describe : Found → String
  | .null => "null"
  | .truth b => s!"boolean `{b}`"
  | .integer i => s!"integer `{i}`"
  | .real x => s!"floating point `{numberLayout.render x}`"
  | .text s => s!"string {Text.quoted s}"
  | .array => "sequence"
  | .object => "map"

inductive Fault where
  /-- The text ends where a value, or more of one, is due. -/
  | endInValue
  | endInList
  | endInObject
  | endInString
  | expectedValue
  /-- A letter that does not continue `true`, `false` or `null`. -/
  | expectedIdent
  | invalidNumber
  /-- A number greater than every double. -/
  | outOfRange
  | expectedColon
  | expectedListEnd
  | expectedObjectEnd
  | keyNotString
  | trailingComma
  | trailingText
  | controlCharacter
  | invalidEscape
  /-- A surrogate escape that does not start or complete a pair. -/
  | loneSurrogate
  /-- The first surrogate escape of a pair is not followed by another escape. -/
  | endOfSurrogates
  | invalidCodePoint
  | wrongType (found : Found) (wanted : String)
  | wrongValue (value : Int) (wanted : String)
  | unknownChoice (name first second : String)
  | duplicateField (name : String)
  | missingField (name : String)
  /-- An array that stands for a record has too few items. -/
  | wrongLength (length : Nat) (record : String) (fields : Nat)

def Fault.message : Fault → String
  | .endInValue => "EOF while parsing a value"
  | .endInList => "EOF while parsing a list"
  | .endInObject => "EOF while parsing an object"
  | .endInString => "EOF while parsing a string"
  | .expectedValue => "expected value"
  | .expectedIdent => "expected ident"
  | .invalidNumber => "invalid number"
  | .outOfRange => "number out of range"
  | .expectedColon => "expected `:`"
  | .expectedListEnd => "expected `,` or `]`"
  | .expectedObjectEnd => "expected `,` or `\x7d`"
  | .keyNotString => "key must be a string"
  | .trailingComma => "trailing comma"
  | .trailingText => "trailing characters"
  | .controlCharacter => "control character (\\u0000-\\u001F) found while parsing a string"
  | .invalidEscape => "invalid escape"
  | .loneSurrogate => "lone leading surrogate in hex escape"
  | .endOfSurrogates => "unexpected end of hex escape"
  | .invalidCodePoint => "invalid unicode code point"
  | .wrongType found wanted => s!"invalid type: {found.describe}, expected {wanted}"
  | .wrongValue value wanted => s!"invalid value: integer `{value}`, expected {wanted}"
  | .unknownChoice name first second =>
    s!"unknown variant `{name}`, expected `{first}` or `{second}`"
  | .duplicateField name => s!"duplicate field `{name}`"
  | .missingField name => s!"missing field `{name}`"
  | .wrongLength length record fields =>
    s!"invalid length {length}, expected struct {record} with {fields} elements"

end Linkage.Json
