/-!
# Bytes and lines

What a file holds is a list of bytes. A text becomes bytes by UTF-8, and bytes are a text only if
they are well-formed UTF-8. A file of lines is cut at its line feeds: the line feed and one carriage
return before it end a line, a last line may lack its line feed, and a final line feed opens no
further line.

Embeds the lines that `parse_text_events` and `load_class_list` read.
-/

namespace Linkage.Text

abbrev Bytes := List UInt8

def encode (s : String) : Bytes := s.toUTF8.data.toList

/-- The text that the bytes spell, if they are well-formed UTF-8. -/
def decode? (bs : Bytes) : Option String := String.fromUTF8? ⟨bs.toArray⟩

def lineFeed : UInt8 := 10

def carriageReturn : UInt8 := 13

/-- One line: its bytes, and whether a line feed ended it. -/
structure Line where
  bytes : Bytes
  ended : Bool
deriving DecidableEq, Repr

namespace Line

def empty : Line := ⟨[], true⟩

def consByte (b : UInt8) (lines : List Line) : List Line :=
  if b = lineFeed then empty :: lines
  else match lines with
    | [] => [⟨[b], false⟩]
    | l :: ls => { l with bytes := b :: l.bytes } :: ls

def ofBytes (bs : Bytes) : List Line := bs.foldr consByte []

/-- The bytes that count: without the carriage return before the line feed. -/
def content (l : Line) : Bytes :=
  if l.ended && l.bytes.getLast? == some carriageReturn then l.bytes.dropLast else l.bytes

def text? (l : Line) : Option String := decode? l.content

end Line

end Linkage.Text
