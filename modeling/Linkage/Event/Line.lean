import Linkage.Error
import Linkage.Event
import Linkage.Text.Blank
import Linkage.Text.Split

/-!
# Events as lines of text

One event a line: the caller, an arrow or a comma, the callee. Blanks around the names do not count.
Blank lines and lines that begin with a number sign are skipped, and so is a heading on the first
line that counts. The lines are read by one fold, so a text in two parts is read part by part; the
writers of both line forms stand beside the reader.

Embeds `split_event_line` as `ofLine?`, `is_header` as `isHeading`, and `parse_text_events`, the
loop of which is `readLines`.
-/

namespace Linkage.Event
open Linkage.Text

def arrow : List Char := ['-', '>']

def comma : List Char := [',']

/-- The two sides of the first arrow or, without an arrow, of the first comma. -/
def sides? (line : List Char) : Option (List Char × List Char) :=
  (splitFirst arrow line).or (splitFirst comma line)

/-- The event that a line names. Both names have to be there, and nothing more after the callee. -/
def ofLine? (line : List Char) : Option Event := do
  let (left, right) ← sides? line
  let caller := stripEnds isBlank left
  let callee := stripEnds isBlank right
  if caller = [] ∨ callee = [] ∨ holds comma callee ∨ holds arrow callee then none
  else some ⟨String.ofList caller, String.ofList callee⟩

/-- The names of the two columns, in any case and with any spaces. -/
def isHeading (line : List Char) : Bool :=
  ((line.filter fun c => c != ' ').map Char.toLower) == "caller,callee".toList

/-- A line that holds no event: blank, or a comment. -/
def isIdle (line : List Char) : Bool := line.isEmpty || line.head? == some '#'

structure Progress where
  lines : Nat
  /-- A line that is neither blank nor a comment was read. -/
  started : Bool
  /-- The events, the latest first. -/
  events : List Event
deriving DecidableEq, Repr

namespace Progress

def start : Progress := ⟨0, false, []⟩

def readLine (p : Progress) (l : Line) : Except Error Progress :=
  let p := { p with lines := p.lines + 1 }
  match l.text? with
  | none => .error (.file .notText)
  | some text =>
    let line := stripEnds isBlank text.toList
    if isIdle line then .ok p
    else if !p.started && isHeading line then .ok { p with started := true }
    else match ofLine? line with
      | some event => .ok { p with started := true, events := event :: p.events }
      | none => .error (.malformedEvent p.lines (String.ofList line))

/-- Reads lines, the first one that cannot be read being an error. -/
def readLines (p : Progress) (lines : List Line) : Except Error Progress := lines.foldlM readLine p

end Progress

def ofText (content : Bytes) : Except Error (List Event) :=
  (Progress.start.readLines (Line.ofBytes content)).map fun p => p.events.reverse

def arrowLine (e : Event) : String := e.caller ++ " -> " ++ e.callee ++ "\n"

def commaLine (e : Event) : String := e.caller ++ "," ++ e.callee ++ "\n"

def toText (line : Event → String) (events : List Event) : Bytes :=
  events.flatMap fun e => encode (line e)

end Linkage.Event
