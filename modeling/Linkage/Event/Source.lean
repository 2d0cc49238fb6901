import Linkage.Event.Line
import Std.Data.TreeSet

/-!
# Files of events and of class names

Events are read from text lines, from a JSON array or from a table, by the extension of the file.
The classes of a project are read from a list with one name a line.

Embeds `from_path` of `EventFormat`, `load_events`, `load_invocation_events` as `loadTable`, and
`load_class_list`.
-/

namespace Linkage
open Linkage.Text

def readContent (tree : Files.Tree) (path : String) (fault : Files.Fault → Error) :
    Except Error Files.Content :=
  if (tree.find? path).isNone then .error (.fileNotFound path)
  else (tree.read path).mapError fault

namespace Event

inductive FileFormat where
  | text
  | json
  | table
deriving DecidableEq, Repr

/-- The format that an extension announces. -/
def FileFormat.ofPath (path : String) : FileFormat :=
  match Files.extension? path with
  | some "json" => .json
  | some "parquet" => .table
  | _ => .text

def callerColumn : String := "caller"

def calleeColumn : String := "callee"

/-- The events of a table: its rows with a name in both columns. -/
def ofTable? (table : Files.Table) : Option (List Event) := do
  let callers ← table.texts? callerColumn
  let callees ← table.texts? calleeColumn
  return (callers.zip callees).filterMap fun
    | (some caller, some callee) => some ⟨caller, callee⟩
    | _ => none

/-- The events of a file that is read as a table. Of the reader of tables it is taken that it reads
the two columns it is asked for in the order of their rows, that the path stands for itself and is
no pattern, and that a file which is no table and a directory are faults. -/
def loadTable (tree : Files.Tree) (path : String) : Except Error (List Event) := do
  match ← readContent tree path fun _ => .table with
  | .table table _ => (ofTable? table).elim (.error .table) .ok
  | .bytes _ => throw .table

def loadJson (tree : Files.Tree) (path : String) : Except Error (List Event) := do
  let content ← readContent tree path .jsonFile
  (format.list.decode content.toBytes).mapError .json

def loadText (tree : Files.Tree) (path : String) : Except Error (List Event) := do
  ofText (← readContent tree path .file).toBytes

def load (tree : Files.Tree) (path : String) : Except Error (List Event) :=
  match FileFormat.ofPath path with
  | .text => loadText tree path
  | .json => loadJson tree path
  | .table => loadTable tree path

end Event

abbrev ClassList := Std.TreeSet String

namespace ClassList

/-- The class that a line names, if it is neither blank nor a comment. -/
def ofLine? (text : String) : Option String :=
  let line := stripEnds isBlank text.toList
  if Event.isIdle line then none else some (String.ofList line)

def addLine (classes : ClassList) (l : Line) : Except Error ClassList :=
  match l.text? with
  | none => .error (.file .notText)
  | some text => .ok ((ofLine? text).elim classes classes.insert)

def load (tree : Files.Tree) (path : String) : Except Error ClassList := do
  let content ← readContent tree path .file
  (Line.ofBytes content.toBytes).foldlM addLine ∅

end ClassList

end Linkage
