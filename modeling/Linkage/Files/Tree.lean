import Linkage.Files.Path
import Linkage.Files.Table
import Linkage.Text.Bytes

/-!
# File trees

A file tree says what is at each place: nothing, a directory, or a file with its content. Paths are
followed part by part, and every part but the last has to lead to a directory. The operations that
change a tree make directories and replace files; a failed one keeps what was done before it.

Embeds the calls of the file system by `load_events`, `load_class_list`, `from_file`, `save_results`
and `export_graph`, with `create_dir_all` as `ensureDirectories`.
-/

namespace Linkage.Files
open Linkage.Text

inductive Fault where
  | noEntry
  | fileExists
  | notDirectory
  | isDirectory
  | notText
deriving DecidableEq, Repr

def Fault.message : Fault → String
  | .noEntry => "No such file or directory (os error 2)"
  | .fileExists => "File exists (os error 17)"
  | .notDirectory => "Not a directory (os error 20)"
  | .isDirectory => "Is a directory (os error 21)"
  | .notText => "stream did not contain valid UTF-8"

/-- The content of a file. A file that is read as a table has bytes as any other, and how they are
those of the table is left open: where none are named, they start as such files do and are no
text. -/
inductive Content where
  | bytes (content : Bytes)
  | table (content : Table) (raw : Bytes := encode "PAR1" ++ [0xFF])
deriving DecidableEq, Repr

def Content.toBytes : Content → Bytes
  | .bytes content => content
  | .table _ raw => raw

inductive Entry where
  | directory
  | file (content : Content)
deriving DecidableEq, Repr

/-- A tree of files: the entries below the directory where relative paths start. -/
structure Tree where
  entries : List (Place × Entry)
deriving DecidableEq, Repr

/-- Replaces the entry with a key, or adds it at the end. -/
def replaceOrAdd (place : Place) (entry : Entry) : List (Place × Entry) → List (Place × Entry)
  | [] => [(place, entry)]
  | e :: es => if e.1 = place then (place, entry) :: es else e :: replaceOrAdd place entry es

namespace Tree

def empty : Tree := ⟨[]⟩

/-- What is at a place. The directory where paths start is always there. -/
def entry? (t : Tree) (place : Place) : Option Entry :=
  if place = [] then some .directory else t.entries.lookup place

def put (t : Tree) (place : Place) (entry : Entry) : Tree := ⟨replaceOrAdd place entry t.entries⟩

/-- The place that parts of a path lead to. Each part starts from a directory. -/
def follow (t : Tree) (here : Place) : List String → Except Fault Place
  | [] => .ok here
  | part :: rest =>
    match t.entry? here with
    | some .directory => t.follow (stepTo here part) rest
    | some (.file _) => .error .notDirectory
    | none => .error .noEntry

def find? (t : Tree) (path : String) : Option Entry :=
  if path = "" then none
  else
    let last := if endsInSlash path then ["."] else []
    match t.follow [] (parts path ++ last) with
    | .ok place => t.entry? place
    | .error _ => none

def read (t : Tree) (path : String) : Except Fault Content :=
  match t.find? path with
  | some (.file content) => .ok content
  | some .directory => .error .isDirectory
  | none => .error .noEntry

end Tree

/-- An action on a file tree that can fail. What it changed before it failed stays changed. -/
abbrev Action := ExceptT Fault (StateM Tree)

/-- Makes one directory; those on the way to it have to be there. -/
def Tree.withDirectory (t : Tree) (path : List String) : Except Fault Tree := do
  let parent ← t.follow [] path.dropLast
  match t.entry? parent, path.getLast? with
  | none, _ => throw .noEntry
  | some (.file _), _ => throw .notDirectory
  | some .directory, none => throw .noEntry
  | some .directory, some part =>
    let place := stepTo parent part
    if (t.entry? place).isSome then throw .fileExists else return t.put place .directory

def Tree.isDirectory (t : Tree) (path : List String) : Bool :=
  match t.follow [] path with
  | .ok place => t.entry? place == some .directory
  | .error _ => false

def ensureDirectory (path : List String) : Action Unit := do
  let t ← get
  match t.withDirectory path with
  | .ok changed => set changed
  | .error fault => if t.isDirectory path then return else throw fault

/-- The parts, from the last to the first, of the directory above a path. Dots at the end do not
count. -/
def reversedParent (reversed : List String) : List String :=
  ((reversed.dropWhile fun p => p == ".").drop 1).dropWhile fun p => p == "."

theorem length_reversedParent_lt (part : String) (rest : List String) :
    (reversedParent (part :: rest)).length < (part :: rest).length := by
  let isDot (p : String) : Bool := p == "."
  let undotted := (part :: rest).dropWhile isDot
  have outer : ((undotted.drop 1).dropWhile isDot).length ≤ (undotted.drop 1).length :=
    (List.dropWhile_sublist isDot).length_le
  have inner : undotted.length ≤ (part :: rest).length :=
    (List.dropWhile_sublist isDot).length_le
  rw [List.length_drop] at outer
  change ((undotted.drop 1).dropWhile isDot).length < (part :: rest).length
  rw [List.length_cons] at inner ⊢
  omega

/-- Makes a directory and those on the way to it, unless they are there. The parts of the path are
given from the last to the first. -/
def ensureReversed (reversed : List String) : Action Unit :=
  match reversed with
  | [] => return
  | part :: rest => do
    let path := (part :: rest).reverse
    let t ← get
    match t.withDirectory path with
    | .error .noEntry =>
      ensureReversed (reversedParent (part :: rest))
      ensureDirectory path
    | _ => ensureDirectory path
termination_by reversed.length
decreasing_by exact length_reversedParent_lt part rest

/-- Makes the directory that a path names and those on the way to it, unless they are there. -/
def ensureDirectories (path : String) : Action Unit := ensureReversed (parts path).reverse

/-- Makes the content of a file; one that is there already is replaced as a whole. -/
def Tree.withFile (t : Tree) (path : String) (content : Bytes) : Except Fault Tree := do
  let place ← t.follow [] (parts path)
  let parent ← t.follow [] (parts path).dropLast
  match t.entry? parent, t.entry? place with
  | none, _ => throw .noEntry
  | some (.file _), _ => throw .notDirectory
  | some .directory, some .directory => throw .isDirectory
  | some .directory, _ => return t.put place (.file (.bytes content))

def writeText (path : String) (text : String) : Action Unit := do
  let t ← get
  let changed ← liftM (t.withFile path (encode text))
  set changed

end Linkage.Files
