import Linkage.Text.Split

/-!
# Paths

A path names a place by its parts between slashes. Empty parts do not count, except that a path
that begins with a slash has an empty part in front. A place is the list of names on the way down
to it from the directory where relative paths start.

Embeds the paths that `load_events`, `save_results` and `export_graph` extend and take apart.
-/

namespace Linkage.Files

abbrev Place := List String

def parts (path : String) : List String :=
  match (Text.splitAll '/' path.toList).map String.ofList with
  | "" :: rest@(_ :: _) => "" :: rest.filter (· ≠ "")
  | pieces => pieces.filter (· ≠ "")

def endsInSlash (path : String) : Bool := path.toList.getLast? == some '/'

def join (directory name : String) : String :=
  if directory = "" then name
  else if endsInSlash directory then directory ++ name
  else directory ++ "/" ++ name

def above (here : Place) : Place :=
  if here.all (· == "..") then here ++ [".."]
  else if here = [""] then here
  else here.dropLast

/-- The place reached from a directory by one part of a path: a dot stays, two dots go up. -/
def stepTo (here : Place) (part : String) : Place :=
  if part = "." then here
  else if part = ".." then above here
  else here ++ [part]

/-- The places that parts of a path lead to, one after each part. -/
def passed (parts : List String) : List Place :=
  (List.range parts.length).map fun n => (parts.take (n + 1)).foldl stepTo []

/-- The places that a path passes: the directories on the way to what it names, and that itself. -/
def placesAlong (path : String) : List Place := passed (parts path)

/-- The name that a path ends with. There is none if the path ends by going up or names no part. -/
def fileName? (path : String) : Option String :=
  match ((parts path).reverse.dropWhile fun p => p == ".").head? with
  | some name => if name = ".." ∨ name = "" then none else some name
  | none => none

/-- What follows the last dot of a name, if something stands before that dot. -/
def extensionOf? (name : String) : Option String :=
  let letters := name.toList.reverse
  let before := letters.dropWhile fun c => c != '.'
  if before.drop 1 = [] then none
  else some (String.ofList (letters.takeWhile fun c => c != '.').reverse)

/-- The extension of a path, in small letters. -/
def extension? (path : String) : Option String := do
  let ext ← extensionOf? (← fileName? path)
  return String.ofList (ext.toList.map Char.toLower)

end Linkage.Files
