/-!
# Tables

A table file holds named columns of equal length. A column holds texts or whole numbers, and any
cell may be empty.

Embeds the data frame that `load_invocation_events` takes two columns of.
-/

namespace Linkage.Files

inductive Cells where
  | texts (cells : List (Option String))
  | integers (cells : List (Option Int))
deriving DecidableEq, Repr

structure Column where
  name : String
  cells : Cells
deriving DecidableEq, Repr

abbrev Table := List Column

/-- The cells of the column with a name, if there is one and it holds texts. -/
def Table.texts? (t : Table) (name : String) : Option (List (Option String)) :=
  match t.find? fun c => c.name == name with
  | some ⟨_, .texts cells⟩ => some cells
  | _ => none

end Linkage.Files
