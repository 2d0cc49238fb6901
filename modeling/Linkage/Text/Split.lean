/-!
# Splitting text

Cutting a text at a character wherever it stands, and in two at the first place where a given part
stands.

Embeds the splits of `split_event_line`.
-/

namespace Linkage.Text

/-- The pieces of a list between the elements equal to `sep`. There is always at least one piece. -/
def splitAll {α : Type} [DecidableEq α] (sep : α) : List α → List (List α)
  | [] => [[]]
  | x :: xs =>
    if x = sep then [] :: splitAll sep xs
    else match splitAll sep xs with
      | [] => [[x]]
      | piece :: pieces => (x :: piece) :: pieces

/-- What stands before and after the first occurrence of `part`. -/
def splitFirst {α : Type} [DecidableEq α] (part : List α) : List α → Option (List α × List α)
  | [] => if part = [] then some ([], []) else none
  | x :: xs =>
    if part.isPrefixOf (x :: xs) then some ([], (x :: xs).drop part.length)
    else (splitFirst part xs).map fun (before, after) => (x :: before, after)

def holds {α : Type} [DecidableEq α] (part xs : List α) : Bool := (splitFirst part xs).isSome

end Linkage.Text
