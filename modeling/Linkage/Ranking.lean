/-!
# Rankings and pairs of positions

Sorting a list by a total preorder, elements of equal rank keeping their order, and the pairs of
elements at two positions of a list, by the first position and then by the second.

Embeds the stable sorts of `strongest_pairs` and `central_classes` and the loops over pairs of
`cohesion`, `average_linkage` and `most_coupled_pair`.
-/

namespace Linkage

/-- Puts `x` before the first element that may follow it. -/
def insertBy {α : Type} (before : α → α → Bool) (x : α) : List α → List α
  | [] => [x]
  | y :: ys => if before x y then x :: y :: ys else y :: insertBy before x ys

/-- The list sorted; `before x y` says that `x` may stand before `y`. -/
def sortBy {α : Type} (before : α → α → Bool) (xs : List α) : List α :=
  xs.foldr (insertBy before) []

/-- The pairs of elements at positions `i < j`. -/
def pairsOf {α : Type} : List α → List (α × α)
  | [] => []
  | x :: xs => xs.map (fun y => (x, y)) ++ pairsOf xs

def crossPairs {α β : Type} (xs : List α) (ys : List β) : List (α × β) :=
  xs.flatMap fun x => ys.map fun y => (x, y)

end Linkage
