import Linkage.Json.Shape

/-!
# Pairs of classes

The key under which the coupling of two classes is kept: the two names, the lesser one first. A
class makes no pair with itself.

Embeds the type `ClassPair`: its constructor `new` is `of?`, and its order and its JSON form are the
derived ones.
-/

namespace Linkage

structure ClassPair where
  first : String
  second : String
deriving DecidableEq, Repr

namespace ClassPair

/-- The pair of two classes, whichever is named first. -/
def of? (a b : String) : Option ClassPair :=
  match compare a b with
  | .lt => some ⟨a, b⟩
  | .gt => some ⟨b, a⟩
  | .eq => none

instance : Ord ClassPair := ⟨fun p q => (compare p.first q.first).then (compare p.second q.second)⟩

def text (p : ClassPair) : String := "\x7b" ++ p.first ++ ", " ++ p.second ++ "\x7d"

/-- The JSON form of a pair. Reading takes the names as they stand. -/
def format : Json.Format ClassPair :=
  .ofShape (.record "ClassPair" (.field "first" .text (.field "second" .text .done)))
    (fun (first, second, _) => ⟨first, second⟩)
    (fun p => (p.first, p.second, ()))

end ClassPair

end Linkage
