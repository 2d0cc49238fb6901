import Linkage.Event
import Linkage.Matrix

/-!
# Tallies

A tally counts invocations as they arrive. Classes are numbered in the order of their first
invocation of, or by, another class; a class that only invokes itself gets no number. The matrix of
a tally numbers the classes by name instead, so it depends only on how often each event was
recorded.

Embeds the type `CouplingAggregator` with its functions `get_or_create_class` as `intern`, `record`,
`record_event`, `extend` as `recordAll` and `build`, and `aggregate` as `Matrix.ofEvents`.
-/

namespace Linkage

structure Tally where
  /-- The classes in the order of their numbers. -/
  names : Array String
  index : Std.TreeMap String Nat
  /-- Invocations in either direction, the lower number first. -/
  pairCounts : Counts
  callCounts : Counts
  /-- Invocations between two classes. -/
  total : Nat
  /-- Invocations of a class from itself. -/
  selfTotal : Nat

namespace Tally

def empty : Tally := ⟨#[], ∅, ∅, ∅, 0, 0⟩

/-- The number of a class, and the tally in which it has one. -/
def intern (t : Tally) (name : String) : Nat × Tally :=
  match t.index[name]? with
  | some i => (i, t)
  | none =>
    let i := t.names.size
    (i, { t with names := t.names.push name, index := t.index.insert name i })

def record (t : Tally) (caller callee : String) : Tally :=
  if caller = callee then { t with selfTotal := t.selfTotal + 1 }
  else
    let (a, t) := t.intern caller
    let (b, t) := t.intern callee
    { t with
      pairCounts := t.pairCounts.bump (indexKey a b)
      callCounts := t.callCounts.bump (a, b)
      total := t.total + 1 }

def recordEvent (t : Tally) (e : Event) : Tally := t.record e.caller e.callee

def recordAll (t : Tally) (events : List Event) : Tally := events.foldl recordEvent t

def classes (t : Tally) : List String := t.index.keys

/-- The place of each class in ascending order, by its number in the tally. -/
def places (t : Tally) : Array Nat :=
  let sorted := t.classes
  t.names.map fun name => sorted.idxOf name

def build (t : Tally) : Matrix :=
  let places := t.places
  let place (i : Nat) : Nat := places.getD i 0
  { classes := t.classes
    pairCounts := (t.pairCounts.rekey fun (a, b) => indexKey (place a) (place b)).toList
    callCounts := (t.callCounts.rekey fun (a, b) => (place a, place b)).toList
    total := t.total }

end Tally

def Matrix.ofEvents (events : List Event) : Matrix := (Tally.empty.recordAll events).build

end Linkage
