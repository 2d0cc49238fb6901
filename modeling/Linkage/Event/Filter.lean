import Linkage.Event.Source

/-!
# Events of the project

A filter keeps the events between classes of the project. A class belongs to it if its name is not
blank, begins with no excluded prefix and, where there is a list of classes, stands in the list. A
dropped event is counted by the first of these tests that one of its two names fails.

Embeds the types `FilterStats` and `EventFilter` with the functions `dropped`, `is_excluded`,
`is_known` as `isListed`, `is_project_class` and `apply`.
-/

namespace Linkage

structure Filter where
  excludedPrefixes : List String
  classes : Option ClassList

structure FilterStats where
  kept : Nat
  blank : Nat
  excluded : Nat
  unknown : Nat
deriving DecidableEq, Repr

def FilterStats.dropped (s : FilterStats) : Nat := s.blank + s.excluded + s.unknown

namespace Filter

def isExcluded (f : Filter) (name : String) : Bool :=
  f.excludedPrefixes.any fun p => p.toList.isPrefixOf name.toList

/-- A name in the list of classes; without a list every name is. -/
def isListed (f : Filter) (name : String) : Bool := f.classes.all fun c => c.contains name

def isProjectClass (f : Filter) (name : String) : Bool :=
  !Text.isAllBlank name && !f.isExcluded name && f.isListed name

inductive Verdict where
  | kept
  | blank
  | excluded
  | unknown
deriving DecidableEq, Repr

def verdict (f : Filter) (e : Event) : Verdict :=
  if Text.isAllBlank e.caller || Text.isAllBlank e.callee then .blank
  else if f.isExcluded e.caller || f.isExcluded e.callee then .excluded
  else if !f.isListed e.caller || !f.isListed e.callee then .unknown
  else .kept

/-- The events kept, in their order, and the numbers of all. -/
def apply (f : Filter) (events : List Event) : List Event × FilterStats :=
  let verdicts := events.map f.verdict
  (events.filter fun e => f.verdict e == .kept,
   { kept := verdicts.count .kept
     blank := verdicts.count .blank
     excluded := verdicts.count .excluded
     unknown := verdicts.count .unknown })

end Filter

end Linkage
