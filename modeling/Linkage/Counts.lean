import Std.Data.TreeMap

/-!
# Counts by pairs of indexes

Classes are numbered, and invocations are counted under pairs of numbers: in the order of caller and
callee, or with the lower number first where the direction does not matter.

Embeds `index_key` and the maps of counts of `CouplingAggregator` and `CouplingMatrix`.
-/

namespace Linkage

abbrev IndexPair := Nat × Nat

def IndexPair.compare : IndexPair → IndexPair → Ordering :=
  compareLex (compareOn Prod.fst) (compareOn Prod.snd)

instance : Std.TransCmp IndexPair.compare :=
  inferInstanceAs (Std.TransCmp (compareLex (compareOn Prod.fst) (compareOn Prod.snd)))

instance : Std.LawfulEqCmp IndexPair.compare where
  eq_of_compare {p q} h := by
    simp only [IndexPair.compare, compareLex, compareOn, Ordering.then_eq_eq] at h
    exact Prod.ext (Std.LawfulEqCmp.eq_of_compare h.1) (Std.LawfulEqCmp.eq_of_compare h.2)

/-- The pair of two indexes without direction: the lower one first. -/
def indexKey (a b : Nat) : IndexPair := if a ≤ b then (a, b) else (b, a)

/-- Numbers of invocations by pairs of classes. A pair that was never seen is not there. -/
abbrev Counts := Std.TreeMap IndexPair Nat IndexPair.compare

namespace Counts

def get (c : Counts) (key : IndexPair) : Nat := c.getD key 0

def bump (c : Counts) (key : IndexPair) : Counts := c.insert key (c.get key + 1)

def rekey (c : Counts) (key : IndexPair → IndexPair) : Counts :=
  Std.TreeMap.ofList (c.toList.map fun (k, n) => (key k, n)) IndexPair.compare

end Counts

end Linkage
