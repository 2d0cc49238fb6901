import Linkage.Cluster.Summary
import Linkage.Config
import Linkage.Event.Filter
import Linkage.Tally

/-!
# Analyses

From the events of a project to its matrix, its clusters and their summary.

Embeds the function `analyze` and the `Analysis` that it gives.
-/

namespace Linkage
open Scale

structure Analysis (R : Type) where
  matrix : Matrix
  outcome : Outcome R
  summary : Summary R
  /-- Invocations of a class from itself, which count nowhere else. -/
  selfTotal : Nat
deriving DecidableEq, Repr

def analyze {R : Type} [Scale R] (events : List Event) (config : Config R)
    (bracketing : Bracketing := .inOrder) : Analysis R :=
  let tally := Tally.empty.recordAll events
  let matrix := tally.build
  let outcome := matrix.cluster config.threshold config.centralCount
  { matrix
    outcome
    summary := Summary.ofClusters matrix outcome.clusters bracketing
    selfTotal := tally.selfTotal }

end Linkage
