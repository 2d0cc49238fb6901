import Linkage.Cluster.Merge
import Linkage.Event.Source

/-!
# Configurations

What can be set for an analysis: the threshold of coupling, the prefixes of classes that do not
belong to the project, and how much of the result is listed. In a file every setting may be left
out, and then has its default. The threshold has to be finite.

Embeds the type `Config` with its functions `default`, `from_file` and `validate`.
-/

namespace Linkage
open Json

structure Config (R : Type) where
  /-- Two groups are merged as long as their coupling exceeds this. -/
  threshold : R
  excludedPrefixes : List String
  centralCount : Nat
  topPairs : Nat
deriving BEq, DecidableEq, Repr

namespace Config

def default : Config Float where
  threshold := 0.5
  excludedPrefixes := ["java.", "javax.", "org."]
  centralCount := Matrix.defaultCentralCount
  topPairs := 10

def fields : Fields :=
  .field "threshold" .real
    (.field "excluded_prefixes" (.listOf .text)
      (.field "central_class_count" (.natural .size)
        (.field "top_pairs" (.natural .size) .done)))

/-- The JSON form of a configuration. What is not set has its default. -/
def format : Format (Config Float) where
  input := .settings "Config" fields
  ofInput := fun (threshold, excludedPrefixes, centralCount, topPairs, _) =>
    { threshold := threshold.getD default.threshold
      excludedPrefixes := excludedPrefixes.getD default.excludedPrefixes
      centralCount := centralCount.getD default.centralCount
      topPairs := topPairs.getD default.topPairs }
  output := .record "Config" fields
  toOutput := fun c => (c.threshold, c.excludedPrefixes, c.centralCount, c.topPairs, ())

/-- A configuration as it is, if its threshold is a finite number. -/
def validate (c : Config Float) : Except Error (Config Float) :=
  if c.threshold.isFinite then .ok c else .error (.invalidThreshold c.threshold)

/-- The configuration of a file's bytes. They have to be a text before they are read as JSON. -/
def ofBytes (content : Text.Bytes) : Except Error (Config Float) := do
  if (Text.decode? content).isNone then throw (.file .notText)
  validate (← (format.decode content).mapError .json)

def load (tree : Files.Tree) (path : String) : Except Error (Config Float) := do
  ofBytes (← readContent tree path .file).toBytes

end Config

end Linkage
