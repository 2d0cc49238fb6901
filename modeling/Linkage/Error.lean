import Linkage.Files.Tree
import Linkage.Json.Fault

/-!
# Errors

What can go wrong between reading the events and writing the results, and how it is worded. The
analysis itself never fails.

Embeds the type `AnalyzerError`, its messages and their causes.
-/

namespace Linkage

inductive Error where
  | fileNotFound (path : String)
  /-- A line, by its number from one on, that names no event. -/
  | malformedEvent (line : Nat) (content : String)
  | invalidThreshold (threshold : Float)
  | file (fault : Files.Fault)
  | json (fault : Json.Fault)
  | jsonFile (fault : Files.Fault)
  /-- A file that holds no table with the two columns of names. -/
  | table

namespace Error

/-- The part of the wording that comes from the file system or from the JSON text. -/
def cause? : Error → Option String
  | .file fault => some fault.message
  | .json fault => some fault.message
  | .jsonFile fault => some fault.message
  | _ => none

def message : Error → String
  | .fileNotFound path => s!"file not found: {path}"
  | .malformedEvent line content =>
    s!"malformed invocation event on line {line}: {Text.quoted content}"
  | .invalidThreshold threshold =>
    let value := Decimal.plain.render threshold
    s!"invalid configuration: threshold must be a finite number, got {value}"
  | .file fault => s!"I/O error: {fault.message}"
  | .json fault => s!"JSON error: {fault.message}"
  | .jsonFile fault => s!"JSON error: {fault.message}"
  | .table => "parquet error"

end Error

end Linkage
