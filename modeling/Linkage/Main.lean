import Linkage.CommandLine.Run

/-!
# The program

The outermost layer: it takes from the disk what the options name, runs on that tree of files, puts
what has changed back on the disk, and reports. It decides nothing. One worker does all the work, so
sums are added in order.

Embeds what the function `main` does to the outside.
-/

namespace Linkage.CommandLine

def diskPath (place : Files.Place) : String :=
  if place = [""] then "/" else "/".intercalate place

def diskEntry (path : String) : IO (Option Files.Entry) := do
  try
    if ← (← IO.FS.realPath path).isDir then return some .directory
    let content ← IO.FS.readBinFile path
    return some (.file (.bytes content.data.toList))
  catch _ => return none

def pathsOf (o : Options) : List String :=
  let graph := Files.join o.outputDir Report.graphDirectory
  o.input :: (o.config.toList ++ o.classes.toList) ++
    Report.savedNames.map (Files.join o.outputDir) ++ Report.graphNames.map (Files.join graph)

/-- The part of the disk that a run needs. -/
def snapshot (o : Options) : IO Files.Tree :=
  ((pathsOf o).flatMap Files.placesAlong).eraseDups.foldlM (fun tree place => do
    match ← diskEntry (diskPath place) with
    | some entry => return tree.put place entry
    | none => return tree) Files.Tree.empty

/-- Puts on the disk what has changed. -/
def store (before after : Files.Tree) : IO Unit :=
  after.entries.forM fun (place, entry) => do
    if before.entry? place ≠ some entry then
      match entry with
      | .directory => IO.FS.createDirAll (diskPath place)
      | .file content => IO.FS.writeBinFile (diskPath place) ⟨content.toBytes.toArray⟩

def usageText : String :=
  "Usage: --input FILE [--output-dir DIR] [--threshold NUMBER] [--config FILE]\n" ++
  "       [--classes FILE] [--skip-viz] [--threads N] [-v | --verbose]"

def report : Ending → IO UInt32
  | .refused .usage => do
    IO.eprintln usageText
    return 2
  | .refused .help => do
    IO.println usageText
    return 0
  | .ended modules failure => do
    modules.forM fun line => IO.eprintln line
    match failure with
    | none => return 0
    | some f =>
      IO.eprint f.text
      return 1

end Linkage.CommandLine

open Linkage.CommandLine in
def main (args : List String) : IO UInt32 := do
  match Options.ofArguments args with
  | .error why => report (.refused why)
  | .ok options =>
    let before ← snapshot options
    let (ending, after) := runWith options before .inOrder
    store before after
    report ending
