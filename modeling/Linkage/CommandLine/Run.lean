import Linkage.CommandLine.Options
import Linkage.Report.Graph

/-!
# Runs

A run reads its configuration, the events and the class list, in this order, analyses the events of
the project, and writes the results and the graph. Until everything is read and analysed no file is
touched. The first thing that goes wrong ends the run.

Embeds the function `main` once its arguments are parsed and its workers have started. Of its log
only the lines of the modules are kept.
-/

namespace Linkage.CommandLine
open Scale

/-- An error, and what was being done if that is to be told. -/
structure Failure where
  context : Option String
  error : Error

namespace Failure

/-- What went wrong, from the outside to the inside. -/
def chain (f : Failure) : List String :=
  f.context.toList ++ f.error.message :: f.error.cause?.toList

/-- A cause with a mark in front, its further lines being indented. -/
def causeText (mark indent cause : String) : String :=
  let lines := (Text.splitAll '\n' cause.toList).map String.ofList
  mark ++ ("\n" ++ indent).intercalate lines ++ "\n"

def causesText : List String → String
  | [] => ""
  | [cause] => "\nCaused by:\n" ++ causeText "    " "    " cause
  | causes =>
    let texts := causes.zipIdx.map fun (cause, n) => causeText s!"    {n}: " "       " cause
    "\nCaused by:\n" ++ String.join texts

def text (f : Failure) : String :=
  match f.chain with
  | [] => ""
  | outermost :: causes => "Error: " ++ outermost ++ "\n" ++ causesText causes

end Failure

def during {α : Type} (context : Option String) (x : Except Error α) : Except Failure α :=
  x.mapError fun error => ⟨context, error⟩

/-- The configuration of a run: that of its file or the default, with the threshold given. -/
def loadConfig (tree : Files.Tree) (o : Options) : Except Failure (Config Float) := do
  let config ← match o.config with
    | some path => during s!"loading config {path}" (Config.load tree path)
    | none => .ok Config.default
  during none { config with threshold := o.threshold.getD config.threshold }.validate

def loadClasses (tree : Files.Tree) (o : Options) : Except Failure (Option ClassList) :=
  match o.classes with
  | some path => during none ((ClassList.load tree path).map some)
  | none => .ok none

structure Findings where
  config : Config Float
  stats : FilterStats
  analysis : Analysis Float

def investigate (tree : Files.Tree) (o : Options) (bracketing : Bracketing) :
    Except Failure Findings := do
  let config ← loadConfig tree o
  let events ← during s!"reading events from {o.input}" (Event.load tree o.input)
  let classes ← loadClasses tree o
  let (kept, stats) := Filter.apply ⟨config.excludedPrefixes, classes⟩ events
  return ⟨config, stats, analyze kept config bracketing⟩

def moduleLine (c : Cluster Float) : String :=
  let cohesion := Decimal.fixed 4 c.cohesion
  let members := ", ".intercalate c.members
  s!"Module {c.id} ({c.size} classes, cohesion {cohesion}): {members}"

def publish (o : Options) (f : Findings) : Files.Action Unit := do
  Report.save f.analysis f.stats f.config.topPairs o.outputDir
  if !o.skipGraph then
    Report.exportGraph f.analysis.matrix f.analysis.outcome.clusters o.outputDir

inductive Ending where
  /-- The arguments name no run. -/
  | refused (why : Refusal)
  /-- The clusters were reported, and there was a failure or none. -/
  | ended (modules : List String) (failure : Option Failure)

def runWith (o : Options) (tree : Files.Tree) (bracketing : Bracketing) : Ending × Files.Tree :=
  match investigate tree o bracketing with
  | .error failure => (.ended [] (some failure), tree)
  | .ok findings =>
    let modules := findings.analysis.outcome.clusters.map moduleLine
    match (publish o findings).run tree with
    | (.ok (), after) => (.ended modules none, after)
    | (.error fault, after) => (.ended modules (some ⟨none, .file fault⟩), after)

/-- A run with the arguments of the program. The workers are taken to have been started: a program
that cannot start them ends before its run. What they leave open is the bracketing of one sum. -/
def run (args : List String) (tree : Files.Tree) (bracketing : Bracketing := .inOrder) :
    Ending × Files.Tree :=
  match Options.ofArguments args with
  | .error why => (.refused why, tree)
  | .ok options => runWith options tree bracketing

end Linkage.CommandLine
