import Linkage.Decimal.Numeral
import Linkage.Text.Split

/-!
# Options of the command line

The arguments of a run are options with a value, as one argument with an equals sign or as two, and
flags without one. Each may be given once, and no argument may stand alone. The first argument that
breaks these rules, or asks for help, ends the reading.

Embeds the arguments that `Cli` declares.
-/

namespace Linkage.CommandLine

inductive Refusal where
  | usage
  | help
deriving DecidableEq, Repr

structure Options where
  input : String
  outputDir : String
  threshold : Option Float
  config : Option String
  classes : Option String
  skipGraph : Bool
  /-- The number of workers, zero for as many as there are processors. Of the results only the share
  of the weight inside clusters can depend on it, by the bracketing of its sum. -/
  threads : Nat
  /-- More is reported about the run. The results do not depend on it. -/
  verbose : Bool
deriving Repr

def defaultOutputDir : String := "cluster_results"

structure Given where
  input : Option String
  outputDir : Option String
  threshold : Option Float
  config : Option String
  classes : Option String
  threads : Option Nat
  skipGraph : Bool
  verbose : Bool

namespace Given

def nothing : Given := ⟨none, none, none, none, none, none, false, false⟩

/-- The value of an option that is given for the first time. -/
def once {α : Type} (old new : Option α) : Except Refusal (Option α) :=
  if old.isSome || new.isNone then .error .usage else .ok new

def path? (value : String) : Option String := if value = "" then none else some value

def takesValue (name : String) : Bool :=
  ["input", "output-dir", "threshold", "config", "classes", "threads"].contains name

def withValue (g : Given) (name value : String) : Except Refusal Given :=
  match name with
  | "input" => do return { g with input := ← once g.input (path? value) }
  | "output-dir" => do return { g with outputDir := ← once g.outputDir (path? value) }
  | "threshold" => do return { g with threshold := ← once g.threshold (Decimal.real? value) }
  | "config" => do return { g with config := ← once g.config (path? value) }
  | "classes" => do return { g with classes := ← once g.classes (path? value) }
  | "threads" => do
    return { g with threads := ← once g.threads (Decimal.natural? (Nat.pow 2 64) value) }
  | _ => .error .usage

def withFlag (g : Given) (name : String) : Except Refusal Given :=
  match name with
  | "skip-viz" => if g.skipGraph then .error .usage else .ok { g with skipGraph := true }
  | "verbose" => if g.verbose then .error .usage else .ok { g with verbose := true }
  | "help" => .error .help
  | _ => .error .usage

def withLetter (g : Given) (letter : Char) : Except Refusal Given :=
  match letter with
  | 'v' => g.withFlag "verbose"
  | 'h' => g.withFlag "help"
  | _ => .error .usage

end Given

inductive Argument where
  | named (name : String)
  | valued (name value : String)
  | letters (letters : List Char)
  | twoDashes
  | plain
deriving DecidableEq, Repr

def Argument.ofText (text : String) : Argument :=
  match text.toList with
  | ['-', '-'] => .twoDashes
  | '-' :: '-' :: rest =>
    match Text.splitFirst ['='] rest with
    | some (name, value) => .valued (String.ofList name) (String.ofList value)
    | none => .named (String.ofList rest)
  | '-' :: c :: cs => .letters (c :: cs)
  | _ => .plain

def Given.take (g : Given) : List String → Except Refusal Given
  | [] => .ok g
  | arg :: rest =>
    match Argument.ofText arg with
    | .valued name value => do (← g.withValue name value).take rest
    | .named name =>
      if takesValue name then
        match rest with
        | [] => .error .usage
        | value :: others =>
          if Argument.ofText value = .plain then do (← g.withValue name value).take others
          else .error .usage
      else do (← g.withFlag name).take rest
    | .letters letters => do (← letters.foldlM Given.withLetter g).take rest
    | .twoDashes => if rest = [] then .ok g else .error .usage
    | .plain => .error .usage

/-- The options given, if the file of events is among them. The others have their defaults. -/
def Given.complete (g : Given) : Except Refusal Options :=
  match g.input with
  | none => .error .usage
  | some input => .ok
    { input
      outputDir := g.outputDir.getD defaultOutputDir
      threshold := g.threshold
      config := g.config
      classes := g.classes
      skipGraph := g.skipGraph
      threads := g.threads.getD 0
      verbose := g.verbose }

def Options.ofArguments (args : List String) : Except Refusal Options := do
  (← Given.nothing.take args).complete

end Linkage.CommandLine
