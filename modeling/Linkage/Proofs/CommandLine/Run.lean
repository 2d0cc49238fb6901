import Linkage.CommandLine.Run
import Linkage.Proofs.Report.Files

/-!
# How runs end

A run reads in stages: the configuration file, the threshold that holds, the events and the class
list. It fails with the first stage that fails, and then the tree of files is as it was. Where none
fails, the analysis has a finite threshold, and the run ends with what comes of publishing its
findings. Of all files only those of the report are other than before.
-/

namespace Linkage.CommandLine
open Files Scale Text

/-- What is read before the analysis, in this order. -/
inductive Stage where
  | configuration
  | threshold
  | events
  | classes
deriving DecidableEq, Repr

deriving instance DecidableEq for Options

namespace Options

def configuration (o : Options) (tree : Tree) : Except Error (Config Float) :=
  o.config.elim (.ok .default) (Config.load tree)

/-- The threshold that holds: the one given, or that of the file, or the default. -/
def effectiveThreshold (o : Options) (tree : Tree) : Float :=
  o.threshold.getD ((o.configuration tree).toOption.getD .default).threshold

def classList (o : Options) (tree : Tree) : Except Error (Option ClassList) :=
  o.classes.elim (.ok none) fun path => (ClassList.load tree path).map some

end Options

def errorOf? {α : Type} : Except Error α → Option Error
  | .ok _ => none
  | .error err => some err

namespace Stage

def all : List Stage := [.configuration, .threshold, .events, .classes]

def error? (tree : Tree) (o : Options) : Stage → Option Error
  | .configuration => errorOf? (o.configuration tree)
  | .threshold =>
    if (o.effectiveThreshold tree).isFinite then none
    else some (.invalidThreshold (o.effectiveThreshold tree))
  | .events => errorOf? (Event.load tree o.input)
  | .classes => errorOf? (o.classList tree)

/-- What is told of a stage beside its error. -/
def context? (o : Options) : Stage → Option String
  | .configuration => o.config.map fun path => s!"loading config {path}"
  | .events => some s!"reading events from {o.input}"
  | _ => none

def failure? (tree : Tree) (o : Options) (s : Stage) : Option Failure :=
  (s.error? tree o).map fun err => ⟨s.context? o, err⟩

end Stage

/-- The failure of the first stage that fails. -/
def firstFailure? (tree : Tree) (o : Options) : Option Failure :=
  Stage.all.findSome? (Stage.failure? tree o)

/-- What is found in events. -/
def Findings.of (config : Config Float) (events : List Event) (classes : Option ClassList)
    (b : Bracketing) : Findings :=
  let (kept, stats) := Filter.apply ⟨config.excludedPrefixes, classes⟩ events
  ⟨config, stats, analyze kept config b⟩

variable {tree after : Tree} {o : Options} {b : Bracketing}

theorem loadConfig_eq (tree : Tree) (o : Options) : loadConfig tree o =
    match o.configuration tree with
    | .error err => .error ⟨Stage.context? o .configuration, err⟩
    | .ok config =>
      if (o.effectiveThreshold tree).isFinite then
        .ok { config with threshold := o.effectiveThreshold tree }
      else .error ⟨none, .invalidThreshold (o.effectiveThreshold tree)⟩ := by
  have hvalid (c : Config Float) : during none c.validate =
      if c.threshold.isFinite then .ok c
      else .error ⟨none, .invalidThreshold c.threshold⟩ := by
    rw [Config.validate]
    split <;> rfl
  have hload : loadConfig tree o = ((o.configuration tree).mapError fun err =>
      ⟨Stage.context? o .configuration, err⟩).bind fun config =>
        during none { config with threshold := o.threshold.getD config.threshold }.validate := by
    rw [loadConfig, Options.configuration, Stage.context?]
    cases o.config <;> rfl
  rw [hload, Options.effectiveThreshold]
  cases o.configuration tree with
  | error err => rfl
  | ok config => exact hvalid _

theorem loadClasses_eq (tree : Tree) (o : Options) :
    loadClasses tree o = during none (o.classList tree) := by
  rw [loadClasses, Options.classList]
  cases o.classes <;> rfl

/-- Either a stage fails, and so does the whole, or there is something to find. -/
theorem investigate_cases (tree : Tree) (o : Options) (b : Bracketing) :
    (∃ failure, firstFailure? tree o = some failure ∧ investigate tree o b = .error failure) ∨
    firstFailure? tree o = none ∧ ∃ config events classes,
      o.configuration tree = .ok config ∧ (o.effectiveThreshold tree).isFinite ∧
      Event.load tree o.input = .ok events ∧ o.classList tree = .ok classes ∧
      investigate tree o b =
        .ok (.of { config with threshold := o.effectiveThreshold tree } events classes b) := by
  rw [investigate, loadConfig_eq, loadClasses_eq, firstFailure?]
  simp only [Stage.all, List.findSome?_cons, List.findSome?_nil, Stage.failure?, Stage.error?]
  cases hconfig : o.configuration tree with
  | error err => exact Or.inl ⟨_, rfl, rfl⟩
  | ok config =>
    by_cases hfinite : (o.effectiveThreshold tree).isFinite
    · simp only [hfinite, if_true]
      cases hevents : Event.load tree o.input with
      | error err => exact Or.inl ⟨_, rfl, rfl⟩
      | ok events =>
        cases hclasses : o.classList tree with
        | error err => exact Or.inl ⟨_, rfl, rfl⟩
        | ok classes => exact Or.inr ⟨rfl, config, events, classes, rfl, trivial, rfl, rfl, rfl⟩
    · simp only [hfinite, if_false, Bool.false_eq_true]
      exact Or.inl ⟨_, rfl, rfl⟩

theorem investigate_eq_error_iff {failure : Failure} :
    investigate tree o b = .error failure ↔ firstFailure? tree o = some failure := by
  rcases investigate_cases tree o b with ⟨f, hfirst, hfound⟩ | ⟨hnone, _, _, _, _, _, _, _, hfound⟩
  · rw [hfirst, hfound, Except.error.injEq, Option.some.injEq]
  · rw [hnone, hfound]
    exact iff_of_false nofun nofun

theorem runWith_of_failure {failure : Failure} (h : firstFailure? tree o = some failure) :
    runWith o tree b = (.ended [] (some failure), tree) := by
  rw [runWith, investigate_eq_error_iff.mpr h]

def savedFiles (f : Findings) : List (Place × String) :=
  (Report.savedFiles f.analysis f.stats f.config.topPairs).map fun file => ([file.1], file.2)

def graphFiles (o : Options) (f : Findings) : List (Place × String) :=
  bif o.skipGraph then []
  else (Report.graphFiles f.analysis.matrix f.analysis.outcome.clusters).map fun file =>
    ([Report.graphDirectory, file.1], file.2)

/-- The files of a report, with their places below the output directory. -/
def reportFiles (o : Options) (f : Findings) : List (Place × String) :=
  savedFiles f ++ graphFiles o f

/-- The places of a report, whatever is in it: four for the results, and two for the graph. -/
def reportPlaces (o : Options) : List Place :=
  Report.savedNames.map ([·]) ++
    bif o.skipGraph then [] else Report.graphNames.map fun name => [Report.graphDirectory, name]

/-- The places on the way to the directories of a report. -/
def reportWay (o : Options) : List Place :=
  placesAlong o.outputDir ++
    bif o.skipGraph then [] else placesAlong (join o.outputDir Report.graphDirectory)

/-- A report stands below the output directory. Directories on the way to it may have been made, and
all other places are as they were. -/
structure Published (o : Options) (f : Findings) (before after : Tree) (home : Place) : Prop where
  leads : after.Leads o.outputDir home
  entries : ∀ file ∈ reportFiles o f,
    after.entry? (home ++ file.1) = some (.file (.bytes (encode file.2)))
  grown : before.Grown (reportWay o) ((reportPlaces o).map fun place => home ++ place) after

section published

variable {f : Findings} {home : Place}

theorem places_reportFiles (o : Options) (f : Findings) :
    (reportFiles o f).map Prod.fst = reportPlaces o := by
  rw [reportFiles, List.map_append, reportPlaces, graphFiles]
  cases o.skipGraph <;> rfl

theorem length_savedFiles_place : ∀ file ∈ savedFiles f, file.1.length = 1 :=
  List.forall_mem_map.mpr fun _ _ => rfl

theorem length_graphFiles_place : ∀ file ∈ graphFiles o f, file.1.length = 2 := by
  rw [graphFiles]
  cases o.skipGraph with
  | true => exact nofun
  | false => exact List.forall_mem_map.mpr fun _ _ => rfl

theorem made_saved
    (h : (Report.save f.analysis f.stats f.config.topPairs o.outputDir).run tree =
      (.ok (), after)) :
    ∃ home, after.Leads o.outputDir home ∧
      tree.Grown (placesAlong o.outputDir) ((savedFiles f).map fun file => home ++ file.1) after ∧
      ∀ file ∈ savedFiles f,
        after.entry? (home ++ file.1) = some (.file (.bytes (encode file.2))) := by
  obtain ⟨home, hleads, hgrown, hentries⟩ := Report.made_save h
  refine ⟨home, hleads, ?_, List.forall_mem_map.mpr hentries⟩
  rw [savedFiles, List.map_map]
  exact hgrown

theorem made_graph (hleads : tree.Leads o.outputDir home)
    (h : (if !o.skipGraph then
      Report.exportGraph f.analysis.matrix f.analysis.outcome.clusters o.outputDir
      else pure () : Action Unit).run tree = (.ok (), after)) :
    tree.Grown (bif o.skipGraph then [] else placesAlong (join o.outputDir Report.graphDirectory))
        ((graphFiles o f).map fun file => home ++ file.1) after ∧
      ∀ file ∈ graphFiles o f,
        after.entry? (home ++ file.1) = some (.file (.bytes (encode file.2))) := by
  rw [graphFiles]
  cases hskip : o.skipGraph with
  | true =>
    rw [hskip] at h
    cases h
    exact ⟨.refl _, nofun⟩
  | false =>
    rw [hskip] at h
    obtain ⟨below, hbelow, hgrown, hentries⟩ := Report.made_graph h
    obtain rfl : below = home ++ [Report.graphDirectory] := by
      obtain ⟨home', hhome', rfl⟩ := (Tree.follow_join (by decide)).mp hbelow.follow
      cases (hgrown.leads hleads).follow.symm.trans hhome'.follow
      rfl
    simp only [List.append_assoc, List.singleton_append] at hgrown hentries
    refine ⟨?_, List.forall_mem_map.mpr hentries⟩
    rw [cond_false, cond_false, List.map_map]
    exact hgrown

theorem published_of_run (h : (publish o f).run tree = (.ok (), after)) :
    ∃ home, Published o f tree after home := by
  obtain ⟨_, mid, hsave, hgraph⟩ := of_bind_run_ok h
  obtain ⟨home, hleads, hgrown, hentries⟩ := made_saved hsave
  obtain ⟨hgrown', hentries'⟩ := made_graph hleads hgraph
  refine ⟨home, hgrown'.leads hleads, ?_, ?_⟩
  · refine List.forall_mem_append.mpr ⟨fun file hfile => ?_, hentries'⟩
    refine hgrown'.kept (fun hmem => ?_) (hentries file hfile)
    -- The files of the graph are one directory further down.
    obtain ⟨other, hother, heq⟩ := List.mem_map.mp hmem
    have hlength := congrArg List.length (List.append_cancel_left heq)
    rw [length_savedFiles_place file hfile, length_graphFiles_place other hother] at hlength
    cases hlength
  · rw [← places_reportFiles o f, List.map_map, reportFiles, List.map_append]
    exact hgrown.trans hgrown'

/-- Publishing succeeds where its directories are there and none of them has the name of a file. -/
theorem publish_ok (o : Options) (f : Findings) (hleads : tree.Leads o.outputDir home)
    (hgraph : tree.Leads (join o.outputDir Report.graphDirectory) (home ++ [Report.graphDirectory]))
    (hsaved : ∀ name ∈ Report.savedNames, tree.entry? (home ++ [name]) ≠ some .directory)
    (hexported : ∀ name ∈ Report.graphNames,
      tree.entry? (home ++ [Report.graphDirectory] ++ [name]) ≠ some .directory) :
    ∃ after, (publish o f).run tree = (.ok (), after) := by
  obtain ⟨mid, hsave⟩ := Report.save_ok f.analysis f.stats f.config.topPairs
    hleads.ensureDirectories hleads hsaved
  obtain ⟨_, -, hgrown, -⟩ := Report.made_save hsave
  have hready := hgrown.leads hgraph
  have hfree : ∀ name ∈ Report.graphNames,
      mid.entry? (home ++ [Report.graphDirectory] ++ [name]) ≠ some .directory := fun name hname =>
    hgrown.free (fun hmem => hexported name hname (hleads.directory_of_mem hmem))
      (hexported name hname)
  rw [publish, bind_run_ok hsave]
  cases o.skipGraph with
  | true => exact ⟨mid, rfl⟩
  | false =>
    exact Report.export_ok f.analysis.matrix f.analysis.outcome.clusters hready.ensureDirectories
      hready hfree

end published

/-- What comes of saving the results of findings. -/
def Saves (o : Options) (f : Findings) (t : Tree) (r : Except Fault Unit × Tree) : Prop :=
  Report.WritesInto t o.outputDir
    (Report.savedFiles f.analysis f.stats f.config.topPairs) r

/-- What comes of publishing findings: the results are saved and then the graph is exported, unless
it is left out or the results could not be saved. -/
inductive Publishes (o : Options) (f : Findings) (t : Tree) : Except Fault Unit × Tree → Prop
  | unsaved {fault : Fault} {after : Tree} (saves : Saves o f t (.error fault, after)) :
      Publishes o f t (.error fault, after)
  | saved {after : Tree} (skips : o.skipGraph = true) (saves : Saves o f t (.ok (), after)) :
      Publishes o f t (.ok (), after)
  | exported {mid : Tree} {r : Except Fault Unit × Tree} (exports : o.skipGraph = false)
      (saves : Saves o f t (.ok (), mid))
      (writes : Report.WritesInto mid (join o.outputDir Report.graphDirectory)
        (Report.graphFiles f.analysis.matrix f.analysis.outcome.clusters) r) :
      Publishes o f t r

theorem publishes_run (o : Options) (f : Findings) (t : Tree) :
    Publishes o f t ((publish o f).run t) := by
  have hsaves : Saves o f t _ :=
    Report.save_writes f.analysis f.stats f.config.topPairs o.outputDir t
  cases hsave : (Report.save f.analysis f.stats f.config.topPairs o.outputDir).run t with
  | mk result mid =>
    rw [hsave] at hsaves
    cases result with
    | error fault =>
      rw [publish, bind_run_error hsave]
      exact .unsaved hsaves
    | ok _ =>
      rw [publish, bind_run_ok hsave]
      cases hskip : o.skipGraph with
      | true => exact .saved hskip hsaves
      | false => exact .exported hskip hsaves (Report.exportGraph_writes ..)

/-! ### Whole runs -/

/-- What comes of publishing findings, as a run ends with it. -/
def Ending.ofPublishing (f : Findings) : Except Fault Unit → Ending
  | .ok () => .ended (f.analysis.outcome.clusters.map moduleLine) none
  | .error fault =>
    .ended (f.analysis.outcome.clusters.map moduleLine) (some ⟨none, .file fault⟩)

theorem runWith_of_found {f : Findings} (h : investigate tree o b = .ok f) :
    runWith o tree b = ((publish o f).run tree).map (Ending.ofPublishing f) id := by
  rw [runWith, h]
  dsimp only
  cases (publish o f).run tree with
  | mk result after => cases result <;> rfl

theorem published_of_runWith {modules : List String}
    (h : runWith o tree b = (.ended modules none, after)) :
    ∃ findings home, investigate tree o b = .ok findings ∧
      Published o findings tree after home := by
  cases hfound : investigate tree o b with
  | error failure =>
    rw [runWith, hfound] at h
    cases h
  | ok findings =>
    rw [runWith_of_found hfound] at h
    cases hrun : (publish o findings).run tree with
    | mk result last =>
      rw [hrun] at h
      cases result with
      | error fault => cases h
      | ok _ =>
        cases h
        obtain ⟨home, hpublished⟩ := published_of_run hrun
        exact ⟨findings, home, rfl, hpublished⟩

/-- A run fails before it writes anything if and only if one of its stages fails. It then reports
the first one that does, and the tree is as it was. Otherwise what it analyses has a finite
threshold, and it ends with what comes of publishing its findings: it tells of the clusters, and
fails just if the files of the results or of the graph cannot be written. The files that a
successful run makes or changes are those of its report. -/
theorem run_fails_or_publishes {args : List String} {o : Options}
    (hargs : Options.ofArguments args = .ok o) (tree : Tree) (b : Bracketing) :
    (∀ failure, investigate tree o b = .error failure ↔ firstFailure? tree o = some failure) ∧
    (∀ failure, firstFailure? tree o = some failure →
      run args tree b = (.ended [] (some failure), tree)) ∧
    (firstFailure? tree o = none → ∃ config events classes,
      o.configuration tree = .ok config ∧ Event.load tree o.input = .ok events ∧
      o.classList tree = .ok classes ∧
      let given := { config with threshold := o.effectiveThreshold tree }
      let findings := Findings.of given events classes b
      given.threshold.isFinite ∧ investigate tree o b = .ok findings ∧
        run args tree b = ((publish o findings).run tree).map (.ofPublishing findings) id ∧
        Publishes o findings tree ((publish o findings).run tree)) ∧
    ∀ modules after, run args tree b = (.ended modules none, after) →
      firstFailure? tree o = none ∧ ∃ findings home, investigate tree o b = .ok findings ∧
        Published o findings tree after home := by
  have hrun : run args tree b = runWith o tree b := by rw [run, hargs]
  rw [hrun]
  refine ⟨fun failure => investigate_eq_error_iff, fun failure => runWith_of_failure,
    fun hnone => ?_, fun modules after h => ⟨?_, published_of_runWith h⟩⟩
  · rcases investigate_cases tree o b with ⟨failure, hfirst, -⟩ | ⟨-, hfound⟩
    · cases hnone.symm.trans hfirst
    · obtain ⟨config, events, classes, hconfig, hfinite, hevents, hclasses, hresult⟩ := hfound
      exact ⟨config, events, classes, hconfig, hevents, hclasses, hfinite, hresult,
        runWith_of_found hresult, publishes_run ..⟩
  · cases hfirst : firstFailure? tree o with
    | none => rfl
    | some failure =>
      rw [runWith_of_failure hfirst] at h
      cases h

/-- A run into a new directory, one with a graph, and one without the files of its configuration and
its classes. -/
theorem run_fails_or_publishes_of_arrow :
    let log : Place × Entry := (["log.txt"], .file (.bytes (encode "A->B\n")))
    let bare : Tree := ⟨[log]⟩
    let ready : Tree := ⟨[log, (["out"], .directory), (["out", "graph"], .directory)]⟩
    let short := ["--input", "log.txt", "--output-dir", "out", "--threshold=0.25", "--skip-viz"]
    let o : Options := ⟨"log.txt", "out", some 0.25, none, none, true, 0, false⟩
    let whole := ["--input", "log.txt", "--output-dir", "out"]
    let o' : Options := ⟨"log.txt", "out", none, none, none, false, 0, false⟩
    let failing := ["--input=log.txt", "--config", "none.json", "--classes", "log.txt/none"]
    let failure : Failure := ⟨"loading config none.json", .fileNotFound "none.json"⟩
    let b : Bracketing := .cut 1 .inOrder .inOrder
    Options.ofArguments short = .ok o ∧ firstFailure? bare o = none ∧
      (∃ modules after findings home, run short bare b = (.ended modules none, after) ∧
        Published o findings bare after home) ∧
      Options.ofArguments whole = .ok o' ∧ firstFailure? ready o' = none ∧
      (∃ modules after findings home, run whole ready b = (.ended modules none, after) ∧
        Published o' findings ready after home) ∧
      run failing bare b = (.ended [] (some failure), bare) := by
  intro log bare ready short o whole o' failing failure b
  have hshort : Options.ofArguments short = .ok o := by decide +kernel
  have hwhole : Options.ofArguments whole = .ok o' := by decide +kernel
  have hfailing : Options.ofArguments failing =
    .ok ⟨"log.txt", "cluster_results", none, "none.json", "log.txt/none", false, 0, false⟩ := by
    decide +kernel
  have hnone : firstFailure? bare o = none := Option.isNone_iff_eq_none.mp (by decide +kernel)
  have hnone' : firstFailure? ready o' = none := Option.isNone_iff_eq_none.mp (by decide +kernel)
  have hfailure : firstFailure? bare
      ⟨"log.txt", "cluster_results", none, "none.json", "log.txt/none", false, 0, false⟩ =
        some failure := by
    rfl
  have hsucceeds {args : List String} {options : Options} {tree : Tree}
      (hargs : Options.ofArguments args = .ok options) (hnone : firstFailure? tree options = none)
      (hpublish : ∀ f, ∃ after, (publish options f).run tree = (.ok (), after)) :
      ∃ modules after findings home, run args tree b = (.ended modules none, after) ∧
        Published options findings tree after home := by
    obtain ⟨-, -, hfound, hsuccess⟩ := run_fails_or_publishes hargs tree b
    obtain ⟨config, events, classes, -, -, -, -, -, hended, -⟩ := hfound hnone
    obtain ⟨after, hafter⟩ := hpublish _
    rw [hafter] at hended
    obtain ⟨-, findings, home, -, hpublished⟩ := hsuccess _ after hended
    exact ⟨_, after, findings, home, hended, hpublished⟩
  have hpublish (f : Findings) : ∃ after, (publish o f).run bare = (.ok (), after) := by
    have hmade : (ensureDirectories "out").run bare = (.ok (), bare.put ["out"] .directory) := by
      rw [ensureDirectories, show (parts "out").reverse = ["out"] by decide +kernel,
        ensureReversed]
      rfl
    have hleads : (bare.put ["out"] .directory).Leads "out" ["out"] :=
      ⟨by decide +kernel, by decide +kernel⟩
    obtain ⟨after, hsave⟩ := Report.save_ok f.analysis f.stats f.config.topPairs hmade hleads
      (by decide +kernel)
    exact ⟨after, bind_run_ok hsave⟩
  have hleads : ready.Leads "out" ["out"] := ⟨by decide +kernel, by decide +kernel⟩
  have hgraph : ready.Leads (join "out" Report.graphDirectory) ["out", Report.graphDirectory] :=
    ⟨by decide +kernel, by decide +kernel⟩
  have hpublish' (f : Findings) : ∃ after, (publish o' f).run ready = (.ok (), after) :=
    publish_ok o' f hleads hgraph (by decide +kernel) (by decide +kernel)
  exact ⟨hshort, hnone, hsucceeds hshort hnone hpublish, hwhole, hnone',
    hsucceeds hwhole hnone' hpublish',
    (run_fails_or_publishes hfailing bare b).2.1 failure hfailure⟩

end Linkage.CommandLine
