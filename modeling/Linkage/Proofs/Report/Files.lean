import Linkage.Proofs.Files.Directories
import Linkage.Report.Graph

/-!
# Files of a report

The files that are written one after another into a directory. The first name that is that of a
directory ends the writing: the files before it hold their texts, and nothing else was touched.
-/

namespace Linkage.Report
open Files Text

variable {directory name text : String} {files : List (String × String)} {t after : Tree}
  {home : Place} {r : Except Fault Unit × Tree}

/-- Files were written into the directory at a place. Each holds its text, whatever was in it, and
everything at other places is as it was. -/
structure Written (before : Tree) (home : Place) (files : List (String × String)) (after : Tree) :
    Prop where
  entries : ∀ f ∈ files, after.entry? (home ++ [f.1]) = some (.file (.bytes (encode f.2)))
  free : ∀ f ∈ files, before.entry? (home ++ [f.1]) ≠ some .directory
  others : ∀ place, place ∉ files.map (fun f => home ++ [f.1]) →
    after.entry? place = before.entry? place

theorem home_append_mem_iff : home ++ [name] ∈ files.map (fun f => home ++ [f.1]) ↔
    name ∈ files.map Prod.fst := by
  simp

theorem Written.nil (t : Tree) : Written t home [] t := ⟨nofun, nofun, fun _ _ => rfl⟩

theorem Written.cons (hfree : t.entry? (home ++ [name]) ≠ some .directory)
    (hname : name ∉ files.map Prod.fst)
    (h : Written (t.put (home ++ [name]) (.file (.bytes (encode text)))) home files after) :
    Written t home ((name, text) :: files) after := by
  have hput := Tree.entry?_put (Tree.ne_nil_of_free hfree) t (.file (.bytes (encode text)))
  constructor
  · refine List.forall_mem_cons.mpr ⟨?_, h.entries⟩
    rw [h.others _ (home_append_mem_iff.not.mpr hname), hput, if_pos rfl]
  · refine List.forall_mem_cons.mpr ⟨hfree, fun f hf => ?_⟩
    have hf' := h.free f hf
    rw [hput] at hf'
    split at hf'
    · rename_i hsame
      rwa [hsame]
    · exact hf'
  · intro place hplace
    rw [List.map_cons, List.mem_cons, not_or] at hplace
    rw [h.others place hplace.2, hput, if_neg hplace.1]

theorem Written.grown (h : Written t home files after) :
    t.Grown [] (files.map fun f => home ++ [f.1]) after := by
  intro place
  by_cases hplace : place ∈ files.map fun f => home ++ [f.1]
  · obtain ⟨f, hf, rfl⟩ := List.mem_map.mp hplace
    exact Or.inr (Or.inr ⟨hplace, h.free f hf, _, h.entries f hf⟩)
  · exact Or.inl (h.others place hplace)

/-- What comes of writing files into the directory at a place. -/
inductive Writes (t : Tree) (home : Place) (files : List (String × String)) :
    Except Fault Unit × Tree → Prop
  /-- A directory has the name of one of the files: those before it are written, it and those after
  it are not. -/
  | stopped {done rest : List (String × String)} {f : String × String} {after : Tree}
      (split : files = done ++ f :: rest)
      (directory : t.entry? (home ++ [f.1]) = some .directory)
      (written : Written t home done after)
      (kept : ∀ g ∈ f :: rest, after.entry? (home ++ [g.1]) = t.entry? (home ++ [g.1])) :
      Writes t home files (.error .isDirectory, after)
  | finished {after : Tree} (written : Written t home files after) :
      Writes t home files (.ok (), after)

theorem Writes.cons (hfree : t.entry? (home ++ [name]) ≠ some .directory)
    (hname : name ∉ files.map Prod.fst)
    (h : Writes (t.put (home ++ [name]) (.file (.bytes (encode text)))) home files r) :
    Writes t home ((name, text) :: files) r := by
  have hput := Tree.entry?_put (Tree.ne_nil_of_free hfree) t (.file (.bytes (encode text)))
  cases h with
  | finished written => exact .finished (written.cons hfree hname)
  | @stopped done rest f _ split directory written kept =>
    subst split
    rw [List.map_append, List.mem_append, not_or] at hname
    have hsame : ∀ g ∈ f :: rest,
        Tree.entry? (t.put (home ++ [name]) (.file (.bytes (encode text)))) (home ++ [g.1]) =
          t.entry? (home ++ [g.1]) := by
      intro g hg
      rw [hput, if_neg]
      intro heq
      have hg' : g.1 ∈ (f :: rest).map Prod.fst := List.mem_map_of_mem hg
      rw [show g.1 = name by simpa using heq] at hg'
      exact hname.2 hg'
    have hdirectory := (hsame f (List.mem_cons_self ..)).symm.trans directory
    exact .stopped (List.cons_append ..).symm hdirectory (written.cons hfree hname.1)
      fun g hg => (kept g hg).trans (hsame g hg)

theorem writeText_join_run (text : String) (hleads : t.Leads directory home) (hname : IsName name) :
    (writeText (join directory name) text).run t =
      if t.entry? (home ++ [name]) = some .directory then (.error .isDirectory, t)
      else (.ok (), t.put (home ++ [name]) (.file (.bytes (encode text)))) := by
  rw [writeText_run, hleads.withFile_join hname]
  by_cases hplace : t.entry? (home ++ [name]) = some .directory
  · rw [if_pos hplace, if_pos hplace]
  · rw [if_neg hplace, if_neg hplace]

theorem writeAll_writes (hleads : t.Leads directory home) (hnames : ∀ f ∈ files, IsName f.1)
    (hnodup : (files.map Prod.fst).Nodup) :
    Writes t home files ((writeAll directory files).run t) := by
  induction files generalizing t with
  | nil => exact .finished (.nil t)
  | cons f files ih =>
    obtain ⟨hname, hnames⟩ := List.forall_mem_cons.mp hnames
    rw [List.map_cons, List.nodup_cons] at hnodup
    have hwrite := writeText_join_run f.2 hleads hname
    by_cases hplace : t.entry? (home ++ [f.1]) = some .directory
    · rw [if_pos hplace] at hwrite
      have hrun : (writeAll directory (f :: files)).run t = (.error .isDirectory, t) :=
        bind_run_error hwrite
      rw [hrun]
      exact .stopped (List.nil_append _).symm hplace (.nil t) fun _ _ => rfl
    · rw [if_neg hplace] at hwrite
      have hrun : (writeAll directory (f :: files)).run t =
          (writeAll directory files).run
            (t.put (home ++ [f.1]) (.file (.bytes (encode f.2)))) :=
        bind_run_ok hwrite
      rw [hrun]
      have hgrown := Tree.Grown.put_file hplace (.bytes (encode f.2))
      exact (ih (hgrown.leads hleads) hnames hnodup.2).cons hplace hnodup.1

/-- To write once more what the files hold changes nothing. -/
theorem writeAll_there (hleads : t.Leads directory home) (hnames : ∀ f ∈ files, IsName f.1)
    (h : ∀ f ∈ files, t.entry? (home ++ [f.1]) = some (.file (.bytes (encode f.2)))) :
    (writeAll directory files).run t = (.ok (), t) := by
  induction files with
  | nil => rfl
  | cons f files ih =>
    obtain ⟨hname, hnames⟩ := List.forall_mem_cons.mp hnames
    obtain ⟨hentry, h⟩ := List.forall_mem_cons.mp h
    have hfree : t.entry? (home ++ [f.1]) ≠ some .directory := by
      rw [hentry]
      exact nofun
    have hwrite : (writeText (join directory f.1) f.2).run t = (.ok (), t) := by
      rw [writeText_join_run f.2 hleads hname, if_neg hfree,
        Tree.put_of_entry (Tree.ne_nil_of_free hfree) hentry]
    exact (bind_run_ok hwrite).trans (ih hnames h)

/-- Makes a directory, unless it is there, and writes files into it. -/
def writeInto (directory : String) (files : List (String × String)) : Action Unit := do
  ensureDirectories directory
  writeAll directory files

/-- What comes of writing files into a directory that is made for them. -/
inductive WritesInto (t : Tree) (directory : String) (files : List (String × String)) :
    Except Fault Unit × Tree → Prop
  /-- The path leads to no directory and none can be made, since a file is in the way or the path
  ends in a dot. Of the directories on the way some may have been made; nothing else was
  changed. -/
  | unmade {fault : Fault} {after : Tree}
      (made : (ensureDirectories directory).run t = (.error fault, after))
      (absent : ∀ home, ¬ t.Leads directory home)
      (blocked : (parts directory).getLast? ≠ some "." →
        ∃ place ∈ placesAlong directory, ∃ c, t.entry? place = some (.file c))
      (grown : t.Grown (placesAlong directory) [] after) :
      WritesInto t directory files (.error fault, after)
  /-- The directory is there, and what its files come to is what is said of them. -/
  | made {ready : Tree} {home : Place} {r : Except Fault Unit × Tree}
      (made : (ensureDirectories directory).run t = (.ok (), ready))
      (opened : t.Opened directory ready home) (writes : Writes ready home files r) :
      WritesInto t directory files r

theorem writeInto_writes (hnames : ∀ f ∈ files, IsName f.1) (hnodup : (files.map Prod.fst).Nodup) :
    WritesInto t directory files ((writeInto directory files).run t) := by
  have hgrown := ensureDirectories_grows directory t
  cases hmade : (ensureDirectories directory).run t with
  | mk result ready =>
    rw [hmade] at hgrown
    cases result with
    | error fault =>
      rw [writeInto, bind_run_error hmade]
      refine .unmade hmade (fun home hleads => ?_) (exists_file_of_ensureDirectories hmade) hgrown
      cases hmade.symm.trans hleads.ensureDirectories
    | ok _ =>
      obtain ⟨home, hopened⟩ := exists_opened hmade
      rw [writeInto, bind_run_ok hmade]
      exact .made hmade hopened (writeAll_writes hopened.leads hnames hnodup)

theorem writeInto_ok (hnames : ∀ f ∈ files, IsName f.1) (hnodup : (files.map Prod.fst).Nodup)
    (h : (writeInto directory files).run t = (.ok (), after)) :
    ∃ ready home, t.Opened directory ready home ∧ Written ready home files after := by
  have hwrites : WritesInto t directory files _ := writeInto_writes hnames hnodup
  rw [h] at hwrites
  cases hwrites with
  | made made opened writes =>
    cases writes with
    | finished written => exact ⟨_, _, opened, written⟩

/-- Files are written into a directory where none of their names is that of a directory. -/
theorem exists_writeInto (hnames : ∀ f ∈ files, IsName f.1) (hnodup : (files.map Prod.fst).Nodup)
    {ready : Tree} (hready : (ensureDirectories directory).run t = (.ok (), ready))
    (hleads : ready.Leads directory home)
    (hfree : ∀ f ∈ files, ready.entry? (home ++ [f.1]) ≠ some .directory) :
    ∃ after, (writeInto directory files).run t = (.ok (), after) := by
  have hwrites := writeAll_writes hleads hnames hnodup
  rw [writeInto, bind_run_ok hready]
  generalize (writeAll directory files).run ready = r at hwrites ⊢
  cases hwrites with
  | finished written => exact ⟨_, rfl⟩
  | stopped split place written kept =>
    subst split
    exact absurd place (hfree _ (by simp))

/-- Files in a directory that is made for them, unless it is there. -/
theorem made_files (hnames : ∀ f ∈ files, IsName f.1) (hnodup : (files.map Prod.fst).Nodup)
    (h : (writeInto directory files).run t = (.ok (), after)) :
    ∃ home, after.Leads directory home ∧
      t.Grown (placesAlong directory) (files.map fun f => home ++ [f.1]) after ∧
      ∀ f ∈ files, after.entry? (home ++ [f.1]) = some (.file (.bytes (encode f.2))) := by
  obtain ⟨ready, home, hopened, hwritten⟩ := writeInto_ok hnames hnodup h
  refine ⟨home, hwritten.grown.leads hopened.leads, ?_, hwritten.entries⟩
  simpa using hopened.grown.trans hwritten.grown

theorem writeInto_again (hnames : ∀ f ∈ files, IsName f.1) (hnodup : (files.map Prod.fst).Nodup)
    (h : (writeInto directory files).run t = (.ok (), after)) :
    (writeInto directory files).run after = (.ok (), after) := by
  obtain ⟨home, hleads, -, hentries⟩ := made_files hnames hnodup h
  rw [writeInto, bind_run_ok hleads.ensureDirectories]
  exact writeAll_there hleads hnames hentries

theorem save_eq_writeInto (a : Analysis Float) (stats : FilterStats) (topPairs : Nat)
    (directory : String) :
    save a stats topPairs directory = writeInto directory (savedFiles a stats topPairs) := rfl

theorem exportGraph_eq_writeInto (m : Matrix) (clusters : List (Cluster Float))
    (directory : String) :
    exportGraph m clusters directory =
      writeInto (join directory graphDirectory) (graphFiles m clusters) := rfl

theorem names_savedFiles (a : Analysis Float) (stats : FilterStats) (topPairs : Nat) :
    (savedFiles a stats topPairs).map Prod.fst = savedNames := rfl

theorem names_graphFiles (m : Matrix) (clusters : List (Cluster Float)) :
    (graphFiles m clusters).map Prod.fst = graphNames := rfl

theorem isName_savedFiles (a : Analysis Float) (stats : FilterStats) (topPairs : Nat) :
    ∀ f ∈ savedFiles a stats topPairs, IsName f.1 := by
  intro f hf
  have hmem : f.1 ∈ savedNames := List.mem_map_of_mem hf
  exact (by decide : ∀ name ∈ savedNames, IsName name) f.1 hmem

theorem isName_graphFiles (m : Matrix) (clusters : List (Cluster Float)) :
    ∀ f ∈ graphFiles m clusters, IsName f.1 := by
  intro f hf
  have hmem : f.1 ∈ graphNames := List.mem_map_of_mem hf
  exact (by decide : ∀ name ∈ graphNames, IsName name) f.1 hmem

theorem nodup_savedFiles (a : Analysis Float) (stats : FilterStats) (topPairs : Nat) :
    ((savedFiles a stats topPairs).map Prod.fst).Nodup := by
  rw [names_savedFiles]
  decide

theorem nodup_graphFiles (m : Matrix) (clusters : List (Cluster Float)) :
    ((graphFiles m clusters).map Prod.fst).Nodup := by
  rw [names_graphFiles]
  decide

theorem save_writes (a : Analysis Float) (stats : FilterStats) (topPairs : Nat)
    (directory : String) (t : Tree) :
    WritesInto t directory (savedFiles a stats topPairs)
      ((save a stats topPairs directory).run t) :=
  writeInto_writes (isName_savedFiles a stats topPairs) (nodup_savedFiles a stats topPairs)

theorem exportGraph_writes (m : Matrix) (clusters : List (Cluster Float)) (directory : String)
    (t : Tree) :
    WritesInto t (join directory graphDirectory) (graphFiles m clusters)
      ((exportGraph m clusters directory).run t) :=
  writeInto_writes (isName_graphFiles m clusters) (nodup_graphFiles m clusters)

theorem made_save {a : Analysis Float} {stats : FilterStats} {topPairs : Nat}
    (h : (save a stats topPairs directory).run t = (.ok (), after)) :
    ∃ home, after.Leads directory home ∧
      t.Grown (placesAlong directory) ((savedFiles a stats topPairs).map fun f => home ++ [f.1])
        after ∧
      ∀ f ∈ savedFiles a stats topPairs,
        after.entry? (home ++ [f.1]) = some (.file (.bytes (encode f.2))) := by
  rw [save_eq_writeInto] at h
  exact made_files (isName_savedFiles a stats topPairs) (nodup_savedFiles a stats topPairs) h

theorem made_graph {m : Matrix} {clusters : List (Cluster Float)}
    (h : (exportGraph m clusters directory).run t = (.ok (), after)) :
    ∃ home, after.Leads (join directory graphDirectory) home ∧
      t.Grown (placesAlong (join directory graphDirectory))
        ((graphFiles m clusters).map fun f => home ++ [f.1]) after ∧
      ∀ f ∈ graphFiles m clusters,
        after.entry? (home ++ [f.1]) = some (.file (.bytes (encode f.2))) := by
  rw [exportGraph_eq_writeInto] at h
  exact made_files (isName_graphFiles m clusters) (nodup_graphFiles m clusters) h

/-- A save succeeds in a directory where none of its four names is that of a directory. -/
theorem save_ok (a : Analysis Float) (stats : FilterStats) (topPairs : Nat) {ready : Tree}
    (hready : (ensureDirectories directory).run t = (.ok (), ready))
    (hleads : ready.Leads directory home)
    (hfree : ∀ name ∈ savedNames, ready.entry? (home ++ [name]) ≠ some .directory) :
    ∃ after, (save a stats topPairs directory).run t = (.ok (), after) := by
  rw [save_eq_writeInto]
  exact exists_writeInto (isName_savedFiles a stats topPairs) (nodup_savedFiles a stats topPairs)
    hready hleads fun f hf => hfree f.1 (List.mem_map_of_mem hf)

/-- An export succeeds in a directory where none of its two names is that of a directory. -/
theorem export_ok (m : Matrix) (clusters : List (Cluster Float)) {ready : Tree}
    (hready : (ensureDirectories (join directory graphDirectory)).run t = (.ok (), ready))
    (hleads : ready.Leads (join directory graphDirectory) home)
    (hfree : ∀ name ∈ graphNames, ready.entry? (home ++ [name]) ≠ some .directory) :
    ∃ after, (exportGraph m clusters directory).run t = (.ok (), after) := by
  rw [exportGraph_eq_writeInto]
  exact exists_writeInto (isName_graphFiles m clusters) (nodup_graphFiles m clusters)
    hready hleads fun f hf => hfree f.1 (List.mem_map_of_mem hf)

/-- What a save writes can be read from its files. -/
theorem read_save {a : Analysis Float} {stats : FilterStats} {topPairs : Nat}
    (h : (save a stats topPairs directory).run t = (.ok (), after)) :
    ∀ f ∈ savedFiles a stats topPairs,
      after.read (join directory f.1) = .ok (.bytes (encode f.2)) := by
  intro f hf
  obtain ⟨home, hleads, -, hentries⟩ := made_save h
  exact hleads.read_join (isName_savedFiles a stats topPairs f hf) (hentries f hf)

/-- What an export writes can be read from its files. -/
theorem read_graph {m : Matrix} {clusters : List (Cluster Float)}
    (h : (exportGraph m clusters directory).run t = (.ok (), after)) :
    ∀ f ∈ graphFiles m clusters,
      after.read (join (join directory graphDirectory) f.1) = .ok (.bytes (encode f.2)) := by
  intro f hf
  obtain ⟨home, hleads, -, hentries⟩ := made_graph h
  exact hleads.read_join (isName_graphFiles m clusters f hf) (hentries f hf)

end Linkage.Report
