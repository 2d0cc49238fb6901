import Linkage.Proofs.Report.Files

/-!
# Results on any file tree

The four files of the results and the two of the graph are written in order into a directory that is
made for them. The fault that ends the writing is that of the first name that belongs to a
directory, and what was written before it is complete.
-/

namespace Linkage.Report
open Files Text

variable {files done rest : List (String × String)} {f : String × String} {t : Tree} {home : Place}
  {r : Except Fault Unit × Tree}

/-- The first name that is that of a directory is where the writing stops. -/
theorem Writes.stopped_at (h : Writes t home files r) (hsplit : files = done ++ f :: rest)
    (hdirectory : t.entry? (home ++ [f.1]) = some .directory)
    (hfree : ∀ g ∈ done, t.entry? (home ++ [g.1]) ≠ some .directory) :
    ∃ after, r = (.error .isDirectory, after) ∧ Written t home done after ∧
      ∀ g ∈ f :: rest, after.entry? (home ++ [g.1]) = t.entry? (home ++ [g.1]) := by
  subst hsplit
  cases h with
  | finished written => exact absurd hdirectory (written.free f (by simp))
  | @stopped done' rest' f' after split directory written kept =>
    obtain ⟨between, hdone, hrest⟩ | ⟨between, hdone, hrest⟩ := List.append_eq_append_iff.mp split
    · cases between with
      | nil =>
        rw [List.append_nil] at hdone
        rw [List.nil_append] at hrest
        exact ⟨after, rfl, hdone ▸ written, hrest ▸ kept⟩
      | cons g between =>
        obtain rfl : f = g := (List.cons.inj hrest).1
        exact absurd hdirectory (written.free f (by simp [hdone]))
    · cases between with
      | nil =>
        rw [List.append_nil] at hdone
        rw [List.nil_append] at hrest
        exact ⟨after, rfl, hdone ▸ written, hrest ▸ kept⟩
      | cons g between =>
        obtain rfl : f' = g := (List.cons.inj hrest).1
        exact absurd directory (hfree f' (by simp [hdone]))

/-- To save results or to export a graph makes the directory or fails, having changed nothing but
places on the way to it. Then the files are written in order, up to the first one whose name is that
of a directory, and every other place is as it was. Their texts are those of the results, whatever
was there, and to write them once more changes nothing. -/
theorem results_written_in_order (a : Analysis Float) (stats : FilterStats) (topPairs : Nat)
    (m : Matrix) (clusters : List (Cluster Float)) (directory : String) (t : Tree) :
    ((savedFiles a stats topPairs).map Prod.fst =
        ["summary.json", "coupling_matrix.json", "clusters.json", "merge_steps.json"] ∧
      WritesInto t directory (savedFiles a stats topPairs)
        ((save a stats topPairs directory).run t) ∧
      ∀ after, (save a stats topPairs directory).run t = (.ok (), after) →
        (save a stats topPairs directory).run after = (.ok (), after)) ∧
    (graphFiles m clusters).map Prod.fst = ["coupling_graph.graphml", "class_assignments.csv"] ∧
      WritesInto t (join directory "graph") (graphFiles m clusters)
        ((exportGraph m clusters directory).run t) ∧
      ∀ after, (exportGraph m clusters directory).run t = (.ok (), after) →
        (exportGraph m clusters directory).run after = (.ok (), after) := by
  constructor
  · refine ⟨rfl, save_writes a stats topPairs directory t, fun _ => ?_⟩
    rw [save_eq_writeInto]
    exact writeInto_again (isName_savedFiles a stats topPairs) (nodup_savedFiles a stats topPairs)
  · refine ⟨rfl, exportGraph_writes m clusters directory t, fun _ => ?_⟩
    rw [exportGraph_eq_writeInto]
    exact writeInto_again (isName_graphFiles m clusters) (nodup_graphFiles m clusters)

/-- An old summary is replaced. Where the third name is that of a directory, the first two files are
written, and nothing else is changed. -/
theorem results_written_in_order_of_old_summary :
    let a := analyze [⟨"A", "B"⟩, ⟨"B", "C"⟩, ⟨"B", "C"⟩] Config.default .inOrder
    let stats : FilterStats := ⟨3, 1, 0, 0⟩
    let old : Tree := ⟨[(["out"], .directory),
      (["out", "summary.json"], .file (.bytes (encode "old")))]⟩
    let blocked := old.put ["out", "clusters.json"] .directory
    (∃ after, (save a stats 10 "out").run old = (.ok (), after) ∧
      after.entry? ["out", "summary.json"] =
        some (.file (.bytes (encode (summaryJson a stats 10).sorted.pretty))) ∧
      (save a stats 10 "out").run after = (.ok (), after)) ∧
    ∃ after, (save a stats 10 "out").run blocked = (.error .isDirectory, after) ∧
      after.entry? ["out", "coupling_matrix.json"] =
        some (.file (.bytes (encode (matrixJson a.matrix).sorted.pretty))) ∧
      ∀ place, place ∉ [["out", "summary.json"], ["out", "coupling_matrix.json"]] →
        after.entry? place = blocked.entry? place := by
  intro a stats old blocked
  have hold : old.Leads "out" ["out"] := ⟨by decide +kernel, by decide +kernel⟩
  have hblocked : blocked.Leads "out" ["out"] := ⟨by decide +kernel, by decide +kernel⟩
  constructor
  · obtain ⟨after, hsave⟩ := save_ok a stats 10 hold.ensureDirectories hold (by decide +kernel)
    obtain ⟨⟨-, hwrites, hagain⟩, -⟩ := results_written_in_order a stats 10 a.matrix [] "out" old
    refine ⟨after, hsave, ?_, hagain after hsave⟩
    rw [hsave] at hwrites
    cases hwrites with
    | made made opened writes =>
      cases made.symm.trans hold.ensureDirectories
      cases opened.leads.follow.symm.trans hold.follow
      cases writes with
      | finished written => exact written.entries _ (List.mem_cons_self ..)
  · obtain ⟨⟨-, hwrites, -⟩, -⟩ := results_written_in_order a stats 10 a.matrix [] "out" blocked
    generalize (save a stats 10 "out").run blocked = r at hwrites ⊢
    cases hwrites with
    | unmade made absent obstacle grown => exact absurd hblocked (absent ["out"])
    | made made opened writes =>
      cases made.symm.trans hblocked.ensureDirectories
      cases opened.leads.follow.symm.trans hblocked.follow
      have hsplit : savedFiles a stats 10 =
          [("summary.json", (summaryJson a stats 10).sorted.pretty),
            ("coupling_matrix.json", (matrixJson a.matrix).sorted.pretty)] ++
          ("clusters.json", (clustersJson a.outcome).sorted.pretty) ::
          [("merge_steps.json", (stepsJson a.outcome).sorted.pretty)] := rfl
      obtain ⟨after, rfl, written, kept⟩ :=
        writes.stopped_at hsplit (by decide +kernel) (by decide +kernel)
      refine ⟨after, rfl, written.entries _ (List.mem_cons_of_mem _ (List.mem_cons_self ..)), ?_⟩
      rw [← opened.there _ hblocked]
      exact written.others

end Linkage.Report
