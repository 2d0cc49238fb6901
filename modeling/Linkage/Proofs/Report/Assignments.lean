import Linkage.Proofs.Cluster.Outcome
import Linkage.Proofs.Event.Line
import Linkage.Proofs.Matrix.Events
import Linkage.Proofs.Report.Files
import Linkage.Proofs.Report.Rows
import Mathlib.Data.List.Permutation

/-!
# The assignments as rows

The file of the assignments has a line for each class, with the cluster that the class is in. The
names are written as they are. So a reader of rows finds the classes again if no name begins with a
quote or has a comma or a carriage return, and for all other classes that events from a text can
have it does not.
-/

namespace Linkage.Report

variable {m : Matrix} {R : Type} {clusters : List (Cluster R)}

/-- Each member of a cluster with the id of this. -/
def assigned (clusters : List (Cluster R)) : List (String × Nat) :=
  clusters.flatMap fun c => c.members.map fun name => (name, c.id)

/-- The two fields of each line. -/
def entries (clusters : List (Cluster R)) : List (String × String) :=
  ("class", "cluster_id") :: (assigned clusters).map fun a => (a.1, toString a.2)

theorem assignmentLines_eq (clusters : List (Cluster R)) : assignmentLines clusters =
    "class,cluster_id" :: (assigned clusters).map fun a => assignmentLine a.1 a.2 := by
  rw [assignmentLines, assigned, List.map_flatMap]
  simp only [List.map_map]
  rfl

theorem toList_assignments (clusters : List (Cluster R)) :
    (unlines (assignmentLines clusters)).toList =
      ((entries clusters).map charsOf).flatMap lineOf := by
  rw [unlines, String.toList_ofList, assignmentLines_eq, entries, List.map_cons, List.flatMap_cons,
    List.flatMap_cons, List.map_map, List.flatMap_map, List.flatMap_map]
  refine congrArg₂ (· ++ ·) (by decide +kernel) ?_
  refine List.flatMap_congr fun a _ => ?_
  show (a.1 ++ "," ++ toString a.2).toList ++ ['\n'] = _
  simp [lineOf, charsOf]

theorem bare_toString (n : Nat) : Bare (toString n).toList := by
  rw [Nat.toString_eq_repr, Nat.toList_repr]
  have hdigit : ∀ c ∈ Nat.toDigits 10 n, c.isDigit := fun c hc =>
    Nat.isDigit_of_mem_toDigits (by decide) (by decide) hc
  refine ⟨fun c hc hend => ?_, fun hhead => ?_⟩
  · have hc := hdigit c hc
    rcases hend with rfl | rfl | rfl <;> cases hc
  · cases hdigit '"' (List.mem_of_mem_head? hhead)

theorem bare_header : Bare "class".toList ∧ Bare "cluster_id".toList := by decide +kernel

theorem readRows_assignments (h : ∀ a ∈ assigned clusters, Bare a.1.toList) :
    readRows (unlines (assignmentLines clusters)) =
      ["class", "cluster_id"] :: (assigned clusters).map fun a => [a.1, toString a.2] := by
  have hentries : ∀ e ∈ entries clusters, Bare e.1.toList ∧ Bare e.2.toList :=
    List.forall_mem_cons.mpr ⟨bare_header,
      List.forall_mem_map.mpr fun a ha => ⟨h a ha, bare_toString a.2⟩⟩
  rw [readRows_lines (toList_assignments clusters) hentries, entries, List.map_cons, List.map_map]
  rfl

theorem bare_of_readRows_assignments (hfeed : ∀ a ∈ assigned clusters, '\n' ∉ a.1.toList)
    {rows : List (List String)}
    (h : rows.Perm ((assigned clusters).map fun a => [a.1, toString a.2]))
    (hread : readRows (unlines (assignmentLines clusters)) = ["class", "cluster_id"] :: rows) :
    ∀ a ∈ assigned clusters, Bare a.1.toList := by
  have hfeed' : ∀ e ∈ entries clusters, '\n' ∉ e.1.toList ∧ '\n' ∉ e.2.toList :=
    List.forall_mem_cons.mpr ⟨by decide, List.forall_mem_map.mpr fun a ha =>
      ⟨hfeed a ha, fun hmem => (bare_toString a.2).ends _ hmem (.inr (.inl rfl))⟩⟩
  have hperm := h.cons ["class", "cluster_id"]
  rw [← hread] at hperm
  have hbare := bare_of_readRows_perm (toList_assignments clusters) hfeed' (by
    rw [entries, List.map_cons, List.map_map]
    exact hperm)
  exact fun a ha => (List.forall_mem_cons.mp hbare).2 _ (List.mem_map_of_mem ha)

section outcome

variable {R : Type} [Scale R] (threshold : R) (centralCount : Nat) (h : m.WellFormed)
include h

theorem map_fst_assigned_perm :
    ((assigned (m.cluster threshold centralCount).clusters).map Prod.fst).Perm m.classes := by
  rw [assigned, List.map_flatMap]
  simpa only [List.map_map, Function.comp_def, List.map_id'] using
    Matrix.flatMap_members_perm threshold centralCount h

theorem cluster_of_assigned {a : String × Nat}
    (ha : a ∈ assigned (m.cluster threshold centralCount).clusters) :
    ∃ c ∈ (m.cluster threshold centralCount).clusters, a.1 ∈ c.members ∧ a.2 = c.id ∧
      ∀ c' ∈ (m.cluster threshold centralCount).clusters, a.1 ∈ c'.members → c' = c := by
  obtain ⟨c, hc, hmem⟩ := List.mem_flatMap.mp ha
  obtain ⟨name, hname, rfl⟩ := List.mem_map.mp hmem
  exact ⟨c, hc, hname, rfl, fun c' hc' hname' =>
    Matrix.eq_of_common_member threshold centralCount h hc' hc hname' hname⟩

/-- What holds of all classes holds of all that are assigned. -/
theorem forall_assigned_iff {P : String → Prop} :
    (∀ a ∈ assigned (m.cluster threshold centralCount).clusters, P a.1) ↔
      ∀ name ∈ m.classes, P name := by
  have hperm := map_fst_assigned_perm threshold centralCount h
  constructor
  · intro hall name hname
    obtain ⟨a, ha, rfl⟩ := List.mem_map.mp (hperm.mem_iff.mpr hname)
    exact hall a ha
  · exact fun hall a ha => hall a.1 (hperm.mem_iff.mp (List.mem_map_of_mem ha))

/-- Two classes are in one cluster. -/
theorem assigned_perm_of_two (htwo : m.classCount = 2) :
    (assigned (m.cluster threshold centralCount).clusters).Perm (m.classes.map (·, 0)) := by
  have hperm := Matrix.flatMap_members_perm threshold centralCount h
  have hids := Matrix.map_id_clusters threshold centralCount h
  obtain ⟨hpos, hle⟩ := Matrix.length_clusters_bounds threshold centralCount h htwo.ge
  rw [htwo] at hle
  obtain ⟨c, hc⟩ := List.length_eq_one_iff.mp (Nat.le_antisymm hle hpos)
  rw [hc] at hids hperm ⊢
  rw [List.flatMap_singleton] at hperm
  rw [assigned, List.flatMap_singleton, List.head_eq_of_cons_eq hids]
  exact hperm.map _

end outcome

theorem lineFeed_not_mem_classes {content : Text.Bytes} {events : List Event}
    (h : Event.ofText content = .ok events) :
    ∀ name ∈ (Matrix.ofEvents events).classes, '\n' ∉ name.toList := by
  intro name hname
  obtain ⟨e, he, -, rfl | rfl⟩ := (Matrix.mem_classes_ofEvents name).mp hname
  · exact (Event.writable_of_ofText h e he).caller_feed
  · exact (Event.writable_of_ofText h e he).callee_feed

/-- Without a line feed a name is bare if the other two ends of a field do not occur in it and it
does not begin with a quote. -/
theorem bare_iff {name : List Char} (hfeed : '\n' ∉ name) :
    Bare name ↔ ',' ∉ name ∧ '\r' ∉ name ∧ name.head? ≠ some '"' := by
  constructor
  · intro h
    exact ⟨fun hc => h.ends _ hc (.inl rfl), fun hc => h.ends _ hc (.inr (.inr rfl)), h.opens⟩
  · rintro ⟨hcomma, hreturn, hquote⟩
    refine ⟨fun c hc hend => ?_, hquote⟩
    rcases hend with rfl | rfl | rfl
    · exact hcomma hc
    · exact hfeed hc
    · exact hreturn hc

/-- A reader of rows finds the header and one row for each class, with its cluster, in any order. -/
def Faithful (clusters : List (Cluster R)) : Prop :=
  ∃ rows, readRows (unlines (assignmentLines clusters)) = ["class", "cluster_id"] :: rows ∧
    rows.Perm ((assigned clusters).map fun a => [a.1, toString a.2])

theorem faithful_iff {content : Text.Bytes} {events : List Event}
    (h : Event.ofText content = .ok events) [Scale R] (threshold : R) (centralCount : Nat) :
    Faithful ((Matrix.ofEvents events).cluster threshold centralCount).clusters ↔
      ∀ name ∈ (Matrix.ofEvents events).classes, Bare name.toList := by
  have hm := Matrix.ofEvents_wellFormed events
  have hall := @forall_assigned_iff _ R _ threshold centralCount hm
  constructor
  · rintro ⟨rows, hread, hperm⟩
    exact hall.mp (bare_of_readRows_assignments (hall.mpr (lineFeed_not_mem_classes h)) hperm hread)
  · intro hbare
    exact ⟨_, readRows_assignments (hall.mpr hbare), .refl _⟩

/-- The assignments of events from a text have each class once, with the only cluster that the class
is in. A reader of rows finds these classes and clusters exactly if no class has a comma or a
carriage return or begins with a quote, and then it finds them in the order of the clusters. The
file holds the text after an export. -/
theorem assignments_read_iff {content : Text.Bytes} {events : List Event}
    (h : Event.ofText content = .ok events) (threshold : Float) (centralCount : Nat) :
    let m := Matrix.ofEvents events
    let o := m.cluster threshold centralCount
    let text := unlines (assignmentLines o.clusters)
    ((assigned o.clusters).map Prod.fst).Perm m.classes ∧
    (∀ a ∈ assigned o.clusters, ∃ c ∈ o.clusters, a.1 ∈ c.members ∧ a.2 = c.id ∧
      ∀ c' ∈ o.clusters, a.1 ∈ c'.members → c' = c) ∧
    (Faithful o.clusters ↔ ∀ name ∈ m.classes,
      ',' ∉ name.toList ∧ '\r' ∉ name.toList ∧ name.toList.head? ≠ some '"') ∧
    (Faithful o.clusters → readRows text =
      ["class", "cluster_id"] :: (assigned o.clusters).map fun a => [a.1, toString a.2]) ∧
    ∀ (directory : String) (before after : Files.Tree),
      (exportGraph m o.clusters directory).run before = (.ok (), after) →
        after.read (Files.join (Files.join directory "graph") "class_assignments.csv") =
          .ok (.bytes (Text.encode text)) := by
  intro m o text
  have hm : m.WellFormed := Matrix.ofEvents_wellFormed events
  have hread : Faithful o.clusters ↔ ∀ name ∈ m.classes, Bare name.toList :=
    faithful_iff h threshold centralCount
  refine ⟨map_fst_assigned_perm threshold centralCount hm,
    fun a ha => cluster_of_assigned threshold centralCount hm ha, ?_, fun hfaithful => ?_,
    fun directory before after hexport => read_graph hexport ("class_assignments.csv", text)
      (List.mem_cons_of_mem _ List.mem_cons_self)⟩
  · exact hread.trans (forall₂_congr fun name hname =>
      bare_iff (lineFeed_not_mem_classes h name hname))
  · exact readRows_assignments
      ((forall_assigned_iff threshold centralCount hm).mpr (hread.mp hfaithful))

/-- Quotes inside of a name do no harm. -/
theorem assignments_read_of_inner_quotes :
    let content := Text.encode "A \"a\" -> B\n"
    let events : List Event := [⟨"A \"a\"", "B"⟩]
    let o := (Matrix.ofEvents events).cluster (0.5 : Float) 5
    let before : Files.Tree := ⟨[(["out"], .directory), (["out", "graph"], .directory)]⟩
    Event.ofText content = .ok events ∧
    (∃ rows, readRows (unlines (assignmentLines o.clusters)) = ["class", "cluster_id"] :: rows ∧
      rows.Perm [["A \"a\"", "0"], ["B", "0"]]) ∧
    ∃ after, (exportGraph (Matrix.ofEvents events) o.clusters "out").run before = (.ok (), after) ∧
      after.read (Files.join (Files.join "out" "graph") "class_assignments.csv") =
        .ok (.bytes (Text.encode (unlines (assignmentLines o.clusters)))) := by
  intro content events o before
  have hevents : Event.ofText content = .ok events := by rfl
  have hclasses : (Matrix.ofEvents events).classes = ["A \"a\"", "B"] := by decide +kernel
  have hperm := assigned_perm_of_two (0.5 : Float) 5 (Matrix.ofEvents_wellFormed events)
    (congrArg List.length hclasses)
  rw [hclasses] at hperm
  have hleads : before.Leads (Files.join "out" graphDirectory) ["out", "graph"] :=
    ⟨by decide +kernel, by decide +kernel⟩
  obtain ⟨after, hexport⟩ := export_ok (Matrix.ofEvents events) o.clusters
    hleads.ensureDirectories hleads (by decide +kernel)
  obtain ⟨-, -, hiff, hread, hfile⟩ := assignments_read_iff hevents 0.5 5
  have hfaithful : Faithful o.clusters := hiff.mpr (by
    rw [hclasses]
    decide +kernel)
  exact ⟨hevents, ⟨_, hread hfaithful, hperm.map fun a => [a.1, toString a.2]⟩, after, hexport,
    hfile "out" before after hexport⟩

/-- A comma in a name divides it, unless there are quotes around the name. -/
theorem assignments_not_read_of_comma :
    let content := Text.encode "Map<K,V> -> X\n"
    let events : List Event := [⟨"Map<K,V>", "X"⟩]
    let o := (Matrix.ofEvents events).cluster (0.5 : Float) 5
    Event.ofText content = .ok events ∧ ¬ Faithful o.clusters ∧
      ["Map<K", "V>", "0"] ∈ readRows (unlines (assignmentLines o.clusters)) ∧
      readRows "class,cluster_id\n\"Map<K,V>\",0\nX,0\n" =
        [["class", "cluster_id"], ["Map<K,V>", "0"], ["X", "0"]] := by
  intro content events o
  have hevents : Event.ofText content = .ok events := by rfl
  have hclasses : (Matrix.ofEvents events).classes = ["Map<K,V>", "X"] := by decide +kernel
  have hperm := assigned_perm_of_two (0.5 : Float) 5 (Matrix.ofEvents_wellFormed events)
    (congrArg List.length hclasses)
  rw [hclasses] at hperm
  refine ⟨hevents, fun hfaithful => ?_, ?_, by decide +kernel⟩
  · have hbare := (faithful_iff hevents (0.5 : Float) 5).mp hfaithful "Map<K,V>" (by
      rw [hclasses]
      exact List.mem_cons_self)
    exact absurd hbare (by decide +kernel)
  · rw [assignmentLines_eq]
    generalize assigned o.clusters = as at hperm
    rcases List.perm_pair.mp hperm with rfl | rfl <;> decide +kernel

end Linkage.Report
