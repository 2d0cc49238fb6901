import Linkage.Analysis
import Linkage.Proofs.Event.Line
import Linkage.Proofs.Files.Extension
import Linkage.Proofs.Json.Members

/-!
# One list of events in three formats

Events whose names lines can carry are read from lines with arrows, from objects in a text of JSON
and from the rows of a table, and they are the same from all three.
-/

namespace Linkage.Event
open Linkage.Text Linkage.Files

variable {events : List Event}

/-- A line for each event; the last one may lack its line feed. -/
inductive LinesOf (events : List Event) : Bytes → Prop
  | ended : LinesOf events (toText arrowLine events)
  | unended {before : List Event} {last : Event} (h : events = before ++ [last]) :
      LinesOf events (toText arrowLine before ++ encode (last.caller ++ " -> " ++ last.callee))

theorem ofBytes_of_not_mem {bs : Bytes} (hne : bs ≠ []) (hbs : lineFeed ∉ bs) :
    Line.ofBytes bs = [⟨bs, false⟩] := by
  induction bs with
  | nil => exact absurd rfl hne
  | cons b bs ih =>
    rw [List.mem_cons, not_or] at hbs
    rw [Line.ofBytes_cons]
    unfold Line.consByte
    rw [if_neg (Ne.symm hbs.1)]
    cases bs with
    | nil => rfl
    | cons c cs => rw [ih (List.cons_ne_nil c cs) hbs.2]

theorem Progress.readLines_concat (p : Progress) (lines : List Line) (l : Line) :
    p.readLines (lines ++ [l]) = (p.readLines lines).bind fun p => p.readLine l := by
  simp only [readLines, List.foldlM_append, List.foldlM_cons, List.foldlM_nil, bind_pure]
  rfl

theorem ofText_unended {text : Event → String} {before : List Event} {last : Event}
    (hevents : ∀ e ∈ before ++ [last], Carries (text e) e)
    (hhead : ∀ e, isHeading (text e).toList = false) :
    ofText (toText (fun e => text e ++ "\n") before ++ encode (text last)) =
      .ok (before ++ [last]) := by
  have hbefore : ∀ e ∈ before, Carries (text e) e := fun e he =>
    hevents e (List.mem_append_left _ he)
  have hlast : Carries (text last) last := hevents last (by simp)
  have hne : encode (text last) ≠ [] := by
    intro hnil
    have hempty : text last = "" := by
      apply Option.some.inj
      rw [← decode?_encode (text last), hnil, ← decode?_encode ""]
      rfl
    have hbusy := hlast.busy
    rw [hempty] at hbusy
    cases hbusy
  have hfeed : lineFeed ∉ encode (text last) := mt lineFeed_mem_encode.mp hlast.feed
  have hread := Progress.readLines_of_carries (p := .start) hbefore (Or.inr fun e _ => hhead e)
  rw [ofText, ofBytes_toText_append hbefore, ofBytes_of_not_mem hne hfeed,
    Progress.readLines_concat]
  cases hlines : Progress.start.readLines (before.map fun e => ⟨encode (text e), true⟩) with
  | error err =>
    rw [hlines] at hread
    cases hread
  | ok p =>
    rw [hlines] at hread
    have hp : p.events = before.reverse ++ [] := Except.ok.inj hread
    rw [Except.bind, Progress.readLine_of_carries hlast (Or.inr (hhead last)), Except.map, hp]
    simp

theorem ofText_of_lines (hevents : ∀ e ∈ events, e.Writable) {content : Bytes}
    (h : LinesOf events content) : ofText content = .ok events := by
  cases h with
  | ended =>
    exact ofText_toText (fun e he => carries_arrow (hevents e he)) fun e _ => not_isHeading_arrow e
  | unended hsplit =>
    subst hsplit
    exact ofText_unended (fun e he => carries_arrow (hevents e he)) not_isHeading_arrow

/-- An object with the names of an event as two of its members. -/
def ObjectOf (e : Event) (t : Json.Tree) : Prop :=
  t.HasTexts [("caller", e.caller), ("callee", e.callee)]

/-- A text of JSON with an array of such objects. -/
def ObjectsOf (events : List Event) (content : Bytes) : Prop :=
  ∃ before own after objects, content = before ++ (own ++ after) ∧ Json.Blanks before ∧
    Json.Blanks after ∧ (Json.Tree.array objects).Spelled own ∧
    List.Forall₂ ObjectOf events objects

theorem ObjectOf.accepts {e : Event} {t : Json.Tree} (h : ObjectOf e t) : format.Accepts e t :=
  ⟨(e.caller, e.callee, ()), Json.Tree.HasTexts.accepts (by decide) h, rfl⟩

theorem decode_of_objects {content : Bytes} (h : ObjectsOf events content) :
    format.list.decode content = .ok events := by
  obtain ⟨before, own, after, objects, rfl, hbefore, hafter, hown, hobjects⟩ := h
  have haccepts : format.list.Accepts events (.array objects) :=
    .list (hobjects.imp fun _ _ => ObjectOf.accepts)
  exact haccepts.decode hown hbefore hafter

/-- Two columns with the names of the events. Other rows lack a name. -/
inductive RowsOf : List Event → List (Option String) → List (Option String) → Prop
  | done : RowsOf [] [] []
  | event {events : List Event} {callers callees : List (Option String)} (e : Event)
      (h : RowsOf events callers callees) :
      RowsOf (e :: events) (some e.caller :: callers) (some e.callee :: callees)
  | skipped {events : List Event} {callers callees : List (Option String)}
      {caller callee : Option String} (h : RowsOf events callers callees)
      (hnone : caller = none ∨ callee = none) :
      RowsOf events (caller :: callers) (callee :: callees)

/-- A table with these two columns, wherever they stand and whatever the others are. -/
structure TableOf (events : List Event) (table : Table) (callers callees : List (Option String)) :
    Prop where
  distinct : (table.map Column.name).Nodup
  caller_mem : ⟨callerColumn, .texts callers⟩ ∈ table
  callee_mem : ⟨calleeColumn, .texts callees⟩ ∈ table
  rows : RowsOf events callers callees

theorem texts?_of_mem {table : Table} {name : String} {cells : List (Option String)}
    (hnames : (table.map Column.name).Nodup) (h : ⟨name, .texts cells⟩ ∈ table) :
    table.texts? name = some cells := by
  have hfind : table.find? (fun c => c.name == name) = some ⟨name, .texts cells⟩ := by
    induction table with
    | nil => cases h
    | cons c table ih =>
      rw [List.map_cons, List.nodup_cons] at hnames
      obtain heq | hmem := List.mem_cons.mp h
      · rw [← heq]
        exact List.find?_cons_of_pos (beq_self_eq_true name)
      · have hne : c.name ≠ name := fun heq => hnames.1 (heq ▸ List.mem_map_of_mem hmem)
        rw [List.find?_cons_of_neg (by simpa using hne)]
        exact ih hnames.2 hmem
  rw [Table.texts?, hfind]

theorem RowsOf.filterMap_eq {callers callees : List (Option String)}
    (h : RowsOf events callers callees) :
    ((callers.zip callees).filterMap fun
      | (some caller, some callee) => some (⟨caller, callee⟩ : Event)
      | _ => none) = events := by
  induction h with
  | done => rfl
  | event e h ih =>
    rw [List.zip_cons_cons, List.filterMap_cons, ih]
  | skipped h hnone ih =>
    rename_i caller callee
    rw [List.zip_cons_cons, List.filterMap_cons, ih]
    obtain rfl | rfl := hnone
    · rfl
    · cases caller <;> rfl

theorem ofTable?_of_rows {table : Table} {callers callees : List (Option String)}
    (h : TableOf events table callers callees) : ofTable? table = some events := by
  rw [ofTable?, texts?_of_mem h.distinct h.caller_mem, texts?_of_mem h.distinct h.callee_mem]
  exact congrArg some h.rows.filterMap_eq

/-- A file at a path holds the events in the format of its extension. -/
inductive HeldBy (events : List Event) (path : String) : Content → Prop
  | lines {content : Bytes} (hjson : ¬ HasExtension path "json")
      (htable : ¬ HasExtension path "parquet") (h : LinesOf events content) :
      HeldBy events path (.bytes content)
  | objects {content : Bytes} (hjson : HasExtension path "json") (h : ObjectsOf events content) :
      HeldBy events path (.bytes content)
  | rows {table : Table} {bytes : Bytes} {callers callees : List (Option String)}
      (htable : HasExtension path "parquet") (h : TableOf events table callers callees) :
      HeldBy events path (.table table bytes)

variable {tree : Tree} {path : String} {content : Content}

theorem readContent_of_file (h : tree.find? path = some (.file content))
    (fault : Fault → Error) : readContent tree path fault = .ok content := by
  rw [readContent, Tree.read, h]
  rfl

/-- Whatever the format, the events are loaded as they are, so their analysis is the same. -/
theorem load_of_held {R : Type} [Scale R] (hevents : ∀ e ∈ events, e.Writable)
    (hfile : tree.find? path = some (.file content)) (hheld : HeldBy events path content) :
    load tree path = .ok events ∧
      ∀ (config : Config R) (b : Scale.Bracketing),
        (load tree path).map (analyze · config b) = .ok (analyze events config b) := by
  have hload : load tree path = .ok events := by
    have hread (fault : Fault → Error) := readContent_of_file hfile fault
    unfold load
    cases hheld with
    | lines hjson htable h =>
      rw [FileFormat.ofPath_text hfile hjson htable]
      show loadText tree path = _
      rw [loadText, hread]
      exact ofText_of_lines hevents h
    | objects hjson h =>
      rw [FileFormat.ofPath_json hjson]
      show loadJson tree path = _
      rw [loadJson, hread]
      show (format.list.decode _).mapError Error.json = _
      rw [Content.toBytes, decode_of_objects h]
      rfl
    | rows htable h =>
      rw [FileFormat.ofPath_table htable]
      show loadTable tree path = _
      rw [loadTable, hread]
      show (ofTable? _).elim (Except.error Error.table) Except.ok = _
      rw [ofTable?_of_rows h]
      rfl
  refine ⟨hload, ?_⟩
  intro config b
  rw [hload]
  rfl

/-- The same events in three files: with letters that JSON escapes, with more members and columns
than these two, with rows that lack a name, and with capitals in the extensions. -/
theorem load_of_held_in_three_files :
    let events : List Event := [⟨"shop Cart", "a\"é"⟩, ⟨"a\"é", "a\"é"⟩, ⟨"shop Cart", "a\"é"⟩]
    let objects : Json.Value := .array (events.map fun e =>
      .object [("line", .array [.natural 7, .null]), ("callee", .text e.callee),
        ("caller", .text e.caller)])
    let rows : Table := [⟨"line", .integers [some 1, none, some 3, some 4, some 5]⟩,
      ⟨"callee", .texts [some "a\"é", some "x", some "a\"é", none, some "a\"é"]⟩,
      ⟨"caller", .texts [some "shop Cart", none, some "a\"é", none, some "shop Cart"]⟩]
    let tree : Tree := ⟨[(["in"], .directory),
      (["in", "log.txt"], .file (.bytes (toText arrowLine events))),
      (["in", "log.v2.JSON"], .file (.bytes (encode objects.pretty))),
      (["log.Parquet"], .file (.table rows (encode "PAR1")))]⟩
    load tree "in/log.txt" = .ok events ∧ load tree "in/log.v2.JSON" = .ok events ∧
      load tree "./log.Parquet" = .ok events := by
  intro events objects rows tree
  have hevents : ∀ e ∈ events, e.Writable := by
    simp only [events, List.forall_mem_cons]
    refine ⟨?_, ?_, ?_, List.forall_mem_nil _⟩ <;> constructor <;> decide
  have hlines : HeldBy events "in/log.txt" (.bytes (toText arrowLine events)) := by
    apply HeldBy.lines _ _ .ended
    · intro hjson
      exact absurd (hjson.extension?_eq (by decide) (by decide) (by decide)) (by decide)
    · intro htable
      exact absurd (htable.extension?_eq (by decide) (by decide) (by decide)) (by decide)
  have hobjects : HeldBy events "in/log.v2.JSON" (.bytes (encode objects.pretty)) := by
    apply HeldBy.objects ⟨"in/log.v".toList, '2', "JSON".toList, by decide, by decide, by decide⟩
    refine ⟨[], _, [], _, by simp, Json.blanks_nil, Json.blanks_nil, objects.spelled_pretty, ?_⟩
    have hobject (e : Event) : ObjectOf e (Json.Value.tree (.object
        [("line", .array [.natural 7, .null]), ("callee", .text e.callee),
          ("caller", .text e.caller)])) := by
      refine ⟨_, rfl, ?_⟩
      simp only [List.forall_mem_cons]
      exact ⟨rfl, rfl, List.forall_mem_nil _⟩
    exact .cons (hobject _) (.cons (hobject _) (.cons (hobject _) .nil))
  have hrows : HeldBy events "./log.Parquet" (.table rows (encode "PAR1")) := by
    apply HeldBy.rows ⟨"./lo".toList, 'g', "Parquet".toList, by decide, by decide, by decide⟩
    refine ⟨by decide, List.mem_of_getElem? (i := 2) rfl, List.mem_of_getElem? (i := 1) rfl, ?_⟩
    exact .event ⟨"shop Cart", "a\"é"⟩ (.skipped (.event ⟨"a\"é", "a\"é"⟩
      (.skipped (.event ⟨"shop Cart", "a\"é"⟩ .done) (.inl rfl))) (.inl rfl))
  exact ⟨(load_of_held (R := Float) hevents rfl hlines).1,
    (load_of_held (R := Float) hevents rfl hobjects).1,
    (load_of_held (R := Float) hevents rfl hrows).1⟩

end Linkage.Event
