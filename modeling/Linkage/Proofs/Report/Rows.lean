import Mathlib.Data.List.Perm.Basic

/-!
# Reading rows of fields

A reader of texts with one record a line and commas between the fields. A field that begins with a
quote goes on to the next single quote, over commas and line ends, and a doubled quote in it stands
for one. What is written without quotes is read as it was written if no character of it means
something to the reader, and only then.
-/

namespace Linkage.Report

inductive RowMode where
  /-- At the beginning of a record. -/
  | record
  /-- Behind a carriage return, which makes one line end with a line feed that follows. -/
  | carriageReturn
  /-- Behind a comma. -/
  | field
  | bare
  | quoted
  /-- Behind a quote in a quoted field: the end of this, or the first half of a doubled quote. -/
  | quote
deriving DecidableEq, Repr

inductive RowStep where
  | skip
  | push (c : Char)
  | endField
  | endRow
deriving DecidableEq

/-- A quote opens a quoted field only where a field begins. Elsewhere it is a character like any
other. -/
def RowMode.next (mode : RowMode) (c : Char) : RowStep × RowMode :=
  if mode = .quoted then if c = '"' then (.skip, .quote) else (.push c, .quoted)
  else if c = '"' ∧ mode = .quote then (.push c, .quoted)
  else if c = '"' ∧ mode ≠ .bare then (.skip, .quoted)
  else if c = '\n' ∧ mode = .carriageReturn then (.skip, .record)
  else if c = ',' then (.endField, .field)
  else if c = '\n' then (.endRow, .record)
  else if c = '\r' then (.endRow, .carriageReturn)
  else (.push c, .bare)

/-- A record as its fields, and these as characters. -/
abbrev Row := List (List Char)

/-- The rows with one more step in front of them, which goes into the first field of the first. -/
def RowStep.before : RowStep → List Row → List Row
  | .skip, rows => rows
  | .push c, [] => [[[c]]]
  | .push c, [] :: rows => [[c]] :: rows
  | .push c, (field :: row) :: rows => ((c :: field) :: row) :: rows
  | .endField, [] => [[[]]]
  | .endField, row :: rows => ([] :: row) :: rows
  | .endRow, rows => [[]] :: rows

/-- Between two records, where the text may end without another one. -/
def RowMode.done : RowMode → Bool
  | .record | .carriageReturn => true
  | _ => false

/-- The rows of a text. What is read first is the rest of the field that the reader is in. -/
def rowsFrom : RowMode → List Char → List Row
  | mode, [] => if mode.done then [] else [[[]]]
  | mode, c :: cs => (mode.next c).1.before (rowsFrom (mode.next c).2 cs)

def readRows (text : String) : List (List String) :=
  (rowsFrom .record text.toList).map fun row => row.map String.ofList

/-- A character that ends a field without quotes. -/
def EndsField (c : Char) : Prop := c = ',' ∨ c = '\n' ∨ c = '\r'

instance : DecidablePred EndsField := fun c =>
  inferInstanceAs (Decidable (c = ',' ∨ c = '\n' ∨ c = '\r'))

/-- A field that can stand without quotes. -/
structure Bare (cs : List Char) : Prop where
  ends : ∀ c ∈ cs, ¬ EndsField c
  opens : cs.head? ≠ some '"'

instance (cs : List Char) : Decidable (Bare cs) :=
  have := List.decidableBAll (¬ EndsField ·) cs
  decidable_of_iff ((∀ c ∈ cs, ¬ EndsField c) ∧ cs.head? ≠ some '"')
    ⟨fun h => ⟨h.1, h.2⟩, fun h => ⟨h.ends, h.opens⟩⟩

variable {c : Char} {cs name id : List Char} {mode : RowMode}

theorem next_bare (h : ¬ EndsField c) : RowMode.next .bare c = (.push c, .bare) := by
  simp only [EndsField, not_or] at h
  simp [RowMode.next, h]

/-- At the beginning of a field only a quote makes a difference. -/
theorem rowsFrom_eq_bare (hmode : mode = .record ∨ mode = .field) (hc : c ≠ '"')
    (cs : List Char) : rowsFrom mode (c :: cs) = rowsFrom .bare (c :: cs) := by
  have hnext : mode.next c = RowMode.next .bare c := by
    rcases hmode with rfl | rfl <;> simp [RowMode.next, hc]
  rw [rowsFrom, rowsFrom, hnext]

theorem rowsFrom_bare_append (h : ∀ c ∈ cs, ¬ EndsField c) {rest field : List Char} {row : Row}
    {rows : List Row} (hrest : rowsFrom .bare rest = (field :: row) :: rows) :
    rowsFrom .bare (cs ++ rest) = ((cs ++ field) :: row) :: rows := by
  induction cs with
  | nil => exact hrest
  | cons c cs ih =>
    obtain ⟨hc, h⟩ := List.forall_mem_cons.mp h
    rw [List.cons_append, rowsFrom, next_bare hc, ih h]
    rfl

/-- A bare field is read up to what ends it. -/
theorem rowsFrom_append (hmode : mode = .record ∨ mode = .field) (hcs : Bare cs) {sep : Char}
    (hsep : sep ≠ '"') {rest field : List Char} {row : Row} {rows : List Row}
    (hrest : rowsFrom .bare (sep :: rest) = (field :: row) :: rows) :
    rowsFrom mode (cs ++ sep :: rest) = ((cs ++ field) :: row) :: rows := by
  rw [← rowsFrom_bare_append hcs.ends hrest]
  cases cs with
  | nil => exact rowsFrom_eq_bare hmode hsep rest
  | cons c cs => exact rowsFrom_eq_bare hmode (fun hc => hcs.opens (congrArg some hc)) _

theorem rowsFrom_line (hname : Bare name) (hid : Bare id) (rest : List Char) :
    rowsFrom .record (name ++ ',' :: (id ++ '\n' :: rest)) =
      [name, id] :: rowsFrom .record rest := by
  have hlast : rowsFrom .field (id ++ '\n' :: rest) = [id] :: rowsFrom .record rest := by
    rw [rowsFrom_append (.inr rfl) hid (by decide)
      (show rowsFrom .bare ('\n' :: rest) = [[]] :: rowsFrom .record rest from rfl),
      List.append_nil]
  have hcomma : rowsFrom .bare (',' :: (id ++ '\n' :: rest)) =
      [[], id] :: rowsFrom .record rest := by
    show RowStep.before .endField (rowsFrom .field (id ++ '\n' :: rest)) = _
    rw [hlast]
    rfl
  rw [rowsFrom_append (.inl rfl) hname (by decide) hcomma, List.append_nil]

def RowMode.after : RowMode → List Char → RowMode
  | mode, [] => mode
  | mode, c :: cs => (mode.next c).2.after cs

/-- The number of characters that go into no field and end none. -/
def skips : RowMode → List Char → Nat
  | _, [] => 0
  | mode, c :: cs => (if (mode.next c).1 = .skip then 1 else 0) + skips (mode.next c).2 cs

theorem RowMode.after_append (mode : RowMode) (cs ds : List Char) :
    mode.after (cs ++ ds) = (mode.after cs).after ds := by
  induction cs generalizing mode with
  | nil => rfl
  | cons c cs ih => exact ih _

theorem skips_append (mode : RowMode) (cs ds : List Char) :
    skips mode (cs ++ ds) = skips mode cs + skips (mode.after cs) ds := by
  induction cs generalizing mode with
  | nil => exact (Nat.zero_add _).symm
  | cons c cs ih =>
    show _ + skips _ (cs ++ ds) = (_ + skips _ cs) + _
    rw [ih, Nat.add_assoc]
    rfl

def RowStep.ends : RowStep → Bool
  | .endField | .endRow => true
  | _ => false

/-- The steps behind which a record goes on. -/
def RowStep.goesOn : RowStep → Bool
  | .push _ | .endField => true
  | _ => false

def RowMode.unquoted : RowMode → Bool
  | .quoted | .quote => false
  | _ => true

/-- Outside of quotes a character that is not skipped ends a field if it is one of those that do. -/
theorem RowMode.next_unquoted (hmode : mode.unquoted) (hskip : (mode.next c).1 ≠ .skip) :
    (mode.next c).2.unquoted ∧ ((mode.next c).1.ends ↔ EndsField c) := by
  unfold next EndsField at *
  split_ifs at * <;> simp_all [unquoted, RowStep.ends]

theorem RowMode.done_next (hmode : mode.done = false) (hskip : (mode.next c).1 = .skip) :
    (mode.next c).2.done = false := by
  have hfeed : mode ≠ .carriageReturn := by
    rintro rfl
    cases hmode
  unfold next at hskip ⊢
  split_ifs at hskip ⊢ with _ _ _ _ h <;> first | exact absurd h.2 hfeed | rfl

theorem RowMode.done_next_of_goesOn (h : (mode.next c).1.goesOn) :
    (mode.next c).2.done = false := by
  unfold next at h ⊢
  split_ifs at h ⊢ <;> first | rfl | cases h

/-- There is a field for what is read before the rows. -/
def Started (rows : List Row) : Prop := ∃ field row rest, rows = (field :: row) :: rest

theorem started_before {step : RowStep} (h : step ≠ .skip) (rows : List Row) :
    Started (step.before rows) := by
  cases step with
  | skip => exact absurd rfl h
  | push c => rcases rows with _ | ⟨_ | ⟨field, row⟩, rows⟩ <;> exact ⟨_, _, _, rfl⟩
  | endField => cases rows <;> exact ⟨_, _, _, rfl⟩
  | endRow => exact ⟨_, _, _, rfl⟩

theorem started_rowsFrom (hmode : mode.done = false) (cs : List Char) :
    Started (rowsFrom mode cs) := by
  induction cs generalizing mode with
  | nil => exact ⟨[], [], [], if_neg (by rw [hmode]; decide)⟩
  | cons c cs ih =>
    by_cases hskip : (mode.next c).1 = .skip
    · rw [rowsFrom, hskip]
      exact ih (RowMode.done_next hmode hskip)
    · exact started_before hskip _

/-! ### Counting -/

section counting

variable {step : RowStep} {rows : List Row} (h : step.goesOn → Started rows)
include h

theorem fieldCount_before :
    (step.before rows).flatten.length = rows.flatten.length + if step.ends then 1 else 0 := by
  cases step with
  | skip => rfl
  | push c =>
    obtain ⟨field, row, rest, rfl⟩ := h rfl
    rfl
  | endField =>
    obtain ⟨field, row, rest, rfl⟩ := h rfl
    rfl
  | endRow => rfl

/-- A step that does not skip its character makes a field longer or ends one. -/
theorem length_before :
    (step.before rows).flatten.flatten.length + (step.before rows).flatten.length +
      (if step = .skip then 1 else 0) = rows.flatten.flatten.length + rows.flatten.length + 1 := by
  rw [fieldCount_before h]
  cases step with
  | skip => rfl
  | push c =>
    obtain ⟨field, row, rest, rfl⟩ := h rfl
    simp only [RowStep.before, RowStep.ends, List.flatten_cons, List.cons_append,
      List.length_cons, reduceCtorEq, if_false]
    omega
  | endField =>
    obtain ⟨field, row, rest, rfl⟩ := h rfl
    rfl
  | endRow => rfl

end counting

theorem started_of_goesOn (mode : RowMode) (c : Char) (cs : List Char)
    (h : (mode.next c).1.goesOn) : Started (rowsFrom (mode.next c).2 cs) :=
  started_rowsFrom (RowMode.done_next_of_goesOn h) cs

/-- Of each character something is left, in a field or as the end of one, if it is not skipped. The
text may leave its last field open. -/
theorem length_rowsFrom (mode : RowMode) (cs : List Char) :
    (rowsFrom mode cs).flatten.flatten.length + (rowsFrom mode cs).flatten.length +
      skips mode cs = cs.length + if (mode.after cs).done then 0 else 1 := by
  induction cs generalizing mode with
  | nil => cases mode <;> rfl
  | cons c cs ih =>
    have hstep := length_before (started_of_goesOn mode c cs)
    have hrest := ih (mode.next c).2
    rw [RowMode.after, skips, rowsFrom, List.length_cons]
    omega

/-- Where nothing is skipped no quotes are opened, and each character that can end a field ends
one. -/
theorem fieldCount_rowsFrom (hmode : mode.unquoted) (cs : List Char) (hskips : skips mode cs = 0) :
    (mode.after cs).unquoted ∧ (rowsFrom mode cs).flatten.length =
      cs.countP (EndsField ·) + if (mode.after cs).done then 0 else 1 := by
  induction cs generalizing mode with
  | nil => exact ⟨hmode, by cases mode <;> rfl⟩
  | cons c cs ih =>
    rw [skips, Nat.add_eq_zero_iff] at hskips
    have hskip : (mode.next c).1 ≠ .skip := fun h => by simp [h] at hskips
    obtain ⟨hnext, hends⟩ := RowMode.next_unquoted hmode hskip
    obtain ⟨hafter, hrest⟩ := ih hnext hskips.2
    refine ⟨hafter, ?_⟩
    rw [RowMode.after, rowsFrom, fieldCount_before (started_of_goesOn mode c cs), hrest,
      List.countP_cons]
    simp only [hends, decide_eq_true_eq]
    omega

theorem subset_before (step : RowStep) (rows : List Row) :
    rows.flatten.flatten ⊆ (step.before rows).flatten.flatten := by
  intro c hc
  rcases step with _ | d | _ | _ <;> rcases rows with _ | ⟨_ | ⟨field, row⟩, rows⟩ <;>
    simp_all [RowStep.before]

/-- A line feed is read as such, or it is part of a field. -/
theorem done_of_not_mem (cs : List Char)
    (h : '\n' ∉ (rowsFrom mode (cs ++ ['\n'])).flatten.flatten) :
    (mode.after (cs ++ ['\n'])).done := by
  induction cs generalizing mode with
  | nil => cases mode <;> first | rfl | exact absurd (by decide) h
  | cons c cs ih => exact ih fun hmem => h (subset_before _ _ hmem)

def lineOf (l : List Char × List Char) : List Char := l.1 ++ ',' :: (l.2 ++ ['\n'])

def rowOf (l : List Char × List Char) : Row := [l.1, l.2]

variable {lines : List (List Char × List Char)}

theorem rowsFrom_lines (h : ∀ l ∈ lines, Bare l.1 ∧ Bare l.2) :
    rowsFrom .record (lines.flatMap lineOf) = lines.map rowOf := by
  induction lines with
  | nil => rfl
  | cons l lines ih =>
    obtain ⟨hl, h⟩ := List.forall_mem_cons.mp h
    rw [List.flatMap_cons, lineOf, List.append_assoc, List.cons_append, List.append_assoc,
      List.singleton_append, rowsFrom_line hl.1 hl.2, ih h]
    rfl

theorem mem_fields {c : Char} :
    c ∈ (lines.map rowOf).flatten.flatten ↔ ∃ l ∈ lines, c ∈ l.1 ∨ c ∈ l.2 := by
  simp only [List.mem_flatten, List.mem_map]
  constructor
  · rintro ⟨field, ⟨_, ⟨l, hl, rfl⟩, hfield⟩, hc⟩
    refine ⟨l, hl, ?_⟩
    rcases List.mem_pair.mp hfield with rfl | rfl
    · exact .inl hc
    · exact .inr hc
  · rintro ⟨l, hl, hc | hc⟩
    · exact ⟨l.1, ⟨rowOf l, ⟨l, hl, rfl⟩, List.mem_cons_self ..⟩, hc⟩
    · exact ⟨l.2, ⟨rowOf l, ⟨l, hl, rfl⟩, List.mem_pair.mpr (.inr rfl)⟩, hc⟩

theorem length_lines (lines : List (List Char × List Char)) :
    (lines.flatMap lineOf).length =
      (lines.map rowOf).flatten.flatten.length + (lines.map rowOf).flatten.length := by
  induction lines with
  | nil => rfl
  | cons l lines ih =>
    simp only [List.flatMap_cons, List.map_cons, List.flatten_cons, lineOf, rowOf,
      List.length_append, List.length_cons, List.flatten_append, List.flatten_nil,
      List.length_nil] at ih ⊢
    omega

/-- Two characters of a line end its fields, and the others that can are in the fields. -/
theorem countP_lines (lines : List (List Char × List Char)) :
    (lines.flatMap lineOf).countP (EndsField ·) =
      (lines.map rowOf).flatten.flatten.countP (EndsField ·) +
        (lines.map rowOf).flatten.length := by
  induction lines with
  | nil => rfl
  | cons l lines ih =>
    have hcomma : EndsField ',' := .inl rfl
    have hfeed : EndsField '\n' := .inr (.inl rfl)
    simp only [List.flatMap_cons, List.map_cons, List.flatten_cons, lineOf, rowOf,
      List.length_append, List.length_cons, List.flatten_append, List.flatten_nil,
      List.length_nil, List.countP_append, List.countP_cons, List.countP_nil, hcomma, hfeed,
      decide_true, if_true] at ih ⊢
    omega

/-- A line in which nothing is skipped ends its record. -/
theorem after_lineOf {l : List Char × List Char} (h : skips .record (lineOf l) = 0) :
    RowMode.after .record (lineOf l) = .record := by
  have hline : lineOf l = (l.1 ++ ',' :: l.2) ++ ['\n'] := by simp [lineOf]
  rw [hline, skips_append, Nat.add_eq_zero_iff] at h
  have hunquoted := (fieldCount_rowsFrom rfl _ h.1).1
  rw [hline, RowMode.after_append]
  revert hunquoted
  cases RowMode.after .record (l.1 ++ ',' :: l.2) <;> first | exact fun _ => rfl | exact nofun

/-- At the beginning of a record a quote is skipped. -/
theorem head_ne_quote (h : skips .record (lines.flatMap lineOf) = 0) :
    ∀ l ∈ lines, l.1.head? ≠ some '"' := by
  induction lines with
  | nil => exact nofun
  | cons l lines ih =>
    rw [List.flatMap_cons, skips_append, Nat.add_eq_zero_iff] at h
    obtain ⟨hl, hlines⟩ := h
    rw [after_lineOf hl] at hlines
    refine List.forall_mem_cons.mpr ⟨fun hhead => ?_, ih hlines⟩
    obtain ⟨cs, hcs⟩ := List.head?_eq_some_iff.mp hhead
    -- the first character of the line would be skipped
    have hskip : (RowMode.next .record '"').1 = .skip := rfl
    rw [lineOf, hcs, List.cons_append, skips, if_pos hskip] at hl
    omega

/-- Lines are read as they were written, in whatever order, only if their names need no quotes:
nothing is left over for a quote that is skipped or for one more end of a field. -/
theorem bare_of_perm (hfeed : ∀ l ∈ lines, '\n' ∉ l.1 ∧ '\n' ∉ l.2)
    (h : (rowsFrom .record (lines.flatMap lineOf)).Perm (lines.map rowOf)) :
    ∀ l ∈ lines, Bare l.1 := by
  -- the last line feed is not part of a field, so it leaves no record open
  have hdone : (RowMode.after .record (lines.flatMap lineOf)).done := by
    rcases lines.eq_nil_or_concat' with rfl | ⟨front, l, rfl⟩
    · rfl
    have htext : (front ++ [l]).flatMap lineOf =
        (front.flatMap lineOf ++ (l.1 ++ ',' :: l.2)) ++ ['\n'] := by
      simp [lineOf]
    rw [htext] at h ⊢
    refine done_of_not_mem _ fun hmem => ?_
    obtain ⟨l', hl', hc⟩ := mem_fields.mp (h.flatten.flatten.mem_iff.mp hmem)
    exact hc.elim (hfeed l' hl').1 (hfeed l' hl').2
  -- the fields and their ends make up the whole text, so nothing of it is skipped
  have hlength := length_rowsFrom .record (lines.flatMap lineOf)
  rw [h.flatten.length_eq, h.flatten.flatten.length_eq, length_lines, if_pos hdone] at hlength
  have hskips : skips .record (lines.flatMap lineOf) = 0 := by omega
  -- outside of quotes each comma ends a field, and the fields are no more than those of the lines
  have hfields := (fieldCount_rowsFrom rfl _ hskips).2
  rw [h.flatten.length_eq, countP_lines, if_pos hdone] at hfields
  have hends : (lines.map rowOf).flatten.flatten.countP (EndsField ·) = 0 := by omega
  intro l hl
  refine ⟨fun c hc hend => ?_, head_ne_quote hskips l hl⟩
  exact List.countP_eq_zero.mp hends c (mem_fields.mpr ⟨l, hl, .inl hc⟩) (decide_eq_true hend)

variable {text : String} {entries : List (String × String)}

def charsOf (e : String × String) : List Char × List Char := (e.1.toList, e.2.toList)

theorem readRows_lines (htext : text.toList = (entries.map charsOf).flatMap lineOf)
    (h : ∀ e ∈ entries, Bare e.1.toList ∧ Bare e.2.toList) :
    readRows text = entries.map fun e => [e.1, e.2] := by
  rw [readRows, htext, rowsFrom_lines (List.forall_mem_map.mpr h), List.map_map, List.map_map]
  refine List.map_congr_left fun e _ => ?_
  simp [rowOf, charsOf]

theorem bare_of_readRows_perm (htext : text.toList = (entries.map charsOf).flatMap lineOf)
    (hfeed : ∀ e ∈ entries, '\n' ∉ e.1.toList ∧ '\n' ∉ e.2.toList)
    (h : (readRows text).Perm (entries.map fun e => [e.1, e.2])) :
    ∀ e ∈ entries, Bare e.1.toList := by
  have hrows : (readRows text).map (·.map String.toList) = rowsFrom .record text.toList := by
    simp [readRows, Function.comp_def]
  have hfields : (·.map String.toList) ∘ (fun e : String × String => [e.1, e.2]) =
      rowOf ∘ charsOf := rfl
  have hperm := h.map (·.map String.toList)
  rw [hrows, htext, List.map_map, hfields, ← List.map_map] at hperm
  have hbare := bare_of_perm (List.forall_mem_map.mpr hfeed) hperm
  exact fun e he => hbare (charsOf e) (List.mem_map_of_mem he)

end Linkage.Report
