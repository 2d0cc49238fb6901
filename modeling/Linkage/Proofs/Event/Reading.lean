import Linkage.Proofs.Event.Line

/-!
# How lines are read

Whether a line can be read depends on that line alone: a heading is always a line of two names, so
the place of a heading decides only whether it is an event. So reading some lines fails with the
first of their faults, and otherwise gives the events of the lines that count, without a heading at
their front. A text is thereby read part by part: what stands before changes nothing but the numbers
of lines, and whether a heading may still come.
-/

namespace Linkage

/-- The same error with other numbers of lines. -/
def Error.renumber (f : Nat → Nat) : Error → Error
  | .malformedEvent line content => .malformedEvent (f line) content
  | err => err

/-- The new number of a line where `added` lines are put in behind the line with number `place`. -/
def numberBehind (place added number : Nat) : Nat :=
  if number ≤ place then number else number + added

namespace Event
open Linkage.Text

/-- Only the letters from A to Z have another lower case. -/
theorem toLower_cases (c : Char) :
    c.toLower = c ∨ (65 ≤ c.toNat ∧ c.toNat ≤ 90 ∧ c.toLower.toNat = c.toNat + 32) := by
  unfold Char.toLower
  split
  · rename_i hupper
    obtain ⟨hlow, hhigh⟩ := hupper
    have hlow : 65 ≤ c.val.toNat := hlow
    have hhigh : c.val.toNat ≤ 90 := hhigh
    refine Or.inr ⟨hlow, hhigh, ?_⟩
    show (c.val + ('a'.val - 'A'.val)).toNat = c.val.toNat + 32
    rw [UInt32.toNat_add]
    exact Nat.mod_eq_of_lt (by show c.val.toNat + 32 < _; omega)
  · exact Or.inl rfl

theorem eq_of_toLower {c d : Char} (hd : d.toNat < 97) (h : c.toLower = d) : c = d := by
  rcases toLower_cases c with hsame | ⟨hlow, -, hshift⟩
  · exact hsame.symm.trans h
  · rw [h] at hshift
    omega

theorem toLower_of_isBlank {c : Char} (h : isBlank c) : c.toLower = c := by
  refine (toLower_cases c).resolve_right fun ⟨hlow, hhigh, _⟩ => ?_
  simp only [isBlank, inRanges, blankRanges, List.any_cons, List.any_nil, Bool.or_eq_true,
    Bool.and_eq_true, decide_eq_true_iff, Bool.false_eq_true, or_false] at h
  omega

section heading

variable {line : List Char}

/-- The characters by which a heading is known. -/
def headingKey (line : List Char) : List Char := (line.filter fun c => c != ' ').map Char.toLower

theorem mem_headingKey {d : Char} (hspace : d ≠ ' ') (hd : d.toLower = d) (h : d ∈ line) :
    d ∈ headingKey line :=
  List.mem_map.mpr ⟨d, List.mem_filter.mpr ⟨h, bne_iff_ne.mpr hspace⟩, hd⟩

theorem exists_of_mem_headingKey {d : Char} (h : d ∈ headingKey line) :
    ∃ c ∈ line, c.toLower = d := by
  obtain ⟨c, hc, hlower⟩ := List.mem_map.mp h
  exact ⟨c, (List.mem_filter.mp hc).1, hlower⟩

theorem stripEnds_ne_nil_of_mem_headingKey (h : 'c' ∈ headingKey line) :
    stripEnds isBlank line ≠ [] := by
  intro hnil
  obtain ⟨c, hc, hlower⟩ := exists_of_mem_headingKey h
  obtain ⟨pre, post, hline, hpre, hpost⟩ := exists_stripEnds isBlank line
  rw [hnil, List.append_nil] at hline
  have hblank : isBlank c := by
    rw [hline] at hc
    exact (List.mem_append.mp hc).elim (hpre c) (hpost c)
  rw [← hlower, toLower_of_isBlank hblank] at h
  rw [toLower_of_isBlank hblank] at hlower
  subst hlower
  exact absurd hblank (by decide)

theorem headingKey_append_comma (left right : List Char) :
    headingKey (left ++ comma ++ right) = headingKey left ++ ',' :: headingKey right := by
  simp [headingKey, comma, show Char.toLower ',' = ',' by decide]

section

variable (h : isHeading line)
include h

theorem headingKey_of_isHeading : headingKey line = "caller,callee".toList := beq_iff_eq.mp h

theorem not_arrow_of_isHeading : ¬ arrow <:+: line := by
  intro hwithin
  have hmem : '>' ∈ headingKey line :=
    mem_headingKey (by decide) (by decide) (hwithin.subset (by decide))
  rw [headingKey_of_isHeading h] at hmem
  exact absurd hmem (by decide)

/-- A heading is cut at its comma, on either side of which one of its names stands. -/
theorem exists_sides_of_isHeading : ∃ left right, sides? line = some (left, right) ∧
    headingKey left = "caller".toList ∧ headingKey right = "callee".toList := by
  have hcomma : ',' ∈ line := by
    have hmem : ',' ∈ headingKey line := by
      rw [headingKey_of_isHeading h]
      decide
    obtain ⟨c, hc, hlower⟩ := exists_of_mem_headingKey hmem
    exact eq_of_toLower (by decide) hlower ▸ hc
  obtain ⟨⟨left, right⟩, hsplit⟩ := Option.isSome_iff_exists.mp (holds_comma.mpr hcomma)
  have hsides : sides? line = some (left, right) := by
    rw [sides?, splitFirst_eq_none (not_arrow_of_isHeading h), hsplit, Option.none_or]
  obtain ⟨rfl, -⟩ := splitFirst_eq_some (by decide) hsplit
  have hkeys : headingKey left ++ ',' :: headingKey right =
      "caller".toList ++ ',' :: "callee".toList :=
    (headingKey_append_comma left right).symm.trans (headingKey_of_isHeading h)
  obtain ⟨hleft, -, hright⟩ :=
    (List.append_cons_inj_of_notMem (by decide) (by decide)).mp hkeys.symm
  exact ⟨left, right, hsides, hleft.symm, hright.symm⟩

/-- A heading is a line of two names. -/
theorem ofLine?_isSome_of_isHeading : (ofLine? line).isSome := by
  obtain ⟨left, right, hsides, hleft, hright⟩ := exists_sides_of_isHeading h
  have hwithin := infix_stripEnds isBlank right
  have hcaller : stripEnds isBlank left ≠ [] :=
    stripEnds_ne_nil_of_mem_headingKey (hleft ▸ by decide)
  have hcallee : stripEnds isBlank right ≠ [] :=
    stripEnds_ne_nil_of_mem_headingKey (hright ▸ by decide)
  have hcomma : ¬ holds comma (stripEnds isBlank right) := by
    rw [holds_comma]
    intro hmem
    have hmem := mem_headingKey (by decide) (by decide) (hwithin.subset hmem)
    rw [hright] at hmem
    exact absurd hmem (by decide)
  have harrow : ¬ holds arrow (stripEnds isBlank right) := by
    intro hholds
    have hinside := holds_iff_infix.mp hholds
    exact not_arrow_of_isHeading h
      (hinside.trans (hwithin.trans (sides?_eq_some hsides).2.2.isInfix))
  rw [ofLine?, hsides]
  simp [hcaller, hcallee, hcomma, harrow]

end

end heading

/-- The text of a line without the blanks at its ends. -/
def trimmed? (l : Line) : Option (List Char) :=
  l.text?.map fun text => stripEnds isBlank text.toList

/-- The line is blank, or a comment. -/
def isIdleLine (l : Line) : Bool := (trimmed? l).any isIdle

/-- What is wrong with a line, wherever it stands. -/
def fault? (number : Nat) (l : Line) : Option Error :=
  match trimmed? l with
  | none => some (.file .notText)
  | some line =>
    if isIdle line || (ofLine? line).isSome then none
    else some (.malformedEvent number (String.ofList line))

/-- The first of the faults of some lines, which are numbered from `number` on. -/
def firstFault? (number : Nat) (lines : List Line) : Option Error :=
  (lines.zipIdx number).findSome? fun (l, n) => fault? n l

/-- The lines that are neither blank nor comments, trimmed. -/
def counted (lines : List Line) : List (List Char) :=
  (lines.filterMap trimmed?).filter fun line => !isIdle line

def withoutHeading : List (List Char) → List (List Char)
  | [] => []
  | line :: lines => if isHeading line then lines else line :: lines

/-- The events of lines without faults. -/
def eventsOf (lines : List Line) : List Event := (withoutHeading (counted lines)).filterMap ofLine?

/-- The first line that is neither blank nor a comment is a heading. -/
def isHeaded (lines : List Line) : Bool :=
  (lines.find? fun l => !isIdleLine l).any fun l => (trimmed? l).any isHeading

theorem firstFault?_cons (number : Nat) (l : Line) (lines : List Line) :
    firstFault? number (l :: lines) =
      (fault? number l).or (firstFault? (number + 1) lines) := by
  rw [firstFault?, List.zipIdx_cons, List.findSome?_cons, firstFault?]
  dsimp only
  cases fault? number l <;> rfl

theorem firstFault?_append (number : Nat) (xs ys : List Line) :
    firstFault? number (xs ++ ys) =
      (firstFault? number xs).or (firstFault? (number + xs.length) ys) := by
  rw [firstFault?, List.zipIdx_append, List.findSome?_append]
  rfl

@[simp] theorem counted_nil : counted [] = [] := rfl

theorem counted_append (xs ys : List Line) : counted (xs ++ ys) = counted xs ++ counted ys := by
  rw [counted, List.filterMap_append, List.filter_append]
  rfl

theorem counted_singleton {l : Line} {line : List Char} (h : trimmed? l = some line) :
    counted [l] = if isIdle line then [] else [line] := by
  cases hidle : isIdle line <;> simp [counted, h, hidle]

theorem withoutHeading_append {xs : List (List Char)} (hxs : xs ≠ []) (ys : List (List Char)) :
    withoutHeading (xs ++ ys) = withoutHeading xs ++ ys := by
  obtain ⟨line, xs, rfl⟩ := List.exists_cons_of_ne_nil hxs
  rw [List.cons_append, withoutHeading, withoutHeading]
  split <;> rfl

/-! ### Reading -/

namespace Progress

/-- Where reading stands after some more lines without faults. -/
def after (p : Progress) (lines : List Line) : Progress where
  lines := p.lines + lines.length
  started := p.started || !(counted lines).isEmpty
  events := ((bif p.started then counted lines else withoutHeading (counted lines)).filterMap
    ofLine?).reverse ++ p.events

theorem after_append (p : Progress) (xs ys : List Line) :
    (p.after xs).after ys = p.after (xs ++ ys) := by
  obtain ⟨n, started, events⟩ := p
  simp only [after, counted_append, List.length_append, Nat.add_assoc, mk.injEq, true_and]
  cases started with
  | true => simp
  | false =>
    by_cases hxs : counted xs = []
    · simp [hxs, withoutHeading]
    · have hstarted : (counted xs).isEmpty = false := by simpa using hxs
      simp [hxs, hstarted, withoutHeading_append hxs]

/-- One line is read, or its fault is found. -/
theorem readLine_eq (p : Progress) (l : Line) :
    p.readLine l = (fault? (p.lines + 1) l).elim (.ok (p.after [l])) .error := by
  rw [readLine, fault?]
  cases htext : l.text? with
  | none => simp [trimmed?, htext]
  | some text =>
    have htrimmed : trimmed? l = some (stripEnds isBlank text.toList) := by
      rw [trimmed?, htext, Option.map_some]
    simp only [htrimmed]
    generalize stripEnds isBlank text.toList = line at htrimmed
    have hcounted := counted_singleton htrimmed
    obtain ⟨n, started, events⟩ := p
    by_cases hidle : isIdle line
    · simp [hidle, after, hcounted, withoutHeading]
    cases hevent : ofLine? line with
    | none =>
      have hheading : isHeading line = false := Bool.eq_false_iff.mpr fun h => by
        simpa [hevent] using ofLine?_isSome_of_isHeading h
      simp [hidle, hheading]
    | some e =>
      cases started with
      | true => simp [hidle, after, hcounted, hevent]
      | false => cases hheading : isHeading line <;>
          simp [hidle, after, hcounted, hevent, hheading, withoutHeading]

theorem readLines_eq (p : Progress) (lines : List Line) :
    p.readLines lines = (firstFault? (p.lines + 1) lines).elim (.ok (p.after lines)) .error := by
  induction lines generalizing p with
  | nil =>
    show Except.ok p = .ok (p.after [])
    simp [after, withoutHeading]
  | cons l lines ih =>
    rw [readLines_cons, readLine_eq, firstFault?_cons]
    cases fault? (p.lines + 1) l with
    | some err => rfl
    | none =>
      show (p.after [l]).readLines lines = _
      rw [ih, after_append]
      rfl

end Progress

theorem ofText_eq (content : Bytes) : ofText content =
    (firstFault? 1 (Line.ofBytes content)).elim (.ok (eventsOf (Line.ofBytes content))) .error := by
  rw [ofText, Progress.readLines_eq]
  show Except.map _ ((firstFault? 1 (Line.ofBytes content)).elim _ _) = _
  cases firstFault? 1 (Line.ofBytes content) with
  | some err => rfl
  | none => simp [Except.map, Progress.after, Progress.start, eventsOf]

theorem fault?_renumber (f : Nat → Nat) (number : Nat) (l : Line) :
    (fault? number l).map (.renumber f) = fault? (f number) l := by
  unfold fault?
  split
  · rfl
  · split <;> rfl

theorem firstFault?_renumber {f : Nat → Nat} {number number' : Nat} {lines : List Line}
    (hf : ∀ i < lines.length, f (number + i) = number' + i) :
    (firstFault? number lines).map (.renumber f) = firstFault? number' lines := by
  induction lines generalizing number number' with
  | nil => rfl
  | cons l lines ih =>
    have hfirst : f number = number' := hf 0 (Nat.succ_pos _)
    have hrest : (firstFault? (number + 1) lines).map (.renumber f) =
        firstFault? (number' + 1) lines := by
      refine ih fun i hi => ?_
      rw [Nat.add_right_comm, Nat.add_right_comm number', Nat.add_assoc, Nat.add_assoc number']
      exact hf (i + 1) (Nat.succ_lt_succ hi)
    rw [firstFault?_cons, firstFault?_cons, Option.map_or, fault?_renumber, hfirst, hrest]

theorem exists_trimmed? {number : Nat} {l : Line} (h : fault? number l = none) :
    ∃ line, trimmed? l = some line := by
  unfold fault? at h
  split at h
  · cases h
  · exact ⟨_, ‹_›⟩

theorem isIdleLine_iff {l : Line} :
    isIdleLine l ↔ ∃ line, trimmed? l = some line ∧ isIdle line := by
  rw [isIdleLine]
  cases trimmed? l <;> simp

theorem fault?_of_idle {l : Line} (h : isIdleLine l) (number : Nat) : fault? number l = none := by
  obtain ⟨line, hline, hidle⟩ := isIdleLine_iff.mp h
  simp [fault?, hline, hidle]

theorem firstFault?_of_idle {lines : List Line} (h : ∀ l ∈ lines, isIdleLine l) (number : Nat) :
    firstFault? number lines = none :=
  List.findSome?_eq_none_iff.mpr fun _ hp =>
    fault?_of_idle (h _ (List.fst_mem_of_mem_zipIdx hp)) _

section readable

variable {number : Nat} {lines : List Line} (h : firstFault? number lines = none)
include h

theorem counted_eq_nil_iff : counted lines = [] ↔ ∀ l ∈ lines, isIdleLine l := by
  induction lines generalizing number with
  | nil => simp
  | cons l lines ih =>
    rw [firstFault?_cons, Option.or_eq_none_iff] at h
    obtain ⟨line, hline⟩ := exists_trimmed? h.1
    rw [← List.singleton_append, counted_append, counted_singleton hline, List.append_eq_nil_iff,
      List.singleton_append, List.forall_mem_cons, ih h.2]
    simp [isIdleLine, hline]

theorem isHeaded_eq : isHeaded lines = (counted lines).head?.any isHeading := by
  induction lines generalizing number with
  | nil => rfl
  | cons l lines ih =>
    rw [firstFault?_cons, Option.or_eq_none_iff] at h
    obtain ⟨line, hline⟩ := exists_trimmed? h.1
    have hrest := ih h.2
    rw [← List.singleton_append, counted_append, counted_singleton hline, List.singleton_append]
    cases hidle : isIdle line with
    | true =>
      have hskip : isIdleLine l := isIdleLine_iff.mpr ⟨line, hline, hidle⟩
      rw [isHeaded, List.find?_cons_of_neg (by simp [hskip])]
      exact hrest
    | false =>
      have hfound : ¬ isIdleLine l := by simp [isIdleLine, hline, hidle]
      rw [isHeaded, List.find?_cons_of_pos (by simp [hfound])]
      simp [hline]

theorem withoutHeading_counted (hheaded : ¬ isHeaded lines) :
    withoutHeading (counted lines) = counted lines := by
  rw [isHeaded_eq h] at hheaded
  cases hcounted : counted lines with
  | nil => rfl
  | cons line rest =>
    rw [hcounted] at hheaded
    exact if_neg hheaded

end readable

/-! ### Texts in parts -/

section parts

variable {xs ys zs : List Line}

theorem eventsOf_append_of_idle (h : ∀ l ∈ zs, isIdleLine l) (xs ys : List Line) :
    eventsOf (xs ++ (zs ++ ys)) = eventsOf (xs ++ ys) := by
  have hnil : counted zs = [] := (counted_eq_nil_iff (firstFault?_of_idle h 1)).mpr h
  rw [eventsOf, eventsOf, counted_append, counted_append, counted_append, hnil, List.nil_append]

theorem eventsOf_append {number : Nat} (hxs : counted xs ≠ []) (hys : firstFault? number ys = none)
    (hheaded : ¬ isHeaded ys) : eventsOf (xs ++ ys) = eventsOf xs ++ eventsOf ys := by
  rw [eventsOf, counted_append, withoutHeading_append hxs, List.filterMap_append, eventsOf,
    eventsOf, withoutHeading_counted hys hheaded]

/-- Faults behind lines that are put in have a number that is larger by that many. -/
theorem firstFault?_insert {added : Nat} (hzs : ∀ l ∈ zs, isIdleLine l)
    (hadded : ys ≠ [] → added = zs.length) : firstFault? 1 (xs ++ (zs ++ ys)) =
      (firstFault? 1 (xs ++ ys)).map (.renumber (numberBehind xs.length added)) := by
  have hbefore : (firstFault? 1 xs).map (.renumber (numberBehind xs.length added)) =
      firstFault? 1 xs :=
    firstFault?_renumber fun i hi => if_pos (by omega)
  have hafter : (firstFault? (1 + xs.length) ys).map (.renumber (numberBehind xs.length added)) =
      firstFault? (1 + xs.length + zs.length) ys := by
    refine firstFault?_renumber fun i hi => ?_
    rw [hadded (List.ne_nil_of_length_pos (Nat.zero_lt_of_lt hi)), numberBehind,
      if_neg (by omega)]
    omega
  rw [firstFault?_append, firstFault?_append, firstFault?_append, firstFault?_of_idle hzs,
    Option.none_or, Option.map_or, hbefore, hafter]

end parts

theorem ofText_eq_error_iff {content : Bytes} {err : Error} :
    ofText content = .error err ↔ firstFault? 1 (Line.ofBytes content) = some err := by
  rw [ofText_eq]
  cases firstFault? 1 (Line.ofBytes content) <;> simp

theorem ofText_eq_ok_iff {content : Bytes} {events : List Event} : ofText content = .ok events ↔
    firstFault? 1 (Line.ofBytes content) = none ∧ eventsOf (Line.ofBytes content) = events := by
  rw [ofText_eq]
  cases firstFault? 1 (Line.ofBytes content) <;> simp

section bytes

variable {x y z : Bytes} (hx : Terminated x)
include hx

theorem ofText_append_of_error {err : Error} (h : ofText x = .error err) :
    ofText (x ++ y) = .error err := by
  rw [ofText_eq_error_iff] at h ⊢
  rw [Line.ofBytes_append hx, firstFault?_append, h, Option.some_or]

/-- The faults of what follows some lines without faults. -/
theorem firstFault?_append_of_none (h : firstFault? 1 (Line.ofBytes x) = none) :
    firstFault? 1 (Line.ofBytes (x ++ y)) =
      (firstFault? 1 (Line.ofBytes y)).map (.renumber (· + x.count lineFeed)) := by
  rw [Line.ofBytes_append hx, firstFault?_append, h, Option.none_or, Line.length_ofBytes hx]
  exact (firstFault?_renumber fun i _ => by omega).symm

theorem ofText_append_of_idle (hidle : ∀ l ∈ Line.ofBytes x, isIdleLine l) :
    ofText (x ++ y) = (ofText y).mapError (.renumber (· + x.count lineFeed)) := by
  have hevents := eventsOf_append_of_idle hidle [] (Line.ofBytes y)
  rw [List.nil_append, List.nil_append] at hevents
  rw [ofText_eq, ofText_eq, firstFault?_append_of_none hx (firstFault?_of_idle hidle 1),
    Line.ofBytes_append hx, hevents]
  cases firstFault? 1 (Line.ofBytes y) <;> rfl

theorem ofText_append_of_ok {events : List Event} (h : ofText x = .ok events)
    (hbusy : ∃ l ∈ Line.ofBytes x, ¬ isIdleLine l) (hheaded : ¬ isHeaded (Line.ofBytes y)) :
    ofText (x ++ y) =
      ((ofText y).map (events ++ ·)).mapError (.renumber (· + x.count lineFeed)) := by
  obtain ⟨hfault, rfl⟩ := ofText_eq_ok_iff.mp h
  have hcounted : counted (Line.ofBytes x) ≠ [] := by
    obtain ⟨l, hl, hnot⟩ := hbusy
    exact fun hnil => hnot ((counted_eq_nil_iff hfault).mp hnil l hl)
  rw [ofText_eq, ofText_eq y, firstFault?_append_of_none hx hfault, Line.ofBytes_append hx]
  cases hrest : firstFault? 1 (Line.ofBytes y) with
  | some err => rfl
  | none =>
    show Except.ok _ = Except.ok _
    rw [eventsOf_append hcounted hrest hheaded]

/-- Lines without events are only seen in the numbers of the lines that follow. -/
theorem ofText_insert (hidle : ∀ l ∈ Line.ofBytes z, isIdleLine l) (hz : Terminated z ∨ y = []) :
    ofText (x ++ (z ++ y)) = (ofText (x ++ y)).mapError
      (.renumber (numberBehind (x.count lineFeed) (z.count lineFeed))) := by
  have hlines : Line.ofBytes (z ++ y) = Line.ofBytes z ++ Line.ofBytes y := by
    rcases hz with hz | rfl
    · exact Line.ofBytes_append hz y
    · rw [List.append_nil]
      exact (List.append_nil _).symm
  have hadded : Line.ofBytes y ≠ [] → z.count lineFeed = (Line.ofBytes z).length := by
    intro hy
    rcases hz with hz | rfl
    · exact (Line.length_ofBytes hz).symm
    · exact absurd rfl hy
  rw [ofText_eq, ofText_eq, Line.ofBytes_append hx, Line.ofBytes_append hx, hlines,
    firstFault?_insert hidle hadded, eventsOf_append_of_idle hidle, Line.length_ofBytes hx]
  cases firstFault? 1 (Line.ofBytes x ++ Line.ofBytes y) <;> rfl

end bytes

/-- A text is read part by part. A first part that cannot be read decides. One without events, or
one with events where no heading follows, is only seen in the numbers of the lines that follow, and
so are blank lines and comments anywhere. The error is that of the first line that cannot be read,
be it a comment that is no text. -/
theorem text_read_in_parts :
    (∀ x y : Bytes, Terminated x →
      (∀ err, ofText x = .error err → ofText (x ++ y) = .error err) ∧
      ((∀ l ∈ Line.ofBytes x, isIdleLine l) →
        ofText (x ++ y) = (ofText y).mapError (.renumber (· + x.count lineFeed))) ∧
      (∀ events, ofText x = .ok events → (∃ l ∈ Line.ofBytes x, ¬ isIdleLine l) →
        ¬ isHeaded (Line.ofBytes y) →
        ofText (x ++ y) =
          ((ofText y).map (events ++ ·)).mapError (.renumber (· + x.count lineFeed))) ∧
      ∀ z, (∀ l ∈ Line.ofBytes z, isIdleLine l) → Terminated z ∨ y = [] →
        ofText (x ++ (z ++ y)) = (ofText (x ++ y)).mapError
          (.renumber (numberBehind (x.count lineFeed) (z.count lineFeed)))) ∧
    ∀ content err,
      ofText content = .error err ↔ firstFault? 1 (Line.ofBytes content) = some err := by
  refine ⟨fun x y hx => ⟨?_, ofText_append_of_idle hx, ?_, ?_⟩, fun content err =>
    ofText_eq_error_iff⟩
  · exact fun err => ofText_append_of_error hx
  · exact fun events => ofText_append_of_ok hx
  · exact fun z hidle hz => ofText_insert hx hidle hz

/-- A comment and an event before a text with a bad line, and a blank line between the two. -/
theorem text_read_in_parts_of_comment :
    let x := encode "# log\nA,B\n"
    let y := encode "\nB->C\nx\n"
    let z := encode "  \n"
    Terminated x ∧ Terminated z ∧ ofText x = .ok [⟨"A", "B"⟩] ∧
      (∃ l ∈ Line.ofBytes x, ¬ isIdleLine l) ∧ ¬ isHeaded (Line.ofBytes y) ∧
      (∀ l ∈ Line.ofBytes z, isIdleLine l) ∧
      ofText (x ++ y) = .error (.malformedEvent 5 "x") ∧
      ofText (z ++ y) = .error (.malformedEvent 4 "x") ∧
      ofText (x ++ (z ++ y)) = .error (.malformedEvent 6 "x") ∧
      ofText (y ++ x) = .error (.malformedEvent 3 "x") ∧
      ofText ([35, 255, 10] ++ y) = .error (.file .notText) := by
  intro x y z
  have hx : Terminated x := by decide +kernel
  have hy : Terminated y := by decide +kernel
  have hz : Terminated z := by decide +kernel
  have hevents : ofText x = .ok [⟨"A", "B"⟩] := rfl
  have hbad : ofText y = .error (.malformedEvent 3 "x") := rfl
  have hbusy : ∃ l ∈ Line.ofBytes x, ¬ isIdleLine l := by decide +kernel
  have hheaded : ¬ isHeaded (Line.ofBytes y) := by decide +kernel
  have hidle : ∀ l ∈ Line.ofBytes z, isIdleLine l := by decide +kernel
  obtain ⟨hparts, hfirst⟩ := text_read_in_parts
  obtain ⟨-, -, hbehind, hinsert⟩ := hparts x y hx
  have hxy : ofText (x ++ y) = .error (.malformedEvent 5 "x") := by
    rw [hbehind _ hevents hbusy hheaded, hbad]
    rfl
  refine ⟨hx, hz, hevents, hbusy, hheaded, hidle, hxy, ?_, ?_, (hparts y x hy).1 _ hbad, ?_⟩
  · rw [(hparts z y hz).2.1 hidle, hbad]
    rfl
  · rw [hinsert z hidle (Or.inl hz), hxy]
    rfl
  · exact (hfirst _ _).mpr rfl

end Event

end Linkage
