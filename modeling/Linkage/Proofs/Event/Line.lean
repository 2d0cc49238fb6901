import Linkage.Event.Filter
import Linkage.Event.Line
import Linkage.Proofs.Text.Lines
import Linkage.Proofs.Text.Split

/-!
# Events that lines can carry

The reader of lines finds names of one form only, and it finds every event whose names have that
form: in the line with an arrow and, where no comma stands in the caller, in the line with a comma.
-/

namespace Linkage.Event
open Linkage.Text

/-- The names have the form in which a line with an arrow carries them. -/
structure Writable (e : Event) : Prop where
  caller_ne : e.caller ≠ ""
  callee_ne : e.callee ≠ ""
  caller_trim : trim e.caller = e.caller
  callee_trim : trim e.callee = e.callee
  caller_feed : '\n' ∉ e.caller.toList
  callee_feed : '\n' ∉ e.callee.toList
  caller_mark : e.caller.toList.head? ≠ some '#'
  caller_arrow : ¬ arrow <:+: e.caller.toList
  callee_comma : ',' ∉ e.callee.toList
  callee_arrow : ¬ arrow <:+: e.callee.toList

variable {line left right : List Char} {e : Event}

theorem trim_eq_iff {s : String} : trim s = s ↔ stripEnds isBlank s.toList = s.toList := by
  rw [trim, ← String.toList_inj, String.toList_ofList]

theorem toList_ne_nil {s : String} : s.toList ≠ [] ↔ s ≠ "" := by
  rw [ne_eq, ne_eq, ← String.toList_inj]
  rfl

theorem holds_comma {xs : List Char} : holds comma xs ↔ ',' ∈ xs :=
  holds_iff_infix.trans (List.singleton_infix_iff ..)

theorem sides?_eq_some (h : sides? line = some (left, right)) :
    ¬ arrow <:+: left ∧ left <+: line ∧ right <:+ line := by
  rcases Option.or_eq_some_iff.mp h with hsplit | ⟨hnone, hsplit⟩
  · obtain ⟨rfl, hfirst⟩ := splitFirst_eq_some (by decide) hsplit
    refine ⟨hfirst, ?_, List.suffix_append ..⟩
    rw [List.append_assoc]
    exact List.prefix_append ..
  · obtain ⟨rfl, -⟩ := splitFirst_eq_some (by decide) hsplit
    have hleft : left <+: left ++ comma ++ right := by
      rw [List.append_assoc]
      exact List.prefix_append ..
    refine ⟨fun harrow => ?_, hleft, List.suffix_append ..⟩
    have hholds := holds_iff_infix.mpr (harrow.trans hleft.isInfix)
    rw [holds, hnone] at hholds
    cases hholds

/-- The event of a line without blanks at its ends that is no comment. -/
theorem writable_of_ofLine? (htrim : stripEnds isBlank line = line) (hfeed : '\n' ∉ line)
    (hidle : isIdle line = false) (h : ofLine? line = some e) : e.Writable := by
  obtain ⟨⟨left, right⟩, hsides, h⟩ := Option.bind_eq_some_iff.mp h
  obtain ⟨harrow, hleft, hright⟩ := sides?_eq_some hsides
  simp only [Option.ite_none_left_eq_some, not_or, Option.some.injEq] at h
  obtain ⟨⟨hcaller, hcallee, hcomma, harrow'⟩, rfl⟩ := h
  have hcallerWithin := infix_stripEnds isBlank left
  have hcalleeWithin := infix_stripEnds isBlank right
  -- The caller begins where the line does, as neither begins with a blank.
  have hhead : (stripEnds isBlank left).head? = line.head? := by
    obtain ⟨rest, rfl⟩ := hleft
    cases left with
    | nil => exact absurd rfl hcaller
    | cons c left => exact head?_stripEnds (stripEnds_eq_self_iff.mp htrim).1
  constructor
  · rwa [← toList_ne_nil, String.toList_ofList]
  · rwa [← toList_ne_nil, String.toList_ofList]
  · rw [trim_eq_iff, String.toList_ofList, stripEnds_stripEnds]
  · rw [trim_eq_iff, String.toList_ofList, stripEnds_stripEnds]
  · rw [String.toList_ofList]
    exact fun hmem => hfeed (hleft.subset (hcallerWithin.subset hmem))
  · rw [String.toList_ofList]
    exact fun hmem => hfeed (hright.subset (hcalleeWithin.subset hmem))
  · rw [String.toList_ofList, hhead]
    intro hmark
    simp [isIdle, hmark] at hidle
  · rw [String.toList_ofList]
    exact fun hmem => harrow (hmem.trans hcallerWithin)
  · rwa [String.toList_ofList, ← holds_comma]
  · rwa [String.toList_ofList, ← holds_iff_infix]

theorem ofLine?_of_sides (he : e.Writable) (hsides : sides? line = some (left, right))
    (hleft : stripEnds isBlank left = e.caller.toList)
    (hright : stripEnds isBlank right = e.callee.toList) : ofLine? line = some e := by
  have hcaller := toList_ne_nil.mpr he.caller_ne
  have hcallee := toList_ne_nil.mpr he.callee_ne
  have hcomma := mt holds_comma.mp he.callee_comma
  have harrow := mt holds_iff_infix.mp he.callee_arrow
  simp [ofLine?, hsides, hleft, hright, hcaller, hcallee, hcomma, harrow]

/-- A line without its line feed, from which an event is read. -/
structure Carries (line : String) (e : Event) : Prop where
  trimmed : stripEnds isBlank line.toList = line.toList
  feed : '\n' ∉ line.toList
  busy : isIdle line.toList = false
  event : ofLine? line.toList = some e

/-- Any line of the caller, something without a line feed and the callee. -/
theorem carries_of_sides (he : e.Writable) (sep : String) (hsep : '\n' ∉ sep.toList)
    (hsides : sides? (e.caller.toList ++ sep.toList ++ e.callee.toList) = some (left, right))
    (hleft : stripEnds isBlank left = e.caller.toList)
    (hright : stripEnds isBlank right = e.callee.toList) :
    Carries (e.caller ++ sep ++ e.callee) e := by
  have hcaller := toList_ne_nil.mpr he.caller_ne
  have hcallee := toList_ne_nil.mpr he.callee_ne
  have hhead :
      (e.caller.toList ++ sep.toList ++ e.callee.toList).head? = e.caller.toList.head? := by
    rw [List.append_assoc, List.head?_append_of_ne_nil _ hcaller]
  have hlast : (e.caller.toList ++ sep.toList ++ e.callee.toList).getLast? =
      e.callee.toList.getLast? := List.getLast?_append_of_ne_nil _ hcallee
  constructor
  · rw [String.toList_append, String.toList_append, stripEnds_eq_self_iff, hhead, hlast]
    exact ⟨(stripEnds_eq_self_iff.mp (trim_eq_iff.mp he.caller_trim)).1,
      (stripEnds_eq_self_iff.mp (trim_eq_iff.mp he.callee_trim)).2⟩
  · simp [hsep, he.caller_feed, he.callee_feed]
  · rw [String.toList_append, String.toList_append, isIdle, hhead]
    simp [hcaller, he.caller_mark]
  · rw [String.toList_append, String.toList_append]
    exact ofLine?_of_sides he hsides hleft hright

theorem carries_arrow (he : e.Writable) : Carries (e.caller ++ " -> " ++ e.callee) e := by
  have hblank : ∀ c ∈ [' '], isBlank c := List.forall_mem_singleton.mpr (by decide)
  have hleft : stripEnds isBlank ([] ++ e.caller.toList ++ [' ']) = e.caller.toList :=
    stripEnds_append nofun hblank (trim_eq_iff.mp he.caller_trim)
  have hright : stripEnds isBlank ([' '] ++ e.callee.toList ++ []) = e.callee.toList :=
    stripEnds_append hblank nofun (trim_eq_iff.mp he.callee_trim)
  have hfirst : ¬ arrow <:+: e.caller.toList ++ [' '] ++ arrow.dropLast := by
    rw [List.append_assoc]
    exact not_infix_append_cons (by decide) he.caller_arrow (by decide)
  have hline : e.caller.toList ++ " -> ".toList ++ e.callee.toList =
      e.caller.toList ++ [' '] ++ arrow ++ ([' '] ++ e.callee.toList) := by simp [arrow]
  refine carries_of_sides he " -> " (by decide) ?_ hleft hright
  rw [hline, sides?, splitFirst_append (by decide) hfirst, Option.some_or, List.append_nil,
    List.nil_append]

theorem carries_comma (he : e.Writable) (hcomma : ',' ∉ e.caller.toList) :
    Carries (e.caller ++ "," ++ e.callee) e := by
  have harrow : ¬ arrow <:+: e.caller.toList ++ ',' :: e.callee.toList :=
    not_infix_append_cons (by decide) he.caller_arrow he.callee_arrow
  have hfirst : ¬ comma <:+: e.caller.toList ++ comma.dropLast := by
    rw [comma, List.dropLast_singleton, List.append_nil, List.singleton_infix_iff]
    exact hcomma
  have hline : e.caller.toList ++ ",".toList ++ e.callee.toList =
      e.caller.toList ++ comma ++ e.callee.toList := rfl
  refine carries_of_sides he "," (by decide) ?_ (trim_eq_iff.mp he.caller_trim)
    (trim_eq_iff.mp he.callee_trim)
  rw [hline, sides?, splitFirst_append (by decide) hfirst, comma, List.append_assoc,
    List.singleton_append, splitFirst_eq_none harrow, Option.none_or]

theorem not_isHeading_arrow (e : Event) :
    isHeading (e.caller ++ " -> " ++ e.callee).toList = false := by
  rw [isHeading, beq_eq_false_iff_ne]
  intro heq
  have hdash : '-' ∈ "caller,callee".toList := by
    rw [← heq]
    exact List.mem_map.mpr ⟨'-', by simp, by decide⟩
  revert hdash
  decide

/-! ### All lines -/

namespace Progress

variable {p p' : Progress} {l : Line} {s : String}

/-- Reading a line keeps the events before, and adds none but those that a line can carry. -/
theorem readLine_writable (hl : ∀ s, l.text? = some s → '\n' ∉ s.toList)
    (h : p.readLine l = .ok p') (hp : ∀ e ∈ p.events, e.Writable) :
    ∀ e ∈ p'.events, e.Writable := by
  rw [readLine] at h
  split at h
  · cases h
  · rename_i text htext
    have hfeed : '\n' ∉ stripEnds isBlank text.toList := fun hmem =>
      hl text htext ((infix_stripEnds isBlank _).subset hmem)
    dsimp only at h
    split at h
    · cases h
      exact hp
    · split at h
      · cases h
        exact hp
      · split at h
        · rename_i hidle _ _ event hevent
          cases h
          refine List.forall_mem_cons.mpr ⟨?_, hp⟩
          exact writable_of_ofLine? stripEnds_stripEnds hfeed (Bool.eq_false_iff.mpr hidle) hevent
        · cases h

theorem readLines_cons (p : Progress) (l : Line) (lines : List Line) :
    p.readLines (l :: lines) = (p.readLine l).bind fun p => p.readLines lines := rfl

theorem readLines_writable {lines : List Line}
    (hlines : ∀ l ∈ lines, ∀ s, l.text? = some s → '\n' ∉ s.toList)
    (h : p.readLines lines = .ok p') (hp : ∀ e ∈ p.events, e.Writable) :
    ∀ e ∈ p'.events, e.Writable := by
  induction lines generalizing p with
  | nil =>
    cases h
    exact hp
  | cons l lines ih =>
    obtain ⟨hl, hlines⟩ := List.forall_mem_cons.mp hlines
    rw [readLines_cons] at h
    cases hread : p.readLine l with
    | error err => rw [hread] at h; cases h
    | ok next =>
      rw [hread] at h
      exact ih hlines h (readLine_writable hl hread hp)

theorem readLine_of_carries (hs : Carries s e) (hhead : p.started ∨ isHeading s.toList = false)
    (ended : Bool) :
    p.readLine ⟨encode s, ended⟩ = .ok ⟨p.lines + 1, true, e :: p.events⟩ := by
  have hreturn : '\r' ∉ s.toList.getLast? := fun hmem =>
    (stripEnds_eq_self_iff.mp hs.trimmed).2 '\r' hmem (by decide)
  have hheading : (!p.started && isHeading s.toList) = false := by
    rcases hhead with h | h <;> simp [h]
  simp [readLine, Line.text?_encode hreturn, hs.trimmed, hs.busy, hs.event, hheading]

/-- Lines that carry events are read one after the other. -/
theorem readLines_of_carries {text : Event → String} {events : List Event}
    (hevents : ∀ e ∈ events, Carries (text e) e)
    (hhead : p.started ∨ ∀ e ∈ events.head?, isHeading (text e).toList = false) :
    (p.readLines (events.map fun e => ⟨encode (text e), true⟩)).map (·.events) =
      .ok (events.reverse ++ p.events) := by
  induction events generalizing p with
  | nil => rfl
  | cons e events ih =>
    obtain ⟨he, hevents⟩ := List.forall_mem_cons.mp hevents
    have hfirst : p.started ∨ isHeading (text e).toList = false :=
      hhead.imp_right fun h => h e rfl
    rw [List.map_cons, readLines_cons, readLine_of_carries he hfirst true, Except.bind,
      ih hevents (Or.inl rfl), List.reverse_cons, List.append_assoc, List.singleton_append]

end Progress

theorem ofBytes_toText_append {text : Event → String} {events : List Event}
    (hevents : ∀ e ∈ events, Carries (text e) e) (rest : Bytes) :
    Line.ofBytes (toText (fun e => text e ++ "\n") events ++ rest) =
      events.map (fun e => ⟨encode (text e), true⟩) ++ Line.ofBytes rest := by
  induction events with
  | nil => rfl
  | cons e events ih =>
    obtain ⟨he, hevents⟩ := List.forall_mem_cons.mp hevents
    have hfeed : lineFeed ∉ encode (text e) := mt lineFeed_mem_encode.mp he.feed
    rw [toText, List.flatMap_cons, encode_append, List.append_assoc, List.append_assoc,
      List.map_cons, List.cons_append, ← ih hevents]
    exact Line.ofBytes_append_lineFeed hfeed _

theorem ofBytes_toText {text : Event → String} {events : List Event}
    (hevents : ∀ e ∈ events, Carries (text e) e) :
    Line.ofBytes (toText (fun e => text e ++ "\n") events) =
      events.map fun e => ⟨encode (text e), true⟩ := by
  simpa [Line.ofBytes] using ofBytes_toText_append hevents []

/-- Events written in lines that carry them are read back. -/
theorem ofText_toText {text : Event → String} {events : List Event}
    (hevents : ∀ e ∈ events, Carries (text e) e)
    (hhead : ∀ e ∈ events.head?, isHeading (text e).toList = false) :
    ofText (toText (fun e => text e ++ "\n") events) = .ok events := by
  have hread := Progress.readLines_of_carries (p := .start) hevents (Or.inr hhead)
  rw [ofText, ofBytes_toText hevents]
  cases hlines : Progress.start.readLines (events.map fun e => ⟨encode (text e), true⟩) with
  | error err => rw [hlines] at hread; cases hread
  | ok p =>
    rw [hlines] at hread
    have hp : p.events = events.reverse ++ [] := Except.ok.inj hread
    rw [Except.map, hp, List.append_nil, List.reverse_reverse]

theorem writable_of_ofText {content : Bytes} {events : List Event}
    (h : ofText content = .ok events) : ∀ e ∈ events, e.Writable := by
  rw [ofText] at h
  cases hlines : Progress.start.readLines (Line.ofBytes content) with
  | error err => rw [hlines] at h; cases h
  | ok p =>
    rw [hlines] at h
    obtain rfl : p.events.reverse = events := Except.ok.inj h
    have hp := Progress.readLines_writable (fun l hl s hs => Line.text?_lineFeed hl hs) hlines nofun
    exact fun e he => hp e (List.mem_reverse.mp he)

theorem not_isAllBlank {s : String} (hne : s ≠ "") (htrim : trim s = s) :
    isAllBlank s = false := by
  cases hs : s.toList with
  | nil => exact absurd hs (toList_ne_nil.mpr hne)
  | cons c cs =>
    have hc := (stripEnds_eq_self_iff.mp (trim_eq_iff.mp htrim)).1 c (by rw [hs]; rfl)
    simp [isAllBlank, hs, hc]

theorem blank_eq_zero (f : Filter) {events : List Event} (hevents : ∀ e ∈ events, e.Writable) :
    (f.apply events).2.blank = 0 := by
  refine List.count_eq_zero.mpr fun hmem => ?_
  obtain ⟨e, he, hverdict⟩ := List.mem_map.mp hmem
  have hcaller := not_isAllBlank (hevents e he).caller_ne (hevents e he).caller_trim
  have hcallee := not_isAllBlank (hevents e he).callee_ne (hevents e he).callee_trim
  rw [Filter.verdict, hcaller, hcallee] at hverdict
  grind

/-- The events that lines can carry are those that the reader of lines finds, and it finds them
again in the lines of their own. -/
theorem events_read_back :
    (∀ content events, ofText content = .ok events →
      (∀ e ∈ events, e.Writable) ∧ ∀ f : Filter, (f.apply events).2.blank = 0) ∧
    (∀ events : List Event, (∀ e ∈ events, e.Writable) →
      ofText (toText arrowLine events) = .ok events ∧
      ((∀ e ∈ events, ',' ∉ e.caller.toList) →
        (∀ e ∈ events.head?, isHeading (e.caller ++ "," ++ e.callee).toList = false) →
        ofText (toText commaLine events) = .ok events)) := by
  constructor
  · intro content events h
    have hevents := writable_of_ofText h
    exact ⟨hevents, fun f => blank_eq_zero f hevents⟩
  · intro events hevents
    constructor
    · exact ofText_toText (fun e he => carries_arrow (hevents e he)) fun e _ =>
        not_isHeading_arrow e
    · intro hcomma hhead
      exact ofText_toText (fun e he => carries_comma (hevents e he) (hcomma e he)) hhead

/-- Half an arrow at the end of a name does no harm, nor does a heading after the first line. -/
theorem events_read_back_of_half_arrows :
    let events : List Event := [⟨"a-", ">b"⟩, ⟨"caller", "callee"⟩]
    ofText (toText arrowLine events) = .ok events ∧
      ofText (toText commaLine events) = .ok events := by
  intro events
  have hevents : ∀ e ∈ events, e.Writable := by
    refine List.forall_mem_cons.mpr ⟨?_, List.forall_mem_cons.mpr ⟨?_, nofun⟩⟩ <;>
      constructor <;> decide
  obtain ⟨harrow, hcomma⟩ := events_read_back.2 events hevents
  exact ⟨harrow, hcomma (by decide) (by decide)⟩

end Linkage.Event
