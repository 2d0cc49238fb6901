import Linkage.Proofs.Files.Path
import Linkage.Proofs.Report.Escape

/-!
# Reading markup

A reader of texts with tags. Every raw `<` begins a tag and the next `>` ends it; what stands
between tags is text, whose entities are replaced. An element with other elements inside keeps no
text, since what stands between these is layout.
-/

namespace Linkage.Report

structure Tag where
  name : String
  attributes : List (String × String)
deriving DecidableEq, Repr

structure Element where
  tag : Tag
  text : String
  children : List Element

/-- The attributes by what stands between quotes: names before the values, which are every second
part. -/
def readAttributes : List (List Char) → List (String × String)
  | key :: value :: rest =>
    (String.ofList (key.filter fun c => c ≠ ' ' ∧ c ≠ '='), String.ofList (unescape value)) ::
      readAttributes rest
  | _ => []

def readTag (cs : List Char) : Tag where
  name := String.ofList (cs.takeWhile (· ≠ ' '))
  attributes := readAttributes (Text.splitAll '"' (cs.dropWhile (· ≠ ' ')))

/-- An element whose end is not read yet, with what is read of its inside. -/
structure OpenElement where
  tag : Tag
  children : List Element

def OpenElement.add (f : OpenElement) (es : List Element) : OpenElement :=
  { f with children := f.children ++ es }

structure ReaderState where
  /-- The innermost of the open elements; at the top level it stands for the whole text. -/
  top : OpenElement
  below : List OpenElement
  /-- The characters since the last tag. -/
  text : List Char
  /-- The characters of the tag that is being read, if any. -/
  tag : Option (List Char)

namespace ReaderState

def start : ReaderState := ⟨⟨⟨"", []⟩, []⟩, [], [], none⟩

/-- The innermost element ends, if it has this name. -/
def close (s : ReaderState) (name : List Char) : Option ReaderState :=
  match s.below with
  | [] => none
  | outer :: below =>
    if s.top.tag.name = String.ofList name then
      let text := if s.top.children.isEmpty then String.ofList (unescape s.text) else ""
      some ⟨outer.add [⟨s.top.tag, text, s.top.children⟩], below, [], none⟩
    else none

/-- What the characters of a whole tag do: a declaration nothing, an end tag closes an element, and
any other opens one, which is closed at once if the tag ends in a slash. -/
def endTag (s : ReaderState) (cs : List Char) : Option ReaderState :=
  match cs with
  | '?' :: _ => some ⟨s.top, s.below, [], none⟩
  | '/' :: name => s.close name
  | _ =>
    if cs.getLast? = some '/' then
      some ⟨s.top.add [⟨readTag cs.dropLast, "", []⟩], s.below, [], none⟩
    else some ⟨⟨readTag cs, []⟩, s.top :: s.below, [], none⟩

def step (s : ReaderState) (c : Char) : Option ReaderState :=
  match s.tag with
  | none => some (if c = '<' then { s with tag := some [] } else { s with text := s.text ++ [c] })
  | some cs =>
    if c = '<' then none
    else if c = '>' then s.endTag cs
    else some { s with tag := some (cs ++ [c]) }

end ReaderState

def readMarkup (text : String) : Option (List Element) := do
  let s ← text.toList.foldlM ReaderState.step .start
  if s.below.isEmpty && s.tag.isNone then some s.top.children else none

section steps

variable {top : OpenElement} {below : List OpenElement} {text cs : List Char} {s : ReaderState}

theorem read_text (h : '<' ∉ cs) : cs.foldlM ReaderState.step ⟨top, below, text, none⟩ =
    some ⟨top, below, text ++ cs, none⟩ := by
  induction cs generalizing text with
  | nil => rw [List.append_nil]; rfl
  | cons c cs ih =>
    rw [List.mem_cons, not_or] at h
    rw [List.foldlM_cons, ReaderState.step]
    dsimp only
    rw [if_neg (Ne.symm h.1), Option.bind_eq_bind, Option.bind_some, ih h.2, List.append_assoc,
      List.singleton_append]

theorem read_inside (h : '<' ∉ cs ∧ '>' ∉ cs) (done : List Char) :
    cs.foldlM ReaderState.step ⟨top, below, text, some done⟩ =
      some ⟨top, below, text, some (done ++ cs)⟩ := by
  induction cs generalizing done with
  | nil => rw [List.append_nil]; rfl
  | cons c cs ih =>
    simp only [List.mem_cons, not_or] at h
    rw [List.foldlM_cons, ReaderState.step]
    dsimp only
    rw [if_neg (Ne.symm h.1.1), if_neg (Ne.symm h.2.1), Option.bind_eq_bind, Option.bind_some,
      ih ⟨h.1.2, h.2.2⟩, List.append_assoc, List.singleton_append]

theorem read_tag (h : '<' ∉ cs ∧ '>' ∉ cs) :
    ('<' :: (cs ++ ['>'])).foldlM ReaderState.step ⟨top, below, text, none⟩ =
      ReaderState.endTag ⟨top, below, text, some cs⟩ cs := by
  show (cs ++ ['>']).foldlM ReaderState.step ⟨top, below, text, some []⟩ = _
  rw [List.foldlM_append, read_inside h, Option.bind_eq_bind, Option.bind_some, List.nil_append]
  exact bind_pure (ReaderState.endTag ⟨top, below, text, some cs⟩ cs)

end steps

/-! ### Tags as they are written -/

def Tag.chars (t : Tag) : List Char :=
  t.name.toList ++ t.attributes.flatMap fun (key, value) =>
    ' ' :: (key.toList ++ '=' :: '"' :: (value.toList ++ ['"']))

def Tag.opening (t : Tag) : List Char := '<' :: (t.chars ++ ['>'])

def Tag.closing (t : Tag) : List Char := '<' :: ('/' :: t.name.toList ++ ['>'])

/-- A tag that opens an element and closes it. -/
def Tag.single (t : Tag) : List Char := '<' :: (t.chars ++ ['/'] ++ ['>'])

/-- A plain text, not empty, without a character that means something in a tag. -/
def Word (cs : List Char) : Prop := cs ≠ [] ∧ Plain cs ∧ ∀ c ∈ cs, c ∉ [' ', '=', '/', '?']

instance (cs : List Char) : Decidable (Word cs) :=
  have := List.decidableBAll (· ∉ [' ', '=', '/', '?']) cs
  inferInstanceAs (Decidable (cs ≠ [] ∧ Plain cs ∧ ∀ c ∈ cs, c ∉ [' ', '=', '/', '?']))

theorem Word.plain {cs : List Char} (h : Word cs) : Plain cs := h.2.1

theorem Word.not_mem {cs : List Char} (h : Word cs) {c : Char} (hc : c ∈ [' ', '=', '/', '?']) :
    c ∉ cs := fun hmem => h.2.2 c hmem hc

/-- A word with attributes, whose values may be any plain texts. -/
structure Tag.WellFormed (t : Tag) : Prop where
  name : Word t.name.toList
  attributes : ∀ a ∈ t.attributes, Word a.1.toList ∧ Plain a.2.toList

theorem splitAll_attribute {key value : List Char} (hkey : Word key) (hvalue : Plain value)
    (rest : List Char) :
    Text.splitAll '"' (' ' :: (key ++ '=' :: '"' :: (value ++ '"' :: rest))) =
      (' ' :: (key ++ ['='])) :: value :: Text.splitAll '"' rest := by
  have hnot : '"' ∉ ' ' :: (key ++ ['=']) := by
    simp [hkey.plain.not_mem.2.2]
  rw [show ' ' :: (key ++ '=' :: '"' :: (value ++ '"' :: rest)) =
      (' ' :: (key ++ ['='])) ++ '"' :: (value ++ '"' :: rest) by simp,
    Text.splitAll_append_sep, Text.splitAll_of_not_mem hnot, Text.splitAll_append_sep,
    Text.splitAll_of_not_mem hvalue.not_mem.2.2]
  rfl

theorem filter_key {key : List Char} (hkey : Word key) :
    (' ' :: (key ++ ['='])).filter (fun c => c ≠ ' ' ∧ c ≠ '=') = key := by
  have hself : key.filter (fun c => c ≠ ' ' ∧ c ≠ '=') = key := by
    refine List.filter_eq_self.mpr fun c hc => decide_eq_true ⟨?_, ?_⟩
    · rintro rfl
      exact hkey.not_mem (by decide) hc
    · rintro rfl
      exact hkey.not_mem (by decide) hc
  rw [List.filter_cons_of_neg (by decide), List.filter_append, hself]
  exact List.append_nil key

theorem readAttributes_chars {attributes : List (String × String)}
    (h : ∀ a ∈ attributes, Word a.1.toList ∧ Plain a.2.toList) :
    readAttributes (Text.splitAll '"' (attributes.flatMap fun (key, value) =>
      ' ' :: (key.toList ++ '=' :: '"' :: (value.toList ++ ['"'])))) = attributes := by
  induction attributes with
  | nil => rfl
  | cons a attributes ih =>
    obtain ⟨⟨hkey, hvalue⟩, h⟩ := List.forall_mem_cons.mp h
    rw [List.flatMap_cons]
    simp only [List.cons_append, List.append_assoc, List.nil_append]
    rw [splitAll_attribute hkey hvalue, readAttributes, ih h, filter_key hkey, hvalue.unescape_eq,
      String.ofList_toList, String.ofList_toList]

namespace Tag.WellFormed

variable {t : Tag} (h : t.WellFormed)
include h

theorem readTag_chars : readTag t.chars = t := by
  have hname : ∀ c ∈ t.name.toList, decide (c ≠ ' ') = true := fun c hc =>
    decide_eq_true fun heq => h.name.not_mem (by decide) (heq ▸ hc)
  have hends : (t.chars.takeWhile (· ≠ ' '), t.chars.dropWhile (· ≠ ' ')) =
      (t.name.toList, t.attributes.flatMap fun (key, value) =>
        ' ' :: (key.toList ++ '=' :: '"' :: (value.toList ++ ['"']))) := by
    rw [chars, List.takeWhile_append_of_pos hname, List.dropWhile_append_of_pos hname]
    cases t.attributes <;> exact congrArg (·, _) (List.append_nil _)
  obtain ⟨htake, hdrop⟩ := Prod.mk.inj hends
  rw [readTag, htake, hdrop, readAttributes_chars h.attributes, String.ofList_toList]

theorem not_mem_chars {c : Char} (hc : c = '<' ∨ c = '>') : c ∉ t.chars := by
  have hspecial : Special c := by rcases hc with rfl | rfl <;> decide
  simp only [chars, List.mem_append, List.mem_flatMap, List.mem_cons, not_or, not_exists, not_and]
  refine ⟨fun hmem => h.name.plain c hmem hspecial, fun a ha => ?_⟩
  obtain ⟨hkey, hvalue⟩ := h.attributes a ha
  refine ⟨?_, fun hmem => hkey.plain c hmem hspecial, ?_, ?_, fun hmem => hvalue c hmem hspecial,
    ?_⟩
  all_goals rcases hc with rfl | rfl <;> decide

theorem chars_eq_cons : ∃ c rest, t.chars = c :: rest ∧ c ≠ '?' ∧ c ≠ '/' := by
  obtain ⟨c, rest, hname⟩ := List.exists_cons_of_ne_nil h.name.1
  have hc : c ∈ t.name.toList := hname ▸ List.mem_cons_self
  refine ⟨c, rest ++ _, congrArg (· ++ _) hname, ?_, ?_⟩
  · rintro rfl
    exact h.name.not_mem (by decide) hc
  · rintro rfl
    exact h.name.not_mem (by decide) hc

theorem getLast?_chars : t.chars.getLast? ≠ some '/' := by
  rw [chars]
  rcases List.eq_nil_or_concat t.attributes with hnil | ⟨attributes, a, hconcat⟩
  · rw [hnil, List.flatMap_nil, List.append_nil]
    exact fun hlast => h.name.not_mem (by decide) (List.mem_of_getLast? hlast)
  · rw [hconcat]
    simp [List.getLast?_append, List.getLast?_cons]

end Tag.WellFormed

section tags

variable {t : Tag} {top : OpenElement} {below : List OpenElement} {text : List Char}

theorem read_opening (h : t.WellFormed) :
    t.opening.foldlM ReaderState.step ⟨top, below, text, none⟩ =
      some ⟨⟨t, []⟩, top :: below, [], none⟩ := by
  obtain ⟨c, rest, hchars, hdeclares, hcloses⟩ := h.chars_eq_cons
  have hlast := h.getLast?_chars
  have hread := h.readTag_chars
  rw [Tag.opening, read_tag ⟨h.not_mem_chars (.inl rfl), h.not_mem_chars (.inr rfl)⟩]
  -- neither a declaration nor an end tag begins like a name
  rw [hchars] at hlast hread ⊢
  rw [ReaderState.endTag.eq_3 _ _ (fun _ heq => hdeclares (List.cons.inj heq).1)
    (fun _ heq => hcloses (List.cons.inj heq).1), if_neg hlast, hread]

theorem read_single (h : t.WellFormed) :
    t.single.foldlM ReaderState.step ⟨top, below, text, none⟩ =
      some ⟨top.add [⟨t, "", []⟩], below, [], none⟩ := by
  obtain ⟨c, rest, hchars, hdeclares, hcloses⟩ := h.chars_eq_cons
  have hread := h.readTag_chars
  have hnot {c : Char} (hc : c = '<' ∨ c = '>') : c ∉ t.chars ++ ['/'] := by
    rw [List.mem_append, not_or]
    exact ⟨h.not_mem_chars hc, by rcases hc with rfl | rfl <;> decide⟩
  rw [Tag.single, read_tag ⟨hnot (.inl rfl), hnot (.inr rfl)⟩]
  rw [hchars] at hread ⊢
  rw [List.cons_append, ReaderState.endTag.eq_3 _ _ (fun _ heq => hdeclares (List.cons.inj heq).1)
    (fun _ heq => hcloses (List.cons.inj heq).1), ← List.cons_append,
    if_pos List.getLast?_concat, List.dropLast_concat, hread]

/-- The end of an element, which keeps its text if there are no others inside. -/
theorem read_closing (h : t.WellFormed) {es : List Element} :
    t.closing.foldlM ReaderState.step ⟨⟨t, es⟩, top :: below, text, none⟩ =
      some ⟨top.add [⟨t, if es.isEmpty then String.ofList (unescape text) else "", es⟩], below, [],
        none⟩ := by
  have hnot {c : Char} (hc : c = '<' ∨ c = '>') : c ∉ '/' :: t.name.toList := by
    rw [List.mem_cons, not_or]
    exact ⟨by rcases hc with rfl | rfl <;> decide,
      fun hmem => h.not_mem_chars hc (List.mem_append_left _ hmem)⟩
  rw [Tag.closing, read_tag ⟨hnot (.inl rfl), hnot (.inr rfl)⟩]
  exact if_pos String.ofList_toList.symm

end tags

/-- Reading `cs` adds these elements to the innermost open one, whatever is open. What it leaves of
the text since the last tag depends only on this text. -/
def AddsWith (final : List Char → List Char) (cs : List Char) (es : List Element) : Prop :=
  ∀ (top : OpenElement) (below : List OpenElement) (text : List Char),
    cs.foldlM ReaderState.step ⟨top, below, text, none⟩ =
      some ⟨top.add es, below, final text, none⟩

def Adds (cs : List Char) (es : List Element) : Prop := ∃ final, AddsWith final cs es

section adds

variable {cs ds inside : List Char} {es fs : List Element} {t : Tag}

theorem OpenElement.add_nil (f : OpenElement) : f.add [] = f := by
  rw [add, List.append_nil]

theorem OpenElement.add_add (f : OpenElement) (es fs : List Element) :
    (f.add es).add fs = f.add (es ++ fs) := by
  simp only [add, List.append_assoc]

theorem addsWith_text (h : '<' ∉ cs) : AddsWith (· ++ cs) cs [] := by
  intro top below text
  rw [read_text h, OpenElement.add_nil]

theorem adds_text (h : '<' ∉ cs) : Adds cs [] := ⟨_, addsWith_text h⟩

theorem Adds.append (h : Adds cs es) (h' : Adds ds fs) : Adds (cs ++ ds) (es ++ fs) := by
  obtain ⟨final, h⟩ := h
  obtain ⟨final', h'⟩ := h'
  refine ⟨final' ∘ final, fun top below text => ?_⟩
  rw [List.foldlM_append, h, Option.bind_eq_bind, Option.bind_some, h', OpenElement.add_add]
  rfl

theorem Adds.after (h : Adds ds fs) (cs : List Char) (hcs : '<' ∉ cs) : Adds (cs ++ ds) fs :=
  (adds_text hcs).append h

theorem Adds.before (h : Adds cs es) (ds : List Char) (hds : '<' ∉ ds) : Adds (cs ++ ds) es := by
  have hadds := h.append (adds_text hds)
  rwa [List.append_nil] at hadds

theorem Adds.flatMap {α : Type} {xs : List α} {f : α → List Char} {g : α → Element}
    (h : ∀ x ∈ xs, Adds (f x) [g x]) : Adds (xs.flatMap f) (xs.map g) := by
  induction xs with
  | nil => exact adds_text (List.not_mem_nil)
  | cons x xs ih =>
    rw [List.forall_mem_cons] at h
    exact h.1.append (ih h.2)

theorem adds_declaration (h : '<' ∉ cs ∧ '>' ∉ cs) : Adds ('<' :: ('?' :: cs ++ ['>'])) [] := by
  refine ⟨fun _ => [], fun top below text => ?_⟩
  have hnot {c : Char} (hc : c ∉ cs) (hne : c ≠ '?') : c ∉ '?' :: cs := by
    rw [List.mem_cons, not_or]
    exact ⟨hne, hc⟩
  rw [read_tag ⟨hnot h.1 (by decide), hnot h.2 (by decide)⟩, OpenElement.add_nil]
  rfl

theorem adds_single (h : t.WellFormed) : Adds t.single [⟨t, "", []⟩] :=
  ⟨fun _ => [], fun _ _ _ => read_single h⟩

theorem AddsWith.element {final : List Char → List Char} (h : AddsWith final inside es)
    (ht : t.WellFormed) : Adds (t.opening ++ (inside ++ t.closing))
      [⟨t, if es.isEmpty then String.ofList (unescape (final [])) else "", es⟩] := by
  refine ⟨fun _ => [], fun top below text => ?_⟩
  rw [List.foldlM_append, read_opening ht, Option.bind_eq_bind, Option.bind_some,
    List.foldlM_append, h, Option.bind_eq_bind, Option.bind_some]
  exact read_closing ht

theorem adds_leaf {text : List Char} (htext : '<' ∉ text) (ht : t.WellFormed) :
    Adds (t.opening ++ (text ++ t.closing)) [⟨t, String.ofList (unescape text), []⟩] :=
  (addsWith_text htext).element ht

/-- An element with others. Around these there may be any layout. -/
theorem Adds.element (h : Adds inside es) (ht : t.WellFormed) :
    ∃ layout, Adds (t.opening ++ (inside ++ t.closing)) [⟨t, layout, es⟩] ∧
      (es ≠ [] → layout = "") := by
  obtain ⟨final, h⟩ := h
  refine ⟨_, h.element ht, fun hne => if_neg ?_⟩
  rwa [List.isEmpty_iff]

end adds

theorem readMarkup_of_adds {text : String} {es : List Element} (h : Adds text.toList es) :
    readMarkup text = some es := by
  obtain ⟨final, h⟩ := h
  rw [readMarkup, ReaderState.start, h]
  rfl

end Linkage.Report
