import Linkage.Proofs.Event.Formats
import Linkage.Proofs.Json.Encoded

/-!
# Files with some of the settings

A file sets what it has a member for, and every other setting keeps its default. Neither the order
of the members nor the way they are written makes a difference, and members of other names are
skipped. Whatever a file holds, a threshold that is loaded is finite.
-/

namespace Linkage.Config
open Json Text

inductive Setting where
  | threshold
  | excludedPrefixes
  | centralCount
  | topPairs
deriving DecidableEq, Repr

namespace Setting

def name : Setting → String
  | .threshold => "threshold"
  | .excludedPrefixes => "excluded_prefixes"
  | .centralCount => "central_class_count"
  | .topPairs => "top_pairs"

/-- The value of a setting in a file: numbers in their decimal form, and any list of texts. -/
def tree (c : Config Float) : Setting → Tree
  | .threshold => .number (utf8 (realText c.threshold))
  | .excludedPrefixes => .array (c.excludedPrefixes.map .text)
  | .centralCount => .number (utf8 (Nat.toDigits 10 c.centralCount))
  | .topPairs => .number (utf8 (Nat.toDigits 10 c.topPairs))

/-- The member that sets it as in `c`. -/
def member (c : Config Float) (s : Setting) : String × Tree := (s.name, s.tree c)

theorem name_inj {s s' : Setting} (h : s.name = s'.name) : s = s' := by
  revert h
  cases s <;> cases s' <;> decide

end Setting

/-- A configuration that the types of the settings allow. -/
structure Settable (c : Config Float) : Prop where
  finite : c.threshold.isFinite
  centralCount_lt : c.centralCount < 2 ^ 64
  topPairs_lt : c.topPairs < 2 ^ 64

/-- The chosen settings are those of `c`, the others have their defaults. -/
def keeping (c : Config Float) (chosen : List Setting) : Config Float where
  threshold := if .threshold ∈ chosen then c.threshold else default.threshold
  excludedPrefixes :=
    if .excludedPrefixes ∈ chosen then c.excludedPrefixes else default.excludedPrefixes
  centralCount := if .centralCount ∈ chosen then c.centralCount else default.centralCount
  topPairs := if .topPairs ∈ chosen then c.topPairs else default.topPairs

/-- The text of an object with a member for each of the chosen settings and others of foreign names,
in any order. -/
structure Sets (c : Config Float) (chosen : List Setting) (content : Bytes) : Prop where
  nodup : chosen.Nodup
  text : ∃ before own after members foreign, content = before ++ (own ++ after) ∧
    Blanks before ∧ Blanks after ∧ (Tree.object members).Spelled own ∧
    members.Perm (chosen.map (Setting.member c) ++ foreign) ∧
    ∀ m ∈ foreign, ∀ s : Setting, m.1 ≠ s.name

variable {c : Config Float} {chosen : List Setting} {content : Bytes}

theorem keeping_all (h : ∀ s, s ∈ chosen) : c.keeping chosen = c := by
  simp only [keeping, h, if_true]

theorem valuesOf_member {chosen : List Setting} (hnodup : chosen.Nodup) (s : Setting) :
    valuesOf s.name (chosen.map (Setting.member c)) = if s ∈ chosen then [s.tree c] else [] := by
  induction chosen with
  | nil => rfl
  | cons s' chosen ih =>
    obtain ⟨hfresh, hnodup⟩ := List.nodup_cons.mp hnodup
    by_cases hs : s' = s
    · subst hs
      show valuesOf s'.name ((s'.name, s'.tree c) :: _) = _
      rw [valuesOf_cons_self, ih hnodup, if_neg hfresh, if_pos List.mem_cons_self]
    · show valuesOf s.name ((s'.name, s'.tree c) :: _) = _
      rw [valuesOf_cons_ne (hs ∘ Setting.name_inj), ih hnodup]
      simp only [List.mem_cons, Ne.symm hs, false_or]

/-- A setting has one value if it is chosen and none otherwise. -/
theorem valuesOf_setting {members foreign : List (String × Tree)} (hnodup : chosen.Nodup)
    (hperm : members.Perm (chosen.map (Setting.member c) ++ foreign))
    (hforeign : ∀ m ∈ foreign, ∀ s : Setting, m.1 ≠ s.name) (s : Setting) :
    valuesOf s.name members = if s ∈ chosen then [s.tree c] else [] := by
  have hvalues : (valuesOf s.name members).Perm (if s ∈ chosen then [s.tree c] else []) := by
    rw [← valuesOf_member hnodup, ← List.append_nil (valuesOf s.name (chosen.map _)),
      ← valuesOf_eq_nil fun m hm => hforeign m hm s, ← valuesOf_append]
    exact valuesOf_perm hperm s.name
  split_ifs with hs
  · rw [if_pos hs] at hvalues
    exact hvalues.eq_singleton
  · rw [if_neg hs] at hvalues
    exact hvalues.eq_nil

theorem fills_setting {α : Type} {accepts : α → Tree → Prop} {s : Setting} {v : α} {ts : List Tree}
    (hvalues : ts = if s ∈ chosen then [s.tree c] else [])
    (haccepts : s ∈ chosen → accepts v (s.tree c)) :
    Fills accepts none (if s ∈ chosen then some v else none) ts := by
  subst hvalues
  split_ifs with hs
  · exact .given (haccepts hs)
  · exact .kept none

theorem accepts_texts (texts : List String) :
    List.Forall₂ Shape.text.Accepts texts (texts.map Tree.text) := by
  induction texts with
  | nil => exact .nil
  | cons s texts ih => exact .cons rfl ih

/-- What is read of a file that sets what is chosen. -/
def given (c : Config Float) (chosen : List Setting) : fields.Options :=
  (if .threshold ∈ chosen then some c.threshold else none,
    if .excludedPrefixes ∈ chosen then some c.excludedPrefixes else none,
    if .centralCount ∈ chosen then some c.centralCount else none,
    if .topPairs ∈ chosen then some c.topPairs else none, ())

theorem given_filledBy {members : List (String × Tree)} (hc : c.Settable)
    (hback : .threshold ∈ chosen → ReadsBack c.threshold)
    (hvalues : ∀ s : Setting, valuesOf s.name members = if s ∈ chosen then [s.tree c] else []) :
    fields.FilledBy (c.given chosen) members :=
  ⟨fills_setting (hvalues .threshold) fun hs => ⟨_, rfl, (hback hs).reads hc.finite⟩,
    fills_setting (hvalues .excludedPrefixes) fun _ => ⟨_, rfl, accepts_texts c.excludedPrefixes⟩,
    fills_setting (hvalues .centralCount) fun _ => ⟨_, rfl, reads_natural hc.centralCount_lt⟩,
    fills_setting (hvalues .topPairs) fun _ => ⟨_, rfl, reads_natural hc.topPairs_lt⟩, trivial⟩

theorem getD_ite {α : Type} (p : Prop) [Decidable p] (v fallback : α) :
    (if p then some v else none).getD fallback = if p then v else fallback := by
  split_ifs <;> rfl

theorem ofInput_given (c : Config Float) (chosen : List Setting) :
    format.ofInput (c.given chosen) = c.keeping chosen := by
  show Config.mk _ _ _ _ = Config.mk _ _ _ _
  congr 1 <;> exact getD_ite ..

theorem decode_of_sets (hc : c.Settable) (hback : .threshold ∈ chosen → ReadsBack c.threshold)
    (h : c.Sets chosen content) : format.decode content = .ok (c.keeping chosen) := by
  obtain ⟨before, own, after, members, foreign, rfl, hbefore, hafter, hown, hperm, hforeign⟩ :=
    h.text
  have hfilled := given_filledBy hc hback (valuesOf_setting h.nodup hperm hforeign)
  have haccepts : format.Accepts (c.keeping chosen) (.object members) :=
    ⟨c.given chosen, ⟨members, rfl, hfilled.takes (by decide)⟩, ofInput_given c chosen⟩
  exact haccepts.decode hown hbefore hafter

theorem Sets.isText (h : c.Sets chosen content) : IsText content := by
  obtain ⟨before, own, after, members, foreign, rfl, hbefore, hafter, hown, -⟩ := h.text
  exact hbefore.isText.append (hown.isText.append hafter.isText)

theorem isFinite_keeping (hc : c.Settable) (chosen : List Setting) :
    (c.keeping chosen).threshold.isFinite := by
  simp only [keeping]
  split_ifs
  · exact hc.finite
  · decide +kernel

theorem validate_eq_ok_iff {d : Config Float} :
    d.validate = .ok c ↔ d = c ∧ d.threshold.isFinite := by
  rw [validate]
  split_ifs with hfinite
  · simp [hfinite]
  · simp [hfinite]

theorem ofBytes_of_sets (hc : c.Settable) (hback : .threshold ∈ chosen → ReadsBack c.threshold)
    (h : c.Sets chosen content) : ofBytes content = .ok (c.keeping chosen) := by
  have htext : (decode? content).isNone = false := by
    rw [Option.isNone_eq_false_iff]
    exact h.isText.decode?_isSome
  -- the bytes are a text, so they are not refused before they are read
  rw [ofBytes, htext, decode_of_sets hc hback h]
  exact validate_eq_ok_iff.mpr ⟨rfl, isFinite_keeping hc chosen⟩

theorem isFinite_of_ofBytes (h : ofBytes content = .ok c) : c.threshold.isFinite := by
  rw [ofBytes] at h
  split_ifs at h
  · cases h
  · cases hdecode : format.decode content with
    | error fault =>
      rw [hdecode] at h
      cases h
    | ok d =>
      rw [hdecode] at h
      obtain ⟨rfl, hfinite⟩ := validate_eq_ok_iff.mp h
      exact hfinite

theorem isFinite_of_load {tree : Files.Tree} {path : String} (h : load tree path = .ok c) :
    c.threshold.isFinite := by
  rw [load] at h
  cases hread : readContent tree path .file with
  | error e =>
    rw [hread] at h
    cases h
  | ok content =>
    rw [hread] at h
    exact isFinite_of_ofBytes h

/-- A file with some of the settings of `c` is loaded as these and the defaults of the others, and
one with all of them as `c`. Of the threshold, where it is among them, it is assumed that its
decimal form is read as it was written. Whatever the content of a file, a threshold that is loaded
is finite. -/
theorem load_of_some_settings :
    (∀ (c : Config Float) (chosen : List Setting) (content : Bytes) (tree : Files.Tree)
      (path : String), c.Settable → (.threshold ∈ chosen → ReadsBack c.threshold) →
      c.Sets chosen content → tree.find? path = some (.file (.bytes content)) →
        load tree path = .ok (c.keeping chosen) ∧
          ((∀ s, s ∈ chosen) → load tree path = .ok c)) ∧
    ∀ (c : Config Float) (tree : Files.Tree) (path : String),
      load tree path = .ok c → c.threshold.isFinite := by
  refine ⟨fun c chosen content tree path hc hback hsets hfile => ?_,
    fun c tree path => isFinite_of_load⟩
  have hload : load tree path = .ok (c.keeping chosen) := by
    rw [load, Event.readContent_of_file hfile]
    exact ofBytes_of_sets hc hback hsets
  refine ⟨hload, fun hall => ?_⟩
  rw [hload, keeping_all hall]

/-- Two of the settings, with blanks around and escapes inside, and with a member between them that
has the name of a setting further inside. -/
theorem load_of_two_settings :
    let c : Config Float := ⟨0.25, ["a\"b.", "é\n"], 7, 3⟩
    let file : Value := .object [("excluded_prefixes", .array [.text "a\"b.", .text "é\n"]),
      ("notes", .object [("top_pairs", .array [.null, .natural 1])]), ("threshold", .real 0.25)]
    let content := encode " \r\n" ++ (encode file.pretty ++ encode "\t")
    let tree : Files.Tree := ⟨[(["c.json"], .file (.bytes content))]⟩
    c.Settable ∧ ReadsBack c.threshold ∧ c.Sets [.threshold, .excludedPrefixes] content ∧
      load tree "c.json" = .ok ⟨0.25, ["a\"b.", "é\n"], 5, 10⟩ ∧ (0.25 : Float).isFinite := by
  intro c file content tree
  have hfinite : (0.25 : Float).isFinite := by decide +kernel
  have hc : c.Settable := ⟨hfinite, by decide, by decide⟩
  have hback : ReadsBack c.threshold := by decide +kernel
  let notes : Tree := (Value.object [("top_pairs", .array [.null, .natural 1])]).tree
  let prefixes := Setting.excludedPrefixes.member c
  let threshold := Setting.threshold.member c
  have hreal : (Value.real 0.25).tree = threshold.2 := by
    rw [Value.tree, if_pos hfinite]
    rfl
  have hfile : file.tree = .object [prefixes, ("notes", notes), threshold] := by
    show Tree.object [prefixes, ("notes", notes), ("threshold", (Value.real 0.25).tree)] = _
    rw [hreal]
    rfl
  have hperm : [prefixes, ("notes", notes), threshold].Perm
      [threshold, prefixes, ("notes", notes)] := .trans (.cons _ (.swap ..)) (.swap ..)
  have hsets : c.Sets [.threshold, .excludedPrefixes] content := by
    refine ⟨by decide, encode " \r\n", encode file.pretty, encode "\t", _, [("notes", notes)], rfl,
      ?_, ?_, hfile ▸ file.spelled_pretty, hperm, ?_⟩
    · show ∀ b ∈ encode " \r\n", isSpace b
      decide +kernel
    · show ∀ b ∈ encode "\t", isSpace b
      decide +kernel
    · intro m hm s
      rw [List.mem_singleton.mp hm]
      cases s <;> decide
  have hkept : c.keeping [.threshold, .excludedPrefixes] = ⟨0.25, ["a\"b.", "é\n"], 5, 10⟩ := rfl
  have hfound : tree.find? "c.json" = some (.file (.bytes content)) := rfl
  obtain ⟨hload, -⟩ :=
    load_of_some_settings.1 c _ content tree "c.json" hc (fun _ => hback) hsets hfound
  rw [hkept] at hload
  -- stated apart, so that the threshold is not compared with the literal digit by digit
  have hthreshold := load_of_some_settings.2 _ tree "c.json" hload
  exact ⟨hc, hback, hsets, hload, hthreshold⟩

end Linkage.Config
