import Linkage.Proofs.Json.Stored

/-!
# Records by their members

An object is read as a record if it has one member for each field, whatever their order and whatever
other members there are.
-/

namespace Linkage.Json
open Text

theorem valuesOf_without {name key : String} (h : key ≠ name) (ms : List (String × Tree)) :
    valuesOf key (without name ms) = valuesOf key ms := by
  unfold valuesOf without
  rw [List.filter_filter]
  congr 1
  apply List.filter_congr
  intro m _
  by_cases hkey : m.1 = key
  · simp [hkey, h]
  · simp [hkey]

theorem valuesOf_append (name : String) (ms ms' : List (String × Tree)) :
    valuesOf name (ms ++ ms') = valuesOf name ms ++ valuesOf name ms' := by
  rw [valuesOf, List.filter_append, List.map_append]
  rfl

theorem valuesOf_perm {ms ms' : List (String × Tree)} (h : ms.Perm ms') (name : String) :
    (valuesOf name ms).Perm (valuesOf name ms') :=
  (h.filter _).map _

/-- Each field takes its value from its only member, and a field without a member has none. -/
def Fields.FilledBy : (fields : Fields) → fields.Options → List (String × Tree) → Prop
  | .done, _, _ => True
  | .field name shape rest, (v, vs), ms =>
    Fills shape.Accepts none v (valuesOf name ms) ∧ rest.FilledBy vs ms

theorem Fields.FilledBy.without {name : String} {ms : List (String × Tree)} :
    ∀ {fields : Fields} {vs : fields.Options}, fields.FilledBy vs ms → name ∉ fields.names →
      fields.FilledBy vs (without name ms)
  | .done, _, _, _ => trivial
  | .field key _ _, (_, _), ⟨hfills, hrest⟩, hname => by
    simp only [names, List.mem_cons, not_or] at hname
    refine ⟨?_, hrest.without hname.2⟩
    rw [valuesOf_without (Ne.symm hname.1)]
    exact hfills

theorem Fields.FilledBy.takes {ms : List (String × Tree)} :
    ∀ {fields : Fields} {vs : fields.Options}, fields.FilledBy vs ms → fields.names.Nodup →
      fields.Takes fields.noOptions vs ms
  | .done, _, _, _ => trivial
  | .field name _ _, (_, _), ⟨hfills, hrest⟩, hnames => by
    simp only [names, List.nodup_cons] at hnames
    exact ⟨hfills, (hrest.without hnames.1).takes hnames.2⟩

/-- Each field has one member of its name, from which its value is read. -/
def Fields.HeldBy : (fields : Fields) → fields.Values → List (String × Tree) → Prop
  | .done, _, _ => True
  | .field name shape rest, (v, vs), ms =>
    (∃ t, valuesOf name ms = [t] ∧ shape.Accepts v t) ∧ rest.HeldBy vs ms

theorem Fields.HeldBy.filledBy {ms : List (String × Tree)} :
    ∀ {fields : Fields} {vs : fields.Values}, fields.HeldBy vs ms →
      fields.FilledBy (fields.given vs) ms
  | .done, _, _ => trivial
  | .field _ _ _, (_, _), ⟨⟨_, hvalues, haccepts⟩, hrest⟩ =>
    ⟨hvalues ▸ .given haccepts, hrest.filledBy⟩

theorem Shape.accepts_record {name : String} {fields : Fields} {vs : fields.Values}
    {ms : List (String × Tree)} (hnames : fields.names.Nodup) (h : fields.HeldBy vs ms) :
    (Shape.record name fields).Accepts vs (.object ms) :=
  Or.inl ⟨ms, rfl, fields.given vs, fields.complete_given vs, h.filledBy.takes hnames⟩

/-- An object with these texts as its members under these names, each once and among any others. -/
def Tree.HasTexts (t : Tree) (texts : List (String × String)) : Prop :=
  ∃ ms, t = .object ms ∧ ∀ m ∈ texts, valuesOf m.1 ms = [.text m.2]

theorem Tree.HasTexts.accepts {t : Tree} {name key key' text text' : String} (hkeys : key ≠ key')
    (h : t.HasTexts [(key, text), (key', text')]) :
    (Shape.record name (.field key .text (.field key' .text .done))).Accepts
      (text, text', ()) t := by
  obtain ⟨ms, rfl, hms⟩ := h
  simp only [List.forall_mem_cons] at hms
  obtain ⟨htext, htext', -⟩ := hms
  apply Shape.accepts_record
  · simpa [Fields.names] using hkeys
  · exact ⟨⟨_, htext, rfl⟩, ⟨_, htext', rfl⟩, trivial⟩

section format

variable {α : Type} {f : Format α}

/-- The trees from which the format reads `x`. -/
def Format.Accepts (f : Format α) (x : α) (t : Tree) : Prop :=
  ∃ v : f.input.Value, f.input.Accepts v t ∧ f.ofInput v = x

theorem Format.Accepts.decode {x : α} {t : Tree} {before own after : Bytes} (h : f.Accepts x t)
    (hown : t.Spelled own) (hbefore : Blanks before) (hafter : Blanks after) :
    f.decode (before ++ (own ++ after)) = .ok x := by
  obtain ⟨v, haccepts, rfl⟩ := h
  exact f.decode_spelled haccepts hown hbefore hafter

theorem Format.Accepts.list {xs : List α} {ts : List Tree} (h : List.Forall₂ f.Accepts xs ts) :
    f.list.Accepts xs (.array ts) := by
  have hall : ∃ vs, List.Forall₂ f.input.Accepts vs ts ∧ vs.map f.ofInput = xs := by
    induction h with
    | nil => exact ⟨[], .nil, rfl⟩
    | cons hx _ ih =>
      obtain ⟨v, haccepts, hv⟩ := hx
      obtain ⟨vs, hall, hvs⟩ := ih
      exact ⟨v :: vs, .cons haccepts hall, by rw [List.map_cons, hv, hvs]⟩
  obtain ⟨vs, hall, hvs⟩ := hall
  exact ⟨vs, ⟨ts, rfl, hall⟩, hvs⟩

end format

end Linkage.Json
