import Linkage.Proofs.Json.Stored

/-!
# Formats that restore

A format restores what is written for a value, or for a member of an object: the text with sorted
members is read as the value.
-/

namespace Linkage.Json
open Text

namespace Format

variable {α β : Type} {f : Format α} {v : Value} {x : α}

/-- The format reads `x` from what is written for a value, its members being sorted. -/
def Restores (f : Format α) (v : Value) (x : α) : Prop :=
  ∃ w : f.input.Value, f.input.Accepts w v.sorted.tree ∧ f.ofInput w = x

theorem Restores.decode (h : f.Restores v x) : f.decode (encode v.sorted.pretty) = .ok x := by
  obtain ⟨w, haccepts, rfl⟩ := h
  have hdecode := f.decode_spelled haccepts v.sorted.spelled_pretty blanks_nil blanks_nil
  rwa [List.nil_append, List.append_nil] at hdecode

/-- A format that reads and writes one shape restores what fits this shape. -/
theorem restores_ofShape {s : Shape} {ofValue : s.Value → α} {toValue : α → s.Value} {x : α}
    (hback : ofValue (toValue x) = x) (hfits : s.Fits (toValue x))
    (hreals : ∀ y ∈ (s.toJson (toValue x)).reals, Kept y) :
    (ofShape s ofValue toValue).Restores (s.toJson (toValue x)) x :=
  ⟨toValue x, s.accepts_toJson hfits hreals, hback⟩

theorem reals_list (f : Format α) (xs : List α) :
    (f.list.toJson xs).reals = xs.flatMap fun x => (f.toJson x).reals := by
  show itemReals ((xs.map f.toOutput).map f.output.toJson) = _
  rw [itemReals_eq, List.map_map, List.flatMap_map]
  rfl

theorem reals_list_map {g : α → Float} (h : ∀ x, (f.toJson x).reals = [g x]) (xs : List α) :
    (f.list.toJson xs).reals = xs.map g := by
  simp only [reals_list, h, List.map_eq_flatMap]

theorem Restores.list {xs : List α} (h : ∀ x ∈ xs, f.Restores (f.toJson x) x) :
    f.list.Restores (f.list.toJson xs) xs := by
  have hall : ∃ ws : List f.input.Value,
      List.Forall₂ f.input.Accepts ws (xs.map fun x => (f.toJson x).sorted.tree) ∧
        ws.map f.ofInput = xs := by
    induction xs with
    | nil => exact ⟨[], .nil, rfl⟩
    | cons x xs ih =>
      obtain ⟨⟨w, haccepts, hw⟩, hxs⟩ := List.forall_mem_cons.mp h
      obtain ⟨ws, hall, hws⟩ := ih hxs
      exact ⟨w :: ws, .cons haccepts hall, by rw [List.map_cons, hw, hws]⟩
  obtain ⟨ws, hall, hws⟩ := hall
  refine ⟨ws, ⟨_, ?_, hall⟩, hws⟩
  show Tree.array (itemTrees (sortedItems ((xs.map f.toOutput).map f.output.toJson))) = _
  rw [sortedItems_eq, itemTrees_eq, List.map_map, List.map_map, List.map_map]
  rfl

/-- The member of an object under a name; the other members are not looked at. -/
def member (name : String) (f : Format α) : Format α where
  input := .record name (.field name f.input .done)
  ofInput := fun (v, _) => f.ofInput v
  output := .record name (.field name f.output .done)
  toOutput := fun x => (f.toOutput x, ())

theorem valuesOf_sorted {name : String} {ms : List (String × Value)}
    (hnames : (ms.map Prod.fst).Nodup) (hmem : (name, v) ∈ ms) :
    valuesOf name (memberTrees (sortedMembers ms)) = [v.sorted.tree] := by
  have hvalues : valuesOf name (ms.map sortedTree) = [v.sorted.tree] := by
    induction ms with
    | nil => cases hmem
    | cons m ms ih =>
      rw [List.map_cons, List.nodup_cons] at hnames
      rcases List.mem_cons.mp hmem with rfl | hmem
      · have hne : ∀ m ∈ ms.map sortedTree, m.1 ≠ name := by
          rintro _ hm rfl
          obtain ⟨m, hms, rfl⟩ := List.mem_map.mp hm
          exact hnames.1 (List.mem_map.mpr ⟨m, hms, rfl⟩)
        show valuesOf name ((name, v.sorted.tree) :: _) = _
        rw [valuesOf_cons_self, valuesOf_eq_nil hne]
      · have hne : m.1 ≠ name := fun heq => hnames.1 (heq ▸ List.mem_map_of_mem hmem)
        show valuesOf name ((m.1, m.2.sorted.tree) :: _) = _
        rw [valuesOf_cons_ne hne]
        exact ih hnames.2 hmem
  have hperm : (memberTrees (sortedMembers ms)).Perm (ms.map sortedTree) := by
    rw [memberTrees_eq]
    have hperm := (sortedMembers_perm ms).map fun m => (m.1, m.2.tree)
    rwa [List.map_map] at hperm
  have hsame : (valuesOf name (memberTrees (sortedMembers ms))).Perm
      (valuesOf name (ms.map sortedTree)) := (hperm.filter _).map _
  rw [hvalues] at hsame
  exact hsame.eq_singleton

theorem Restores.member (h : f.Restores v x) {name : String} {ms : List (String × Value)}
    (hnames : (ms.map Prod.fst).Nodup) (hmem : (name, v) ∈ ms) :
    (f.member name).Restores (.object ms) x := by
  obtain ⟨w, haccepts, hw⟩ := h
  refine ⟨(w, ()), .inl ⟨_, rfl, (some w, ()), rfl, ?_, trivial⟩, hw⟩
  show Fills f.input.Accepts none (some w) (valuesOf name (memberTrees (sortedMembers ms)))
  rw [valuesOf_sorted hnames hmem]
  exact .given haccepts

end Format

def naturalFormat : Format Nat := .ofShape (.natural .word64) id id

theorem restores_natural {n : Nat} (hn : n < 2 ^ 64) : naturalFormat.Restores (.natural n) n :=
  Format.restores_ofShape rfl hn nofun

end Linkage.Json
