import Linkage.Files.Tree
import Linkage.Proofs.Files.Path

/-!
# Files that are written and read

What an entry that is put at a place changes and what it leaves: paths through directories lead
where they led before. A file that is written into a directory is read again, and files that are
written with other names leave it alone. Directories are made at places on the way of a path only.
-/

namespace Linkage.Files
open Linkage.Text

variable {t : Tree} {place here target : Place} {entry : Entry}

theorem lookup_cons_ite (target : Place) (e : Place × Entry) (es : List (Place × Entry)) :
    (e :: es).lookup target = if target = e.1 then some e.2 else es.lookup target := by
  rw [List.lookup_cons]
  split <;> simp_all

theorem lookup_replaceOrAdd (place target : Place) (entry : Entry) (es : List (Place × Entry)) :
    (replaceOrAdd place entry es).lookup target =
      if target = place then some entry else es.lookup target := by
  induction es with
  | nil => exact lookup_cons_ite ..
  | cons e es ih =>
    rw [replaceOrAdd, lookup_cons_ite]
    split
    · rename_i he
      rw [lookup_cons_ite, he]
      split <;> rfl
    · rename_i he
      rw [lookup_cons_ite, ih]
      by_cases htarget : target = place
      · rw [if_pos htarget, if_pos htarget, if_neg (htarget ▸ Ne.symm he)]
      · rw [if_neg htarget, if_neg htarget]

theorem Tree.entry?_put (hplace : place ≠ []) (t : Tree) (entry : Entry) (target : Place) :
    Tree.entry? (t.put place entry) target =
      if target = place then some entry else t.entry? target := by
  unfold entry? put
  rw [lookup_replaceOrAdd]
  by_cases htarget : target = []
  · rw [if_pos htarget, if_pos htarget, if_neg (htarget ▸ hplace.symm)]
  · rw [if_neg htarget, if_neg htarget]

theorem Tree.ne_nil_of_free (h : t.entry? place ≠ some .directory) : place ≠ [] := by
  rintro rfl
  exact h rfl

theorem Tree.follow_cons {p : String} {ps : List String} :
    t.follow here (p :: ps) = .ok target ↔
      t.entry? here = some .directory ∧ t.follow (stepTo here p) ps = .ok target := by
  rw [follow]
  split
  · rename_i hhere
    simp only [hhere, true_and]
  · rename_i hhere
    simp [hhere]
  · rename_i hhere
    simp [hhere]

theorem Tree.follow_append (t : Tree) (here : Place) (ps qs : List String) :
    t.follow here (ps ++ qs) = (t.follow here ps >>= fun place => t.follow place qs) := by
  induction ps generalizing here with
  | nil => rfl
  | cons p ps ih =>
    rw [List.cons_append, follow, follow]
    split
    · exact ih _
    · rfl
    · rfl

theorem Tree.eq_foldl_of_follow {ps : List String} (h : t.follow here ps = .ok target) :
    target = ps.foldl stepTo here := by
  induction ps generalizing here with
  | nil => exact (Except.ok.inj h).symm
  | cons p ps ih => exact ih (follow_cons.mp h).2

theorem mem_passed {parts : List String} : place ∈ passed parts ↔
    ∃ front, front <+: parts ∧ front ≠ [] ∧ front.foldl stepTo [] = place := by
  rw [passed, List.mem_map]
  constructor
  · rintro ⟨n, hn, rfl⟩
    refine ⟨parts.take (n + 1), List.take_prefix .., fun hnil => ?_, rfl⟩
    have hlength := congrArg List.length hnil
    rw [List.length_take, List.length_nil] at hlength
    have := List.mem_range.mp hn
    omega
  · rintro ⟨front, hfront, hne, rfl⟩
    have hpos : 0 < front.length := List.length_pos_iff.mpr hne
    have hle := hfront.length_le
    refine ⟨front.length - 1, List.mem_range.mpr (by omega), ?_⟩
    rw [Nat.sub_add_cancel hpos, ← List.prefix_iff_eq_take.mp hfront]

theorem passed_subset {front parts : List String} (h : front <+: parts) :
    passed front ⊆ passed parts := by
  intro place hplace
  obtain ⟨front', hfront', hne, rfl⟩ := mem_passed.mp hplace
  exact mem_passed.mpr ⟨front', hfront'.trans h, hne, rfl⟩

theorem stepTo_mem_passed {t : Tree} {ps : List String} {parent : Place} {part : String}
    (h : t.follow [] ps = .ok parent) : stepTo parent part ∈ passed (ps ++ [part]) := by
  refine mem_passed.mpr ⟨_, List.prefix_rfl, List.concat_ne_nil part ps, ?_⟩
  rw [List.foldl_append, ← Tree.eq_foldl_of_follow h]
  rfl

variable {directory name : String} {parent : Place} {content : Bytes} {after : Tree}

/-- A path names the directory at a place. -/
structure Tree.Leads (t : Tree) (directory : String) (parent : Place) : Prop where
  follow : t.follow [] (parts directory) = .ok parent
  entry : t.entry? parent = some .directory

/-- Every place on the way of a path that leads to a directory is one. -/
theorem Tree.Leads.directory_of_mem (h : t.Leads directory parent)
    (hplace : place ∈ placesAlong directory) : t.entry? place = some .directory := by
  obtain ⟨front, ⟨rest, hrest⟩, -, rfl⟩ := mem_passed.mp hplace
  have hfollow := h.follow
  rw [← hrest, follow_append] at hfollow
  cases hmid : t.follow [] front with
  | error fault =>
    rw [hmid] at hfollow
    cases hfollow
  | ok mid =>
    rw [hmid] at hfollow
    rw [← eq_foldl_of_follow hmid]
    cases rest with
    | nil =>
      cases hfollow
      exact h.entry
    | cons part rest => exact (follow_cons.mp hfollow).1

theorem Tree.follow_join (hname : IsName name) :
    t.follow [] (parts (join directory name)) = .ok target ↔
      ∃ parent, t.Leads directory parent ∧ target = parent ++ [name] := by
  have hstep (parent : Place) : stepTo parent name = parent ++ [name] := by
    rw [stepTo, if_neg hname.notHere, if_neg hname.notAbove]
  rw [parts_join directory hname, follow_append]
  cases hparent : t.follow [] (parts directory) with
  | error fault =>
    refine ⟨nofun, ?_⟩
    rintro ⟨parent, ⟨hfollow, -⟩, -⟩
    cases hparent.symm.trans hfollow
  | ok parent =>
    show t.follow parent [name] = _ ↔ _
    rw [follow_cons, hstep]
    constructor
    · rintro ⟨hentry, htarget⟩
      cases htarget
      exact ⟨parent, ⟨hparent, hentry⟩, rfl⟩
    · rintro ⟨parent', ⟨hfollow, hentry⟩, rfl⟩
      cases hparent.symm.trans hfollow
      exact ⟨hentry, rfl⟩

theorem Tree.Leads.read_join (h : t.Leads directory parent) (hname : IsName name) {c : Content}
    (hfile : t.entry? (parent ++ [name]) = some (.file c)) :
    t.read (join directory name) = .ok c := by
  have hfollow : t.follow [] (parts (join directory name)) = .ok (parent ++ [name]) :=
    (follow_join hname).mpr ⟨parent, h, rfl⟩
  have hfind : t.find? (join directory name) = some (.file c) := by
    rw [find?, if_neg (join_ne_empty directory hname), endsInSlash_join directory hname,
      if_neg Bool.false_ne_true]
    dsimp only
    rw [List.append_nil, hfollow]
    exact hfile
  rw [read, hfind]

theorem Tree.Leads.withFile_join (h : t.Leads directory parent) (hname : IsName name) :
    t.withFile (join directory name) content =
      if t.entry? (parent ++ [name]) = some .directory then .error .isDirectory
      else .ok (t.put (parent ++ [name]) (.file (.bytes content))) := by
  have hplace : t.follow [] (parts (join directory name)) = .ok (parent ++ [name]) :=
    (follow_join hname).mpr ⟨parent, h, rfl⟩
  have hparent : t.follow [] (parts (join directory name)).dropLast = .ok parent := by
    rw [parts_join directory hname, List.dropLast_concat, h.follow]
  rw [withFile, hplace, hparent]
  dsimp only [bind, Except.bind]
  rw [h.entry]
  cases t.entry? (parent ++ [name]) with
  | none => rfl
  | some entry => cases entry <;> rfl

/-! ### Growth -/

/-- Directories were added at some places where nothing was, and files put at some places, none of
them that of a directory. All else is as it was. -/
def Tree.Grown (t : Tree) (made written : List Place) (after : Tree) : Prop :=
  ∀ place, after.entry? place = t.entry? place ∨
    place ∈ made ∧ t.entry? place = none ∧ after.entry? place = some .directory ∨
    place ∈ written ∧ t.entry? place ≠ some .directory ∧ ∃ c, after.entry? place = some (.file c)

namespace Tree.Grown

variable {made made' written written' : List Place} {mid : Tree}

theorem refl (t : Tree) : t.Grown [] [] t := fun _ => Or.inl rfl

theorem mono (h : t.Grown made written after) (hmade : made ⊆ made')
    (hwritten : written ⊆ written') : t.Grown made' written' after := fun place =>
  (h place).imp_right (Or.imp (And.imp_left (@hmade place)) (And.imp_left (@hwritten place)))

theorem trans (h : t.Grown made written mid) (h' : mid.Grown made' written' after) :
    t.Grown (made ++ made') (written ++ written') after := by
  intro place
  rw [List.mem_append, List.mem_append]
  rcases h' place with hsame' | ⟨hmem', hnone', hdirectory'⟩ | ⟨hmem', hfree', c', hfile'⟩
  · rw [hsame']
    exact (h place).imp_right (Or.imp (And.imp_left Or.inl) (And.imp_left Or.inl))
  · rcases h place with hsame | ⟨-, -, hdirectory⟩ | ⟨-, -, c, hfile⟩
    · exact Or.inr (Or.inl ⟨Or.inr hmem', hsame ▸ hnone', hdirectory'⟩)
    · cases hdirectory.symm.trans hnone'
    · cases hfile.symm.trans hnone'
  · rcases h place with hsame | ⟨-, -, hdirectory⟩ | ⟨-, hfree, -⟩
    · exact Or.inr (Or.inr ⟨Or.inr hmem', hsame ▸ hfree', c', hfile'⟩)
    · exact absurd hdirectory hfree'
    · exact Or.inr (Or.inr ⟨Or.inr hmem', hfree, c', hfile'⟩)

theorem put_directory (h : t.entry? place = none) :
    t.Grown [place] [] (t.put place .directory) := by
  have hplace : place ≠ [] := ne_nil_of_free (t := t) (by rw [h]; exact nofun)
  intro target
  rw [entry?_put hplace]
  split
  · rename_i htarget
    exact Or.inr (Or.inl ⟨List.mem_singleton.mpr htarget, htarget ▸ h, rfl⟩)
  · exact Or.inl rfl

theorem put_file (h : t.entry? place ≠ some .directory) (c : Content) :
    t.Grown [] [place] (t.put place (.file c)) := by
  intro target
  rw [entry?_put (ne_nil_of_free h)]
  split
  · rename_i htarget
    exact Or.inr (Or.inr ⟨List.mem_singleton.mpr htarget, htarget ▸ h, c, rfl⟩)
  · exact Or.inl rfl

theorem kept (h : t.Grown made written after) (hplace : place ∉ written)
    (hentry : t.entry? place = some entry) : after.entry? place = some entry := by
  rcases h place with hsame | ⟨-, hnone, -⟩ | ⟨hmem, -⟩
  · rwa [hsame]
  · cases hentry.symm.trans hnone
  · exact absurd hmem hplace

theorem directory_kept (h : t.Grown made written after)
    (hplace : t.entry? place = some .directory) : after.entry? place = some .directory := by
  rcases h place with hsame | ⟨-, hnone, -⟩ | ⟨-, hfree, -⟩
  · rwa [hsame]
  · cases hplace.symm.trans hnone
  · exact absurd hplace hfree

/-- No directory is made anywhere else. -/
theorem free (h : t.Grown made written after) (hplace : place ∉ made)
    (hfree : t.entry? place ≠ some .directory) : after.entry? place ≠ some .directory := by
  intro hdirectory
  rcases h place with hsame | ⟨hmem, -⟩ | ⟨-, -, c, hfile⟩
  · exact hfree (hsame.symm.trans hdirectory)
  · exact hplace hmem
  · cases hfile.symm.trans hdirectory

/-- Paths lead where they led before. -/
theorem follow (h : t.Grown made written after) {ps : List String}
    (hfollow : t.follow here ps = .ok target) : after.follow here ps = .ok target := by
  induction ps generalizing here with
  | nil => exact hfollow
  | cons p ps ih =>
    obtain ⟨hhere, hfollow⟩ := follow_cons.mp hfollow
    exact follow_cons.mpr ⟨h.directory_kept hhere, ih hfollow⟩

theorem leads (h : t.Grown made written after) (hleads : t.Leads directory parent) :
    after.Leads directory parent :=
  ⟨h.follow hleads.follow, h.directory_kept hleads.entry⟩

end Tree.Grown

section action

variable {α β : Type} {x : Action α} {f : α → Action β} {a : α} {b : β} {mid : Tree}

theorem bind_run (x : Action α) (f : α → Action β) (t : Tree) :
    (x >>= f).run t = (ExceptT.bindCont f (x.run t).1 : StateM Tree _) (x.run t).2 := rfl

theorem bind_run_ok (h : x.run t = (.ok a, mid)) : (x >>= f).run t = (f a).run mid := by
  rw [bind_run, h]
  rfl

theorem bind_run_error {fault : Fault} (h : x.run t = (.error fault, mid)) :
    (x >>= f).run t = (.error fault, mid) := by
  rw [bind_run, h]
  rfl

theorem of_bind_run_ok (h : (x >>= f).run t = (.ok b, after)) :
    ∃ a mid, x.run t = (.ok a, mid) ∧ (f a).run mid = (.ok b, after) := by
  cases hx : x.run t with
  | mk result mid =>
    rw [bind_run, hx] at h
    cases result with
    | error fault => cases h
    | ok a => exact ⟨a, mid, rfl, h⟩

end action

/-- Whatever comes of it, the action only adds directories, at some places where nothing was. -/
def Action.Grows {α : Type} (x : Action α) (made : List Place) : Prop :=
  ∀ t : Tree, t.Grown made [] (x.run t).2

section grows

variable {α β : Type} {x : Action α} {f : α → Action β} {made made' : List Place}

theorem Action.Grows.mono (hx : x.Grows made) (h : made ⊆ made') : x.Grows made' := fun t =>
  (hx t).mono h (List.nil_subset _)

theorem Action.Grows.bind (hx : x.Grows made) (hf : ∀ a, (f a).Grows made) :
    (x >>= f).Grows made := by
  intro t
  rw [bind_run]
  cases hrun : x.run t with
  | mk result mid =>
    have hmid : t.Grown made [] mid := by simpa [hrun] using hx t
    cases result with
    | error fault => exact hmid
    | ok a => exact (hmid.trans (hf a mid)).mono (by simp) (by simp)

end grows

theorem ensureDirectory_run (path : List String) (t : Tree) :
    (ensureDirectory path).run t = match t.withDirectory path with
      | .ok changed => (.ok (), changed)
      | .error fault => if t.isDirectory path then (.ok (), t) else (.error fault, t) := by
  show (match t.withDirectory path with
    | .ok changed => (set changed : Action Unit)
    | .error fault => if t.isDirectory path then pure () else throw fault).run t = _
  cases t.withDirectory path with
  | ok changed => rfl
  | error fault => dsimp only; split <;> rfl

theorem writeText_run (path text : String) (t : Tree) :
    (writeText path text).run t = match t.withFile path (encode text) with
      | .ok changed => (.ok (), changed)
      | .error fault => (.error fault, t) := by
  show ((liftM (t.withFile path (encode text)) : Action Tree) >>=
    fun changed => set changed).run t = _
  cases t.withFile path (encode text) <;> rfl

end Linkage.Files
