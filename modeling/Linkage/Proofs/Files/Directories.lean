import Linkage.Proofs.Files.Tree
import Mathlib.Data.List.Induction

/-!
# Directories that are made

After a directory was made a path leads to it, whether it was new or not. What is made are
directories on the way to it, where nothing was. To make it once more, or to put at a place what is
there, changes nothing.
-/

namespace Linkage.Files

variable {t after : Tree} {path : List String} {place home : Place} {entry : Entry}
  {directory : String}

theorem replaceOrAdd_of_lookup {es : List (Place × Entry)} (h : es.lookup place = some entry) :
    replaceOrAdd place entry es = es := by
  induction es with
  | nil => cases h
  | cons e es ih =>
    rw [lookup_cons_ite] at h
    rw [replaceOrAdd]
    by_cases he : e.1 = place
    · rw [if_pos he.symm] at h
      rw [if_pos he, ← Option.some.inj h, ← he]
    · rw [if_neg (Ne.symm he)] at h
      rw [if_neg he, ih h]

theorem Tree.put_of_entry (hplace : place ≠ []) (h : t.entry? place = some entry) :
    t.put place entry = t := by
  unfold entry? at h
  rw [if_neg hplace] at h
  rw [put, replaceOrAdd_of_lookup h]

theorem Tree.isDirectory_iff : t.isDirectory path ↔
    ∃ home, t.follow [] path = .ok home ∧ t.entry? home = some .directory := by
  rw [isDirectory]
  cases t.follow [] path with
  | error fault => simp
  | ok home => simp

/-- The last part of a path that leads to a directory is a step from another one. -/
theorem Tree.isDirectory_concat {part : String} : t.isDirectory (path ++ [part]) ↔
    ∃ parent, t.follow [] path = .ok parent ∧ t.entry? parent = some .directory ∧
      t.entry? (stepTo parent part) = some .directory := by
  rw [isDirectory_iff, follow_append]
  cases t.follow [] path with
  | error fault => simp [bind, Except.bind]
  | ok parent =>
    have hstep (home : Place) : t.follow parent [part] = .ok home ↔
        t.entry? parent = some .directory ∧ stepTo parent part = home := by
      rw [follow_cons, follow, Except.ok.injEq]
    simp only [bind, Except.bind, hstep, Except.ok.injEq]
    grind

theorem Tree.withDirectory_of_isDirectory {part : String} (h : t.isDirectory (path ++ [part])) :
    t.withDirectory (path ++ [part]) = .error .fileExists := by
  obtain ⟨parent, hparent, hentry, hplace⟩ := isDirectory_concat.mp h
  rw [withDirectory, List.dropLast_concat, List.getLast?_concat, hparent]
  simp only [bind, Except.bind, hentry, hplace, Option.isSome_some, if_true]
  rfl

/-- What comes of making a directory depends on where the path above it leads. -/
theorem Tree.withDirectory_cases (t : Tree) (path : List String) (part : String) :
    (∃ fault, t.follow [] path = .error fault ∧
      t.withDirectory (path ++ [part]) = .error fault) ∨
    ∃ parent, t.follow [] path = .ok parent ∧
      (t.entry? parent = none ∧ t.withDirectory (path ++ [part]) = .error .noEntry ∨
      (∃ c, t.entry? parent = some (.file c) ∧
        t.withDirectory (path ++ [part]) = .error .notDirectory) ∨
      t.entry? parent = some .directory ∧ t.withDirectory (path ++ [part]) =
        if (t.entry? (stepTo parent part)).isSome then .error .fileExists
        else .ok (t.put (stepTo parent part) .directory)) := by
  rw [withDirectory, List.dropLast_concat, List.getLast?_concat]
  cases t.follow [] path with
  | error fault => exact Or.inl ⟨fault, rfl, rfl⟩
  | ok parent =>
    refine Or.inr ⟨parent, rfl, ?_⟩
    dsimp only [bind, Except.bind]
    cases t.entry? parent with
    | none => exact Or.inl ⟨rfl, rfl⟩
    | some entry =>
      cases entry with
      | file c => exact Or.inr (Or.inl ⟨c, rfl, rfl⟩)
      | directory => exact Or.inr (Or.inr ⟨rfl, rfl⟩)

/-- A directory is made in one that is there, where nothing was. -/
theorem Tree.of_withDirectory_concat {part : String}
    (h : t.withDirectory (path ++ [part]) = .ok after) :
    ∃ parent, t.follow [] path = .ok parent ∧ t.entry? parent = some .directory ∧
      t.entry? (stepTo parent part) = none ∧ after = t.put (stepTo parent part) .directory := by
  rcases withDirectory_cases t path part with
    ⟨fault, -, hmade⟩ | ⟨parent, hparent, ⟨-, hmade⟩ | ⟨c, -, hmade⟩ | ⟨hentry, hmade⟩⟩
  all_goals rw [hmade] at h
  · cases h
  · cases h
  · cases h
  · split at h
    · cases h
    · rename_i hnone
      cases h
      exact ⟨parent, hparent, hentry, Option.not_isSome_iff_eq_none.mp hnone, rfl⟩

theorem Tree.withDirectory_grown {part : String}
    (h : t.withDirectory (path ++ [part]) = .ok after) :
    t.Grown (passed (path ++ [part])) [] after := by
  obtain ⟨parent, hparent, -, hnone, rfl⟩ := of_withDirectory_concat h
  have hplace : [stepTo parent part] ⊆ passed (path ++ [part]) :=
    List.cons_subset.mpr ⟨stepTo_mem_passed hparent, List.nil_subset _⟩
  exact (Grown.put_directory hnone).mono hplace (List.nil_subset _)

theorem Tree.isDirectory_of_withDirectory {part : String}
    (h : t.withDirectory (path ++ [part]) = .ok after) : after.isDirectory (path ++ [part]) := by
  have hgrown := withDirectory_grown h
  obtain ⟨parent, hparent, hentry, hnone, hafter⟩ := of_withDirectory_concat h
  have hfree : t.entry? (stepTo parent part) ≠ some .directory := by
    rw [hnone]
    exact nofun
  refine isDirectory_concat.mpr ⟨parent, hgrown.follow hparent, hgrown.directory_kept hentry, ?_⟩
  rw [hafter, entry?_put (ne_nil_of_free hfree), if_pos rfl]

theorem ensureDirectory_grows (path : List String) (part : String) :
    (ensureDirectory (path ++ [part])).Grows (passed (path ++ [part])) := by
  intro t
  have hrefl : t.Grown (passed (path ++ [part])) [] t :=
    (Tree.Grown.refl t).mono (List.nil_subset _) (List.nil_subset _)
  rw [ensureDirectory_run]
  cases h : t.withDirectory (path ++ [part]) with
  | ok changed => exact Tree.withDirectory_grown h
  | error fault =>
    dsimp only
    split <;> exact hrefl

theorem ensureDirectory_ok {part : String}
    (h : (ensureDirectory (path ++ [part])).run t = (.ok (), after)) :
    after.isDirectory (path ++ [part]) := by
  rw [ensureDirectory_run] at h
  cases hmade : t.withDirectory (path ++ [part]) with
  | ok changed =>
    rw [hmade] at h
    cases h
    exact Tree.isDirectory_of_withDirectory hmade
  | error fault =>
    rw [hmade] at h
    dsimp only at h
    split at h
    · rename_i hthere
      cases h
      exact hthere
    · cases h

theorem ensureDirectory_there {part : String} (h : t.isDirectory (path ++ [part])) :
    (ensureDirectory (path ++ [part])).run t = (.ok (), t) := by
  rw [ensureDirectory_run, Tree.withDirectory_of_isDirectory h]
  exact if_pos h

theorem reversedParent_suffix (reversed : List String) : reversedParent reversed <:+ reversed :=
  (List.dropWhile_suffix _).trans ((List.drop_suffix 1 _).trans (List.dropWhile_suffix _))

theorem ensureReversed_grows (reversed : List String) :
    (ensureReversed reversed).Grows (passed reversed.reverse) := by
  match reversed with
  | [] =>
    rw [ensureReversed]
    exact Tree.Grown.refl
  | part :: rest =>
    have hlast : (ensureDirectory (part :: rest).reverse).Grows
        (passed (part :: rest).reverse) := by
      rw [List.reverse_cons]
      exact ensureDirectory_grows rest.reverse part
    have hget : (get : Action Tree).Grows (passed (part :: rest).reverse) := fun t =>
      (Tree.Grown.refl t).mono (List.nil_subset _) (List.nil_subset _)
    rw [ensureReversed]
    refine hget.bind fun t => ?_
    split
    · have habove := (ensureReversed_grows (reversedParent (part :: rest))).mono
        (passed_subset (List.reverse_prefix.mpr (reversedParent_suffix (part :: rest))))
      exact habove.bind fun _ => hlast
    · exact hlast
termination_by reversed.length
decreasing_by exact length_reversedParent_lt part rest

/-- Where there is no directory for the last one, those above are made first. -/
theorem ensureReversed_above {part : String} {rest : List String}
    (h : t.withDirectory (rest.reverse ++ [part]) = .error .noEntry) :
    (ensureReversed (part :: rest)).run t =
      (do ensureReversed (reversedParent (part :: rest))
          ensureDirectory (rest.reverse ++ [part])).run t := by
  rw [ensureReversed, List.reverse_cons]
  refine (bind_run_ok rfl).trans ?_
  rw [h]

theorem ensureReversed_last {part : String} {rest : List String}
    (h : t.withDirectory (rest.reverse ++ [part]) ≠ .error .noEntry) :
    (ensureReversed (part :: rest)).run t = (ensureDirectory (rest.reverse ++ [part])).run t := by
  rw [ensureReversed, List.reverse_cons]
  refine (bind_run_ok rfl).trans ?_
  split
  · contradiction
  · rfl

theorem ensureReversed_ok {reversed : List String}
    (h : (ensureReversed reversed).run t = (.ok (), after)) :
    after.isDirectory reversed.reverse := by
  cases reversed with
  | nil => rfl
  | cons part rest =>
    rw [List.reverse_cons]
    by_cases hnoEntry : t.withDirectory (rest.reverse ++ [part]) = .error .noEntry
    · rw [ensureReversed_above hnoEntry] at h
      obtain ⟨_, above, -, h⟩ := of_bind_run_ok h
      exact ensureDirectory_ok h
    · rw [ensureReversed_last hnoEntry] at h
      exact ensureDirectory_ok h

theorem ensureReversed_there {reversed : List String} (h : t.isDirectory reversed.reverse) :
    (ensureReversed reversed).run t = (.ok (), t) := by
  cases reversed with
  | nil =>
    rw [ensureReversed]
    rfl
  | cons part rest =>
    rw [List.reverse_cons] at h
    have hexists : t.withDirectory (rest.reverse ++ [part]) ≠ .error .noEntry := by
      rw [Tree.withDirectory_of_isDirectory h]
      intro heq
      cases heq
    rw [ensureReversed_last hexists]
    exact ensureDirectory_there h

/-- What is made are directories on the way. -/
theorem ensureDirectories_grows (path : String) :
    (ensureDirectories path).Grows (placesAlong path) := by
  have hgrows := ensureReversed_grows (parts path).reverse
  rwa [List.reverse_reverse] at hgrows

theorem Tree.Leads.ensureDirectories (h : t.Leads directory home) :
    (ensureDirectories directory).run t = (.ok (), t) := by
  refine ensureReversed_there ?_
  rw [List.reverse_reverse]
  exact isDirectory_iff.mpr ⟨home, h.follow, h.entry⟩

/-! ### What keeps a directory from being made -/

/-- A file is at one of the places that parts of a path lead to. -/
def Tree.Obstructed (t : Tree) (path : List String) : Prop :=
  ∃ place ∈ passed path, ∃ c, t.entry? place = some (.file c)

theorem Tree.Obstructed.mono {front : List String} (h : t.Obstructed front)
    (hfront : front <+: path) : t.Obstructed path :=
  h.imp fun _ => And.imp_left fun hplace => passed_subset hfront hplace

theorem Tree.obstructed_of_file {c : Content} (h : t.follow [] path = .ok place)
    (hfile : t.entry? place = some (.file c)) : t.Obstructed path := by
  refine ⟨place, mem_passed.mpr ⟨path, List.prefix_rfl, fun hnil => ?_, ?_⟩, c, hfile⟩
  · subst hnil
    cases h
    cases hfile
  · exact (eq_foldl_of_follow h).symm

/-- A path that cannot be followed ends at nothing or at a file. -/
theorem Tree.follow_error {fault : Fault} (h : t.follow [] path = .error fault) :
    fault = .noEntry ∨ t.Obstructed path := by
  induction path using List.reverseRecOn with
  | nil => cases h
  | append_singleton path part ih =>
    have hfront : path <+: path ++ [part] := List.prefix_append ..
    rw [follow_append] at h
    cases hparent : t.follow [] path with
    | error fault' =>
      rw [hparent] at h
      cases h
      exact (ih hparent).imp_right fun hobstructed => hobstructed.mono hfront
    | ok parent =>
      rw [hparent] at h
      dsimp only [bind, Except.bind] at h
      rw [follow] at h
      split at h
      · cases h
      · rename_i c hfile
        exact Or.inr ((obstructed_of_file hparent hfile).mono hfront)
      · cases h
        exact Or.inl rfl

/-- A directory is made unless there is none to make it in, or a file is in the way. -/
theorem Tree.withDirectory_error {part : String} {fault : Fault}
    (h : t.withDirectory (path ++ [part]) = .error fault) :
    t.isDirectory (path ++ [part]) ∨ fault = .noEntry ∧ ¬ t.isDirectory path ∨
      t.Obstructed (path ++ [part]) := by
  have hfront : path <+: path ++ [part] := List.prefix_append ..
  rcases withDirectory_cases t path part with
    ⟨fault', hparent, hmade⟩ | ⟨parent, hparent, ⟨hentry, hmade⟩ | ⟨c, hentry, hmade⟩ |
      ⟨hentry, hmade⟩⟩
  all_goals rw [hmade] at h
  · cases h
    have hnone : ¬ t.isDirectory path := by
      rw [isDirectory, hparent]
      exact Bool.false_ne_true
    exact Or.inr ((follow_error hparent).imp (fun hfault => ⟨hfault, hnone⟩)
      fun hobstructed => hobstructed.mono hfront)
  · cases h
    refine Or.inr (Or.inl ⟨rfl, fun hdirectory => ?_⟩)
    obtain ⟨home, hfollow, hhome⟩ := isDirectory_iff.mp hdirectory
    cases hparent.symm.trans hfollow
    cases hentry.symm.trans hhome
  · exact Or.inr (Or.inr ((obstructed_of_file hparent hentry).mono hfront))
  · split at h
    · rename_i hsome
      obtain ⟨entry, hplace⟩ := Option.isSome_iff_exists.mp hsome
      cases entry with
      | directory => exact Or.inl (isDirectory_concat.mpr ⟨parent, hparent, hentry, hplace⟩)
      | file c => exact Or.inr (Or.inr ⟨_, stepTo_mem_passed hparent, c, hplace⟩)
    · cases h

theorem ensureDirectory_error {part : String} {fault : Fault}
    (h : (ensureDirectory (path ++ [part])).run t = (.error fault, after)) :
    t.withDirectory (path ++ [part]) = .error fault ∧ ¬ t.isDirectory (path ++ [part]) := by
  rw [ensureDirectory_run] at h
  cases hmade : t.withDirectory (path ++ [part]) with
  | ok changed =>
    rw [hmade] at h
    cases h
  | error fault' =>
    rw [hmade] at h
    dsimp only at h
    split at h
    · cases h
    · rename_i hnot
      cases h
      exact ⟨rfl, hnot⟩

/-- Files stay where they are while directories are made. -/
theorem Tree.Grown.obstructed {made : List Place} (h : t.Grown made [] after)
    (hafter : after.Obstructed path) : t.Obstructed path := by
  obtain ⟨place, hplace, c, hfile⟩ := hafter
  refine ⟨place, hplace, c, ?_⟩
  rcases h place with hsame | ⟨-, -, hdirectory⟩ | ⟨hmem, -⟩
  · rw [← hsame, hfile]
  · cases hdirectory.symm.trans hfile
  · cases hmem

/-- Dots at the end of a path stay in the directory. -/
theorem Tree.isDirectory_of_undotted {reversed : List String}
    (h : t.isDirectory (reversed.dropWhile fun p => p == ".").reverse) :
    t.isDirectory reversed.reverse := by
  induction reversed with
  | nil => exact h
  | cons part rest ih =>
    by_cases hdot : part = "."
    · subst hdot
      rw [List.dropWhile_cons_of_pos (by rfl)] at h
      obtain ⟨home, hfollow, hentry⟩ := isDirectory_iff.mp (ih h)
      rw [List.reverse_cons]
      exact isDirectory_concat.mpr ⟨home, hfollow, hentry, hentry⟩
    · rwa [List.dropWhile_cons_of_neg (by simpa using hdot)] at h

theorem reversedParent_cons {part : String} (hdot : part ≠ ".") (rest : List String) :
    reversedParent (part :: rest) = rest.dropWhile fun p => p == "." := by
  rw [reversedParent, List.dropWhile_cons_of_neg (by simpa using hdot), List.drop_one,
    List.tail_cons]

theorem head?_reversedParent (reversed : List String) :
    (reversedParent reversed).head? ≠ some "." := by
  intro hhead
  have hne : reversedParent reversed ≠ [] := by
    intro hnil
    rw [hnil] at hhead
    cases hhead
  have hlast : ((reversedParent reversed).head hne == ".") = false :=
    List.head_dropWhile_not (fun p => p == ".") hne
  rw [List.head?_eq_some_head hne] at hhead
  rw [Option.some.inj hhead] at hlast
  cases hlast

/-- The directories on a path that does not end in a dot can be made unless a file is in the way. -/
theorem ensureReversed_error (reversed : List String) (hdot : reversed.head? ≠ some ".")
    {t after : Tree} {fault : Fault}
    (h : (ensureReversed reversed).run t = (.error fault, after)) :
    t.Obstructed reversed.reverse := by
  match reversed with
  | [] =>
    rw [ensureReversed] at h
    cases h
  | part :: rest =>
    have hpart : part ≠ "." := fun heq => hdot (heq ▸ rfl)
    rw [List.reverse_cons]
    by_cases hnoEntry : t.withDirectory (rest.reverse ++ [part]) = .error .noEntry
    · rw [ensureReversed_above hnoEntry] at h
      cases hmade : (ensureReversed (reversedParent (part :: rest))).run t with
      | mk result mid =>
        have hgrown := ensureReversed_grows (reversedParent (part :: rest)) t
        rw [hmade] at hgrown
        cases result with
        | error fault' =>
          have hobstructed := ensureReversed_error (reversedParent (part :: rest))
            (head?_reversedParent _) hmade
          rw [reversedParent_cons hpart] at hobstructed
          refine hobstructed.mono (List.IsPrefix.trans ?_ (List.prefix_append ..))
          exact List.reverse_prefix.mpr (List.dropWhile_suffix _)
        | ok _ =>
          have hparent := ensureReversed_ok hmade
          rw [reversedParent_cons hpart] at hparent
          rw [bind_run_ok hmade] at h
          obtain ⟨herror, hnot⟩ := ensureDirectory_error h
          rcases Tree.withDirectory_error herror with hthere | ⟨-, hnone⟩ | hobstructed
          · exact absurd hthere hnot
          · exact absurd (Tree.isDirectory_of_undotted hparent) hnone
          · exact hgrown.obstructed hobstructed
    · rw [ensureReversed_last hnoEntry] at h
      obtain ⟨herror, hnot⟩ := ensureDirectory_error h
      rcases Tree.withDirectory_error herror with hthere | ⟨rfl, -⟩ | hobstructed
      · exact absurd hthere hnot
      · exact absurd herror hnoEntry
      · exact hobstructed
termination_by reversed.length
decreasing_by exact length_reversedParent_lt part rest

/-- What keeps a directory from being made is a file on the way, unless its path ends in a dot. -/
theorem exists_file_of_ensureDirectories {fault : Fault}
    (h : (ensureDirectories directory).run t = (.error fault, after))
    (hdot : (parts directory).getLast? ≠ some ".") :
    ∃ place ∈ placesAlong directory, ∃ c, t.entry? place = some (.file c) := by
  rw [← List.head?_reverse] at hdot
  have hobstructed := ensureReversed_error _ hdot h
  rwa [List.reverse_reverse] at hobstructed

/-- The path of a directory leads to it. All places on the way are directories; those where nothing
was were made, and none if the path led to a directory before. Nothing else was changed. -/
structure Tree.Opened (t : Tree) (directory : String) (ready : Tree) (home : Place) : Prop where
  leads : ready.Leads directory home
  along : ∀ place ∈ placesAlong directory, ready.entry? place = some .directory
  grown : t.Grown (placesAlong directory) [] ready
  there : ∀ home, t.Leads directory home → ready = t

theorem exists_opened (h : (ensureDirectories directory).run t = (.ok (), after)) :
    ∃ home, t.Opened directory after home := by
  have hthere := ensureReversed_ok h
  rw [List.reverse_reverse, Tree.isDirectory_iff] at hthere
  obtain ⟨home, hfollow, hentry⟩ := hthere
  have hleads : after.Leads directory home := ⟨hfollow, hentry⟩
  have hgrown := ensureDirectories_grows directory t
  rw [h] at hgrown
  refine ⟨home, hleads, fun place => hleads.directory_of_mem, hgrown, fun home' hleads' => ?_⟩
  cases h.symm.trans hleads'.ensureDirectories
  rfl

end Linkage.Files
