import Linkage.Event.Source
import Linkage.Proofs.Files.Tree

/-!
# Extensions of paths

A path has an extension if it ends in a dot and the letters of the extension, in capitals or not,
and the name before the dot is not empty. For a path that leads to a file the format is picked by
just this.
-/

namespace Linkage.Files
open Linkage.Text

/-- The end of the path, behind at least one character of a name, is a dot and the extension. -/
def HasExtension (path ext : String) : Prop :=
  ∃ front c letters, path.toList = front ++ c :: '.' :: letters ∧ c ≠ '/' ∧
    letters.map Char.toLower = ext.toList

variable {path ext name : String} {before : List String}

theorem exists_last_slash {cs : List Char} (h : '/' ∈ cs) :
    ∃ front last, cs = front ++ '/' :: last ∧ '/' ∉ last := by
  obtain ⟨last, front, hsplit, hlast⟩ := List.eq_append_cons_of_mem (List.mem_reverse.mpr h)
  refine ⟨front.reverse, last.reverse, ?_, by simpa using hlast⟩
  rw [← List.reverse_reverse cs, hsplit]
  simp

/-- A path that does not end in a slash ends in its last part. -/
theorem exists_last_part (hne : path ≠ "") (hslash : endsInSlash path = false) :
    ∃ front name before, path.toList = front ++ name.toList ∧
      (front = [] ∨ front.getLast? = some '/') ∧ '/' ∉ name.toList ∧ name ≠ "" ∧
      parts path = before ++ [name] := by
  by_cases hmem : '/' ∈ path.toList
  · obtain ⟨front, last, hsplit, hlast⟩ := exists_last_slash hmem
    have hname : String.ofList last ≠ "" := by
      intro hnil
      have hnil : last = [] := by simpa using hnil
      simp [endsInSlash, hsplit, hnil] at hslash
    refine ⟨front ++ ['/'], String.ofList last,
      partsOf ((splitAll '/' front).map String.ofList ++ [""]), by simp [hsplit], by simp,
      by simpa using hlast, hname, ?_⟩
    rw [parts_eq, hsplit, splitAll_append_sep, splitAll_of_not_mem hlast, List.map_append,
      List.map_singleton, partsOf_append (pieces_ne_nil front) hname]
  · refine ⟨[], path, [], by simp, Or.inl rfl, hmem, hne, ?_⟩
    rw [parts_eq, splitAll_of_not_mem hmem, List.map_singleton, String.ofList_toList,
      partsOf_relative hne]
    rfl

theorem fileName?_eq (hparts : parts path = before ++ [name]) (hhere : name ≠ ".") :
    fileName? path = if name = ".." ∨ name = "" then none else some name := by
  have hdrop : (parts path).reverse.dropWhile (fun p => p == ".") = name :: before.reverse := by
    simp [hparts, hhere]
  rw [fileName?, hdrop]
  rfl

theorem extensionOf?_append {front letters : List Char} {c : Char} (hdot : '.' ∉ letters) :
    extensionOf? (String.ofList (front ++ c :: '.' :: letters)) = some (String.ofList letters) := by
  have hletters : ∀ x ∈ letters.reverse, (x != '.') = true := by
    intro x hx
    have hne : x ≠ '.' := fun heq => hdot (heq ▸ List.mem_reverse.mp hx)
    simpa using hne
  have hreverse : (front ++ c :: '.' :: letters).reverse =
      letters.reverse ++ '.' :: c :: front.reverse := by simp
  simp [extensionOf?, hreverse, List.dropWhile_append_of_pos hletters,
    List.takeWhile_append_of_pos hletters]

theorem exists_of_extensionOf? {letters : String} (h : extensionOf? name = some letters) :
    ∃ front c, name.toList = front ++ c :: '.' :: letters.toList := by
  unfold extensionOf? at h
  dsimp only at h
  split at h
  · cases h
  · rename_i hbefore
    have hsplit : name.toList.reverse.takeWhile (fun c => c != '.') ++
        name.toList.reverse.dropWhile (fun c => c != '.') = name.toList.reverse :=
      List.takeWhile_append_dropWhile
    cases hdrop : name.toList.reverse.dropWhile (fun c => c != '.') with
    | nil => simp [hdrop] at hbefore
    | cons dot rest =>
      have hdot : dot = '.' := by
        have hhead := List.head?_dropWhile_not (fun c => c != '.') name.toList.reverse
        simpa [hdrop] using hhead
      cases rest with
      | nil => simp [hdrop] at hbefore
      | cons c rest =>
        refine ⟨rest.reverse, c, ?_⟩
        rw [← List.reverse_reverse name.toList, ← hsplit, hdrop, hdot, ← Option.some.inj h]
        simp

/-- What a name ends in is what the path ends in, as far as there is no slash. -/
theorem exists_name_of_path {front front' name letters : List Char} {c : Char}
    (heq : front' ++ name = front ++ c :: '.' :: letters)
    (hfront : front' = [] ∨ front'.getLast? = some '/') (hslash : '/' ∉ c :: '.' :: letters) :
    ∃ before, name = before ++ c :: '.' :: letters := by
  obtain ⟨rest, hrest, hname⟩ | ⟨rest, hrest, hname⟩ := List.append_eq_append_iff.mp heq
  · exact ⟨rest, hname⟩
  · -- The path would have its last slash within the dot and the letters.
    obtain hnil | ⟨rest, x, hconcat⟩ := List.eq_nil_or_concat rest
    · exact ⟨[], by simpa [hnil] using hname.symm⟩
    · obtain hnil | hlast := hfront
      · simp [hnil, hconcat] at hrest
      · have hx : x = '/' := by simpa [hrest, hconcat] using hlast
        rw [hname, hconcat, hx] at hslash
        simp at hslash

/-- Letters that show an extension hold no character that is not in it, but for capitals. -/
theorem not_mem_of_lower {letters : List Char} {x : Char}
    (hletters : letters.map Char.toLower = ext.toList) (hlower : x.toLower = x)
    (hx : x ∉ ext.toList) : x ∉ letters := by
  intro hmem
  rw [← hletters] at hx
  exact hx (List.mem_map.mpr ⟨x, hmem, hlower⟩)

theorem HasExtension.extension?_eq (h : HasExtension path ext) (hne : ext ≠ "")
    (hdot : '.' ∉ ext.toList) (hslash : '/' ∉ ext.toList) : extension? path = some ext := by
  obtain ⟨front, c, letters, hpath, hc, hletters⟩ := h
  have hdot := not_mem_of_lower hletters (by decide) hdot
  have hslash := not_mem_of_lower hletters (by decide) hslash
  have hletters_ne : letters ≠ [] := by
    intro hnil
    apply hne
    rw [hnil] at hletters
    exact String.toList_eq_nil_iff.mp hletters.symm
  have hends : endsInSlash path = false := by
    have hlast : letters.getLast? ≠ some '/' := fun hlast => hslash (List.mem_of_getLast? hlast)
    have hpath : path.toList = front ++ [c, '.'] ++ letters := by simp [hpath]
    rw [endsInSlash, hpath, List.getLast?_append_of_ne_nil _ hletters_ne]
    simpa using hlast
  have hpath_ne : path ≠ "" := by
    intro hnil
    simp [hnil] at hpath
  obtain ⟨front', name, before, hsplit, hfront, -, hname_ne, hparts⟩ :=
    exists_last_part hpath_ne hends
  have hslash' : '/' ∉ c :: '.' :: letters := by simp [hslash, Ne.symm hc]
  obtain ⟨start, hname⟩ := exists_name_of_path (hsplit.symm.trans hpath) hfront hslash'
  have hlong : 3 ≤ name.toList.length := by
    have hpos := List.length_pos_of_ne_nil hletters_ne
    simp only [hname, List.length_append, List.length_cons]
    omega
  have hhere : name ≠ "." := by
    intro heq
    simp [heq] at hlong
  have habove : ¬ (name = ".." ∨ name = "") := by
    rintro (heq | heq) <;> simp [heq] at hlong
  have hfile : fileName? path = some name := by
    rw [fileName?_eq hparts hhere, if_neg habove]
  have hext : extensionOf? name = some (String.ofList letters) := by
    rw [← extensionOf?_append hdot, ← hname, String.ofList_toList]
  simp [extension?, hfile, hext, hletters]

variable {t : Tree} {content : Content}

/-- A way that ends in a dot ends at a directory. -/
theorem Tree.entry?_of_follow_here {place : Place}
    (h : t.follow [] (before ++ ["."]) = .ok place) : t.entry? place = some .directory := by
  rw [follow_append] at h
  cases hbefore : t.follow [] before with
  | error fault =>
    rw [hbefore] at h
    cases h
  | ok here =>
    rw [hbefore] at h
    obtain ⟨hentry, hplace⟩ := follow_cons.mp h
    cases hplace
    exact hentry

/-- The last part of a path to a file is a name and no dot. -/
theorem Tree.find?_file (h : t.find? path = some (.file content)) :
    path ≠ "" ∧ endsInSlash path = false ∧ ∀ before, parts path ≠ before ++ ["."] := by
  unfold find? at h
  split at h
  · cases h
  · rename_i hne
    dsimp only at h
    split at h
    · rename_i place hfollow
      have hfile : t.entry? place ≠ some .directory := by simp [h]
      have hends : endsInSlash path = false := by
        apply Bool.eq_false_iff.mpr
        intro hends
        rw [if_pos hends] at hfollow
        exact hfile (entry?_of_follow_here hfollow)
      rw [if_neg (Bool.eq_false_iff.mp hends), List.append_nil] at hfollow
      refine ⟨hne, hends, ?_⟩
      intro before hparts
      rw [hparts] at hfollow
      exact hfile (entry?_of_follow_here hfollow)
    · cases h

theorem hasExtension_of_extension? (h : t.find? path = some (.file content))
    (hext : extension? path = some ext) : HasExtension path ext := by
  obtain ⟨hne, hends, hdots⟩ := Tree.find?_file h
  obtain ⟨front, name, before, hpath, -, hslash, -, hparts⟩ := exists_last_part hne hends
  have hhere : name ≠ "." := fun heq => hdots before (heq ▸ hparts)
  rw [extension?, fileName?_eq hparts hhere] at hext
  split at hext
  · cases hext
  · rw [Option.bind_eq_bind, Option.bind_some] at hext
    obtain ⟨letters, hletters, hext⟩ := Option.bind_eq_some_iff.mp hext
    obtain ⟨start, c, hname⟩ := exists_of_extensionOf? hletters
    refine ⟨front ++ start, c, letters.toList, by simp [hpath, hname], ?_, ?_⟩
    · intro hc
      exact hslash (by simp [hname, hc])
    · simpa using congrArg String.toList (Option.some.inj hext)

end Linkage.Files

namespace Linkage.Event
open Linkage.Files

variable {path : String} {tree : Tree} {content : Content}

theorem FileFormat.ofPath_json (h : HasExtension path "json") : ofPath path = .json := by
  rw [ofPath, h.extension?_eq (by decide) (by decide) (by decide)]
  rfl

theorem FileFormat.ofPath_table (h : HasExtension path "parquet") : ofPath path = .table := by
  rw [ofPath, h.extension?_eq (by decide) (by decide) (by decide)]
  rfl

/-- Every other file is one of lines. -/
theorem FileFormat.ofPath_text (hfind : tree.find? path = some (.file content))
    (hjson : ¬ HasExtension path "json") (htable : ¬ HasExtension path "parquet") :
    ofPath path = .text := by
  unfold ofPath
  split
  · rename_i hext
    exact absurd (hasExtension_of_extension? hfind hext) hjson
  · rename_i hext
    exact absurd (hasExtension_of_extension? hfind hext) htable
  · rfl

end Linkage.Event
