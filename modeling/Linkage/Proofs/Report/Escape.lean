import Linkage.Report.Graph
import Mathlib.Data.List.Basic

/-!
# Text between markup

Escaping maps each character of markup to its entity and leaves every other character as it is, so
what is escaped opens and closes no tag, and its ampersands are those of entities. To replace these
from left to right brings the text back.
-/

namespace Linkage.Report

/-- A text with its entities replaced, from left to right. What is no entity is kept. -/
def unescape : List Char → List Char
  | '&' :: 'a' :: 'm' :: 'p' :: ';' :: cs => '&' :: unescape cs
  | '&' :: 'l' :: 't' :: ';' :: cs => '<' :: unescape cs
  | '&' :: 'g' :: 't' :: ';' :: cs => '>' :: unescape cs
  | '&' :: 'q' :: 'u' :: 'o' :: 't' :: ';' :: cs => '"' :: unescape cs
  | c :: cs => c :: unescape cs
  | [] => []

variable {c : Char} {cs : List Char}

/-- A character of markup. -/
def Special (c : Char) : Prop := c = '&' ∨ c = '<' ∨ c = '>' ∨ c = '"'

instance : DecidablePred Special := fun c =>
  inferInstanceAs (Decidable (c = '&' ∨ c = '<' ∨ c = '>' ∨ c = '"'))

/-- A text without characters of markup. -/
def Plain (cs : List Char) : Prop := ∀ c ∈ cs, ¬ Special c

instance (cs : List Char) : Decidable (Plain cs) :=
  List.decidableBAll (¬ Special ·) cs

theorem entity_of_not_special (h : ¬ Special c) : entity c = [c] := by
  simp only [Special, not_or] at h
  obtain ⟨hamp, hlt, hgt, hquot⟩ := h
  unfold entity
  split <;> first | rfl | contradiction

theorem replaceChar_flatMap (c : Char) (text : List Char) (f : Char → List Char) (cs : List Char) :
    replaceChar c text (cs.flatMap f) = cs.flatMap fun x => replaceChar c text (f x) :=
  List.flatMap_assoc ..

/-- The replacements do not meet: what one of them writes is left alone by the next. -/
theorem escapeChars_eq_flatMap (cs : List Char) : escapeChars cs = cs.flatMap entity := by
  have hfirst : replaceChar '&' "&amp;".toList cs =
      cs.flatMap fun x => if x = '&' then "&amp;".toList else [x] := rfl
  rw [escapeChars, hfirst, replaceChar_flatMap, replaceChar_flatMap, replaceChar_flatMap]
  refine List.flatMap_congr fun c _ => ?_
  by_cases h : Special c
  · rcases h with rfl | rfl | rfl | rfl <;> rfl
  · rw [entity_of_not_special h]
    obtain ⟨hamp, hlt, hgt, hquot⟩ := by simpa only [Special, not_or] using h
    simp only [replaceChar, List.flatMap_singleton, if_neg hamp, if_neg hlt, if_neg hgt,
      if_neg hquot]

theorem mem_entity {d : Char} (h : d ∈ entity c) : d ≠ '<' ∧ d ≠ '>' ∧ d ≠ '"' := by
  by_cases hc : Special c
  · have hall : (entity c).all (fun d => d ≠ '<' ∧ d ≠ '>' ∧ d ≠ '"') := by
      rcases hc with rfl | rfl | rfl | rfl <;> rfl
    exact of_decide_eq_true (List.all_eq_true.mp hall d h)
  · rw [entity_of_not_special hc, List.mem_singleton] at h
    subst h
    simp only [Special, not_or] at hc
    exact hc.2

theorem mem_escapeChars (h : c ∈ escapeChars cs) : c ≠ '<' ∧ c ≠ '>' ∧ c ≠ '"' := by
  rw [escapeChars_eq_flatMap] at h
  obtain ⟨d, -, hd⟩ := List.mem_flatMap.mp h
  exact mem_entity hd

variable {before after : List Char}

theorem ampersand_not_mem_tail (c : Char) : '&' ∉ (entity c).tail := by
  by_cases h : Special c
  · rcases h with rfl | rfl | rfl | rfl <;> decide
  · rw [entity_of_not_special h]
    exact List.not_mem_nil

theorem entity_eq_append (h : entity c = before ++ '&' :: after) :
    before = [] ∧ Special c := by
  cases before with
  | nil =>
    refine ⟨rfl, ?_⟩
    by_contra hc
    rw [entity_of_not_special hc] at h
    exact hc (.inl (List.cons.inj h).1)
  | cons d before =>
    have hmem : '&' ∈ (entity c).tail := by
      rw [h, List.cons_append, List.tail_cons]
      exact List.mem_append_right before (List.mem_cons_self ..)
    exact absurd hmem (ampersand_not_mem_tail c)

/-- Every ampersand is the first character of an entity. -/
theorem entity_of_ampersand (h : escapeChars cs = before ++ '&' :: after) :
    ∃ c, Special c ∧ entity c <+: '&' :: after := by
  rw [escapeChars_eq_flatMap] at h
  induction cs generalizing before with
  | nil => exact absurd h.symm (List.append_ne_nil_of_right_ne_nil _ (List.cons_ne_nil _ _))
  | cons c cs ih =>
    rw [List.flatMap_cons] at h
    rcases List.append_eq_append_iff.mp h with ⟨before', -, hlater⟩ | ⟨rest, hentity, hlater⟩
    · exact ih hlater
    · -- The ampersand stands in what is written for `c`, or right behind it.
      cases rest with
      | nil =>
        have hfirst : cs.flatMap entity = [] ++ '&' :: after := hlater.symm
        exact ih hfirst
      | cons d rest =>
        obtain ⟨rfl, hafter⟩ := List.cons.inj hlater
        obtain ⟨rfl, hc⟩ := entity_eq_append hentity
        exact ⟨c, hc, cs.flatMap entity, by rw [hentity, hafter]; rfl⟩

theorem unescape_cons (hc : c ≠ '&') (cs : List Char) : unescape (c :: cs) = c :: unescape cs := by
  rw [unescape] <;> exact fun _ h => absurd h hc

theorem unescape_entity (c : Char) (cs : List Char) :
    unescape (entity c ++ cs) = c :: unescape cs := by
  by_cases h : Special c
  · rcases h with rfl | rfl | rfl | rfl <;> rfl
  · rw [entity_of_not_special h]
    exact unescape_cons (fun hamp => h (.inl hamp)) cs

theorem unescape_escapeChars (cs : List Char) : unescape (escapeChars cs) = cs := by
  rw [escapeChars_eq_flatMap]
  induction cs with
  | nil => rfl
  | cons c cs ih => rw [List.flatMap_cons, unescape_entity, ih]

theorem Plain.unescape_eq (h : Plain cs) : unescape cs = cs := by
  have hescape : escapeChars cs = cs := by
    rw [escapeChars_eq_flatMap, List.flatMap_congr fun c hc => entity_of_not_special (h c hc)]
    exact List.flatMap_singleton' cs
  rw [← hescape, unescape_escapeChars, hescape]

theorem toList_escape (s : String) : (escape s).toList = escapeChars s.toList :=
  String.toList_ofList

theorem escapeChars_append (cs ds : List Char) :
    escapeChars (cs ++ ds) = escapeChars cs ++ escapeChars ds := by
  simp only [escapeChars_eq_flatMap, List.flatMap_append]

theorem escape_append (s t : String) : escape (s ++ t) = escape s ++ escape t := by
  rw [escape, String.toList_append, escapeChars_append, String.ofList_append]
  rfl

theorem unescape_escape (s : String) : String.ofList (unescape (escape s).toList) = s := by
  rw [toList_escape, unescape_escapeChars, String.ofList_toList]

theorem escape_injective : Function.Injective escape := by
  intro s t h
  rw [← unescape_escape s, h, unescape_escape]

/-- The four replacements one after the other are one pass over the text. What they write has no
characters of markup but the ampersands of its entities. Another pass brings the text back, also one
that looked escaped before, so different texts are written differently. Texts are escaped part by
part. -/
theorem escape_is_one_pass (s t : String) :
    escape s = String.ofList (s.toList.flatMap entity) ∧
      ('<' ∉ (escape s).toList ∧ '>' ∉ (escape s).toList ∧ '"' ∉ (escape s).toList) ∧
      (∀ before after, (escape s).toList = before ++ '&' :: after →
        ∃ c, Special c ∧ entity c <+: '&' :: after) ∧
      String.ofList (unescape (escape s).toList) = s ∧
      (escape s = escape t ↔ s = t) ∧
      escape (s ++ t) = escape s ++ escape t := by
  refine ⟨?_, ?_, ?_, unescape_escape s, escape_injective.eq_iff, escape_append s t⟩
  · rw [escape, escapeChars_eq_flatMap]
  · rw [toList_escape]
    exact ⟨fun h => (mem_escapeChars h).1 rfl, fun h => (mem_escapeChars h).2.1 rfl,
      fun h => (mem_escapeChars h).2.2 rfl⟩
  · intro before after h
    rw [toList_escape] at h
    exact entity_of_ampersand h

theorem escape_is_one_pass_of_escaped :
    (escape "<&lt;").toList = "&lt;".toList ++ '&' :: "amp;lt;".toList ∧
      (∃ c, Special c ∧ entity c <+: '&' :: "amp;lt;".toList) ∧
      String.ofList (unescape (escape "<&lt;").toList) = "<&lt;" ∧
      escape "<&lt;" ≠ escape "<<" := by
  obtain ⟨-, -, hampersand, hback, hinj, -⟩ := escape_is_one_pass "<&lt;" "<<"
  have hwritten : (escape "<&lt;").toList = "&lt;".toList ++ '&' :: "amp;lt;".toList := by
    rw [toList_escape]
    decide
  exact ⟨hwritten, hampersand _ _ hwritten, hback, fun h => absurd (hinj.mp h) (by decide)⟩

theorem Plain.not_mem (h : Plain cs) : '<' ∉ cs ∧ '>' ∉ cs ∧ '"' ∉ cs :=
  ⟨fun hc => h _ hc (by decide), fun hc => h _ hc (by decide), fun hc => h _ hc (by decide)⟩

theorem Plain.append {ds : List Char} (h : Plain cs) (h' : Plain ds) : Plain (cs ++ ds) :=
  List.forall_mem_append.mpr ⟨h, h'⟩

theorem Plain.cons (h : Plain cs) (hc : ¬ Special c) : Plain (c :: cs) :=
  List.forall_mem_cons.mpr ⟨hc, h⟩

theorem Plain.subset {ds : List Char} (h : Plain cs) (hsub : ds ⊆ cs) : Plain ds :=
  fun c hc => h c (hsub hc)

theorem plain_replicate (n : Nat) (hc : ¬ Special c) : Plain (List.replicate n c) := by
  intro d hd
  rwa [List.eq_of_mem_replicate hd]

theorem plain_digits (n : Nat) : Plain (Nat.toDigits 10 n) := by
  intro c hc
  have hdigit : c.isDigit := Nat.isDigit_of_mem_toDigits (by decide) (by decide) hc
  rintro (rfl | rfl | rfl | rfl) <;> cases hdigit

theorem plain_toString (n : Nat) : Plain (toString n).toList := by
  rw [Nat.toString_eq_repr, Nat.toList_repr]
  exact plain_digits n

open Decimal

theorem plain_positional (n : Nat) (whole : Int) :
    Plain (positionalText false (Nat.toDigits 10 n) whole) := by
  have hdigits := plain_digits n
  have hzeros (k : Nat) : Plain (List.replicate k '0') := plain_replicate k (by decide)
  unfold positionalText
  simp only [Bool.false_eq_true, if_false]
  split_ifs
  · exact (((hzeros _).append hdigits).cons (by decide)).cons (by decide)
  · exact (hdigits.subset (List.take_subset ..)).append
      ((hdigits.subset (List.drop_subset ..)).cons (by decide))
  · exact (hdigits.append (hzeros _)).append (by decide)

theorem plain_fixedDigits (places units : Nat) : Plain (fixedDigits places units) := by
  have hpadded : Plain (List.replicate (places + 1 - (Nat.toDigits 10 units).length) '0' ++
      Nat.toDigits 10 units) := (plain_replicate _ (by decide)).append (plain_digits units)
  exact (hpadded.subset (List.take_subset ..)).append
    ((hpadded.subset (List.drop_subset ..)).cons (by decide))

theorem Plain.withSign (h : Plain cs) (x : Float) : Plain (withSign x cs) := by
  rw [Decimal.withSign]
  split_ifs
  · exact h.cons (by decide)
  · exact h

theorem plain_render (x : Float) : Plain (plain.render x).toList := by
  rw [Layout.render]
  split_ifs
  · decide
  · rw [String.toList_ofList]
    exact Plain.withSign (by decide) x
  · rw [String.toList_ofList]
    exact (plain_positional _ _).withSign x

theorem plain_fixed (places : Nat) (x : Float) : Plain (fixed places x).toList := by
  rw [fixed]
  split_ifs
  · decide
  · rw [String.toList_ofList]
    exact Plain.withSign (by decide) x
  · rw [String.toList_ofList]
    exact (plain_fixedDigits _ _).withSign x

end Linkage.Report
