import Linkage.Proofs.Cluster.Partition

/-!
# Runs of merges

A run is a sequence of merges, each of the groups chosen at that point and each allowed by a guard.
The loop of a phase makes a run and stops only where its guard allows no more. As the choice
depends on nothing but the groups, of two runs from the same groups one continues the other,
whatever their guards.
-/

namespace Linkage
open Scale

variable {R : Type} [Scale R]

/-- Says whether the groups may be merged that have a certain coupling. -/
abbrev Guard (R : Type) := List Group → R → Bool

/-- The merges made from the first groups on, and the last groups. -/
inductive MergeRun (w : Weights R) (goesOn : Guard R) :
    List Group → List (Candidate R) → List Group → Prop
  | stop (groups : List Group) : MergeRun w goesOn groups [] groups
  | merge {groups last : List Group} {c : Candidate R} {made : List (Candidate R)}
      (choice : mostCoupled? w groups = some c) (allowed : goesOn groups c.coupling)
      (rest : MergeRun w goesOn (c.join groups) made last) :
      MergeRun w goesOn groups (c :: made) last

/-- The guard allows no further merge. -/
def Ended (w : Weights R) (goesOn : Guard R) (groups : List Group) : Prop :=
  ∀ c, mostCoupled? w groups = some c → goesOn groups c.coupling = false

variable {w : Weights R} {goesOn goesOn' : Guard R} {groups last last' : List Group}
  {made made' : List (Candidate R)}

theorem mergeWhile_run (w : Weights R) (goesOn : Guard R) (fuel : Nat) (groups : List Group) :
    MergeRun w goesOn groups (mergeWhile w goesOn fuel groups).made
      (mergeWhile w goesOn fuel groups).groups := by
  induction fuel generalizing groups with
  | zero => exact MergeRun.stop groups
  | succ fuel ih =>
    rw [mergeWhile]
    split
    · exact MergeRun.stop groups
    · rename_i c hc
      split
      · rename_i hgo
        exact MergeRun.merge hc hgo (ih _)
      · exact MergeRun.stop groups

/-- Every merge leaves one group less, so the loop never runs out of fuel. -/
theorem mergeWhile_ended (w : Weights R) (goesOn : Guard R) {fuel : Nat} {groups : List Group}
    (hfuel : groups.length ≤ fuel) : Ended w goesOn (mergeWhile w goesOn fuel groups).groups := by
  induction fuel generalizing groups with
  | zero =>
    intro c hc
    have htwo := two_le_length (mostCoupled?_of hc)
    rw [mergeWhile] at htwo
    simp only at htwo
    omega
  | succ fuel ih =>
    rw [mergeWhile]
    split
    · rename_i hc
      intro c hc'
      rw [hc] at hc'
      cases hc'
    · rename_i c hc
      split
      · have hlength := (mostCoupled?_of hc).length_join
        exact ih (by omega)
      · rename_i hgo
        intro c' hc'
        rw [hc] at hc'
        rw [← Option.some.inj hc']
        exact Bool.eq_false_iff.mpr hgo

namespace MergeRun

/-- What every merge keeps, holds before every merge of a run and after the last. -/
theorem invariant {P : List Group → Prop} (h : MergeRun w goesOn groups made last)
    (hstep : ∀ gs c, P gs → mostCoupled? w gs = some c → goesOn gs c.coupling → P (c.join gs))
    (hfirst : P groups) :
    P last ∧ ∀ c ∈ made, ∃ gs, P gs ∧ mostCoupled? w gs = some c ∧ goesOn gs c.coupling := by
  induction h with
  | stop groups => exact ⟨hfirst, nofun⟩
  | merge hc hgo _ ih =>
    obtain ⟨hlast, hmade⟩ := ih (hstep _ _ hfirst hc hgo)
    refine ⟨hlast, fun d hd => ?_⟩
    rcases List.mem_cons.mp hd with rfl | hd
    · exact ⟨_, hfirst, hc, hgo⟩
    · exact hmade d hd

theorem partition (h : MergeRun w goesOn groups made last) {n : Nat}
    (hfirst : Partition n groups) : Partition n last :=
  (h.invariant (fun _ _ hp hc _ => hp.join (mostCoupled?_of hc)) hfirst).1

theorem length_add (h : MergeRun w goesOn groups made last) :
    last.length + made.length = groups.length := by
  induction h with
  | stop groups => rfl
  | merge hc _ _ ih =>
    have hlength := (mostCoupled?_of hc).length_join
    rw [List.length_cons]
    omega

theorem eq_of_no_merges (h : MergeRun w goesOn groups [] last) : last = groups := by
  cases h with
  | stop groups => rfl

theorem choice_first {c : Candidate R} (h : MergeRun w goesOn groups (c :: made) last) :
    mostCoupled? w groups = some c := by
  cases h with
  | merge hc => exact hc

/-- Groups only grow. -/
theorem subset (h : MergeRun w goesOn groups made last) {g : Group} (hg : g ∈ groups) :
    ∃ g' ∈ last, g ⊆ g' := by
  induction h generalizing g with
  | stop groups => exact ⟨g, hg, List.Subset.refl g⟩
  | merge hc _ _ ih =>
    obtain ⟨g', hg', hsub⟩ := (mostCoupled?_of hc).subset_join hg
    obtain ⟨g'', hg'', hsub'⟩ := ih hg'
    exact ⟨g'', hg'', List.Subset.trans hsub hsub'⟩

theorem mono (h : MergeRun w goesOn groups made last)
    (himp : ∀ gs x, goesOn gs x → goesOn' gs x) : MergeRun w goesOn' groups made last := by
  induction h with
  | stop groups => exact stop groups
  | merge hc hgo _ ih => exact merge hc (himp _ _ hgo) ih

theorem append {middle : List Group} (h : MergeRun w goesOn groups made middle)
    (h' : MergeRun w goesOn middle made' last) :
    MergeRun w goesOn groups (made ++ made') last := by
  induction h with
  | stop groups => exact h'
  | merge hc hgo _ ih => exact merge hc hgo (ih h')

/-- Of two runs from the same groups one continues the other. -/
theorem continues (h : MergeRun w goesOn groups made last)
    (h' : MergeRun w goesOn' groups made' last') :
    (∃ rest, made = made' ++ rest ∧ MergeRun w goesOn last' rest last) ∨
      ∃ rest, made' = made ++ rest ∧ MergeRun w goesOn' last rest last' := by
  induction h' generalizing made with
  | stop groups => exact Or.inl ⟨made, rfl, h⟩
  | merge hc hgo hrest ih =>
    cases h with
    | stop groups => exact Or.inr ⟨_, rfl, merge hc hgo hrest⟩
    | merge hc' _ hrest' =>
      cases Option.some.inj (hc.symm.trans hc')
      rcases ih hrest' with ⟨rest, rfl, hr⟩ | ⟨rest, rfl, hr⟩
      · exact Or.inl ⟨rest, rfl, hr⟩
      · exact Or.inr ⟨rest, rfl, hr⟩

/-- A run of no more merges is where the other one begins. -/
theorem continues_of_length_le (h : MergeRun w goesOn groups made last)
    (h' : MergeRun w goesOn' groups made' last') (hle : made'.length ≤ made.length) :
    ∃ rest, made = made' ++ rest ∧ MergeRun w goesOn last' rest last := by
  rcases h.continues h' with hcont | ⟨rest, rfl, hrest⟩
  · exact hcont
  · rw [List.length_append] at hle
    cases hrest with
    | stop groups => exact ⟨[], by simp, stop _⟩
    | merge => exact absurd hle (by simp)

/-- A run whose guard allows less makes no more merges than one that has ended. -/
theorem length_le_of_ended (h : MergeRun w goesOn groups made last) (hended : Ended w goesOn last)
    (h' : MergeRun w goesOn' groups made' last') (himp : ∀ gs x, goesOn' gs x → goesOn gs x) :
    made'.length ≤ made.length := by
  rcases h.continues h' with ⟨rest, rfl, -⟩ | ⟨rest, rfl, hrest⟩
  · simp
  · cases hrest with
    | stop groups => simp
    | merge hc hgo =>
      have hgo' := himp _ _ hgo
      rw [hended _ hc] at hgo'
      cases hgo'

end MergeRun

end Linkage
