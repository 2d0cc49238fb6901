import Linkage.Proofs.Cluster.History
import Linkage.Proofs.Cluster.Outcome
import Linkage.Proofs.Cluster.Weighted

/-!
# Couplings descend

Measured in fractions, no merge is coupled more strongly than the one before it. The groups that are
merged are the most coupled ones, and to any third group the merged one is coupled as strongly as
the mean of the two were, so that no pair of groups is coupled more strongly afterwards.
-/

namespace Linkage
open Scale

section candidates

variable {R : Type} [Scale R] {w : Weights R} {groups : List Group} {c : Candidate R}

/-- What holds between any two groups, in either order, holds after a merge if it holds between the
merged group and the others. -/
theorem Candidate.Of.pairwise_join {r : Group → Group → Prop} (hc : c.Of w groups)
    (hsymm : ∀ {a b}, r a b → r b a)
    (hmerged : ∀ g, r c.into g → r c.absorbed g → r (c.into ++ c.absorbed) g)
    (hpairs : groups.Pairwise r) : (c.join groups).Pairwise r := by
  obtain ⟨others, hgroups, hjoin⟩ := hc.join_perm
  rw [hjoin.pairwise_iff hsymm]
  rw [hgroups.pairwise_iff hsymm, List.pairwise_cons, List.pairwise_cons] at hpairs
  obtain ⟨hinto, habsorbed, hothers⟩ := hpairs
  refine List.pairwise_cons.mpr ⟨fun g hg => ?_, hothers⟩
  exact hmerged g (hinto g (List.mem_cons_of_mem _ hg)) (habsorbed g hg)

end candidates

namespace Matrix

variable {m : Matrix} {groups last : List Group} {c : Candidate Rat} {goesOn : Guard Rat}
  {made : List (Candidate Rat)}

/-- No two groups are coupled more strongly than `x`. -/
def CoupledUpTo (m : Matrix) (groups : List Group) (x : Rat) : Prop :=
  groups.Pairwise fun a b => average m.weightAt a b ≤ x

theorem coupledUpTo_iff {x : Rat} : m.CoupledUpTo groups x ↔
    ∀ c : Candidate Rat, c.Of m.weightAt groups → c.coupling ≤ x :=
  Candidate.pairwise_average_iff (P := fun y => y ≤ x)

theorem coupledUpTo_choice (hc : mostCoupled? m.weightAt groups = some c) :
    m.CoupledUpTo groups c.coupling := by
  refine coupledUpTo_iff.mpr fun d hd => ?_
  exact of_decide_eq_true (mostCoupled?_greatest (fun e _ => Fraction.isNumber e.coupling) hc hd).1

theorem CoupledUpTo.choice_le {x : Rat} (h : m.CoupledUpTo groups x)
    (hc : mostCoupled? m.weightAt groups = some c) : c.coupling ≤ x :=
  coupledUpTo_iff.mp h c (mostCoupled?_of hc)

theorem CoupledUpTo.join {x : Rat} (h : m.CoupledUpTo groups x) (hc : c.Of m.weightAt groups) :
    m.CoupledUpTo (c.join groups) x := by
  refine hc.pairwise_join (fun hab => ?_) (fun g hinto habsorbed => ?_) h
  · rwa [m.average_comm]
  · exact average_append_mem Set.ordConnected_Iic hinto habsorbed

theorem le_of_coupledUpTo (hrun : MergeRun m.weightAt goesOn groups made last) {x : Rat}
    (h : m.CoupledUpTo groups x) (hc : c ∈ made) : c.coupling ≤ x := by
  obtain ⟨gs, hgs, hchoice, -⟩ := (hrun.invariant (P := fun gs => m.CoupledUpTo gs x)
    (fun _ _ hgs hd _ => hgs.join (mostCoupled?_of hd)) h).2 c hc
  exact hgs.choice_le hchoice

theorem couplings_descend (hrun : MergeRun m.weightAt goesOn groups made last) :
    (made.map Candidate.coupling).Pairwise (· ≥ ·) := by
  induction hrun with
  | stop groups => exact List.Pairwise.nil
  | merge hc _ hrest ih =>
    -- The coupling of the choice bounds all the others, before the merge and so after it.
    refine List.pairwise_cons.mpr ⟨fun x hx => ?_, ih⟩
    obtain ⟨d, hd, rfl⟩ := List.mem_map.mp hx
    exact le_of_coupledUpTo hrest ((coupledUpTo_choice hc).join (mostCoupled?_of hc)) hd

theorem coupledUpTo_thresholdPhase (h : m.WellFormed) (threshold : Rat) :
    m.CoupledUpTo (m.thresholdPhase threshold).groups threshold :=
  (thresholdPhase_pairwise h m.meansPositive_rat threshold).imp of_decide_eq_true

theorem map_coupling_stepsOf {R : Type} (m : Matrix) (phase : Phase) (done : Nat)
    (made : List (Candidate R)) :
    (m.stepsOf phase done made).map MergeStep.coupling = made.map Candidate.coupling := by
  have hfst := congrArg (List.map Candidate.coupling) (List.zipIdx_map_fst (done + 1) made)
  rw [List.map_map] at hfst
  rw [stepsOf, List.map_map]
  exact hfst

theorem steps_descend (h : m.WellFormed) (threshold : Rat) (centralCount : Nat) :
    ((m.cluster threshold centralCount).steps.map MergeStep.coupling).Pairwise (· ≥ ·) := by
  rw [cluster_steps threshold h, List.map_append, map_coupling_stepsOf, map_coupling_stepsOf,
    ← List.map_append]
  exact couplings_descend (m.whole_run threshold)

theorem le_of_cardinality (h : m.WellFormed) (threshold : Rat) (centralCount : Nat)
    {s : MergeStep Rat} (hs : s ∈ (m.cluster threshold centralCount).steps)
    (hphase : s.phase = .cardinality) : s.coupling ≤ threshold := by
  have hs := mem_cardinality_steps threshold centralCount h hs hphase
  have hcoupling := List.mem_map_of_mem (f := MergeStep.coupling) hs
  rw [map_coupling_stepsOf] at hcoupling
  obtain ⟨d, hd, heq⟩ := List.mem_map.mp hcoupling
  rw [← heq]
  exact le_of_coupledUpTo (m.cardinalityPhase_run threshold)
    (coupledUpTo_thresholdPhase h threshold) hd

/-- The couplings of the recorded steps never increase, over both phases, and no forced merge is
coupled more strongly than the threshold. -/
theorem couplings_never_increase (events : List Event) (threshold : Rat) (centralCount : Nat) :
    let o := (ofEvents events).cluster threshold centralCount
    (o.steps.map MergeStep.coupling).Pairwise (· ≥ ·) ∧
      ∀ s ∈ o.steps, s.phase = .cardinality → s.coupling ≤ threshold := by
  intro o
  have h : (ofEvents events).WellFormed := ofEvents_wellFormed events
  exact ⟨steps_descend h threshold centralCount,
    fun s hs hphase => le_of_cardinality h threshold centralCount hs hphase⟩

end Matrix

end Linkage
