import Linkage.Cluster.Merge
import Linkage.Proofs.Ranking
import Linkage.Proofs.Scale.Order
import Mathlib.Data.List.Induction

/-!
# The choice of the groups to merge

The candidates are the groups at any two positions, by the one position and then by the other. The
one that is chosen has the greatest coupling of all, and a greater one than those before it.
-/

namespace Linkage
open Scale

variable {R : Type} [Scale R] {w : Weights R} {groups : List Group} {c d : Candidate R}

namespace Candidate

/-- The candidate pairs the groups at its two positions. -/
structure Of (w : Weights R) (groups : List Group) (c : Candidate R) : Prop where
  lt : c.intoAt < c.absorbedAt
  into_at : groups[c.intoAt]? = some c.into
  absorbed_at : groups[c.absorbedAt]? = some c.absorbed
  coupling_eq : c.coupling = average w c.into c.absorbed

/-- The order of the candidates, by their positions. -/
def Before (c d : Candidate R) : Prop :=
  c.intoAt < d.intoAt ∨ c.intoAt = d.intoAt ∧ c.absorbedAt < d.absorbedAt

theorem mem_all : c ∈ all w groups ↔ c.Of w groups := by
  obtain ⟨i, j, a, b, x⟩ := c
  rw [all, List.mem_map]
  constructor
  · intro hex
    obtain ⟨⟨⟨a, i⟩, ⟨b, j⟩⟩, hp, heq⟩ := hex
    cases heq
    obtain ⟨hij, hi, hj⟩ := mem_pairsOf_zipIdx.mp hp
    exact ⟨hij, hi, hj, rfl⟩
  · intro hex
    obtain ⟨hij, hi, hj, hx⟩ := hex
    exact ⟨((a, i), (b, j)), mem_pairsOf_zipIdx.mpr ⟨hij, hi, hj⟩,
      congrArg (Candidate.mk i j a b) hx.symm⟩

/-- The candidates have the couplings of any two groups. -/
theorem pairwise_average_iff {P : R → Prop} :
    groups.Pairwise (fun a b => P (average w a b)) ↔
      ∀ c : Candidate R, c.Of w groups → P c.coupling := by
  rw [List.pairwise_iff_getElem]
  constructor
  · intro hpairs c hc
    obtain ⟨hi, hinto⟩ := List.getElem?_eq_some_iff.mp hc.into_at
    obtain ⟨hj, habsorbed⟩ := List.getElem?_eq_some_iff.mp hc.absorbed_at
    rw [hc.coupling_eq, ← hinto, ← habsorbed]
    exact hpairs c.intoAt c.absorbedAt hi hj hc.lt
  · intro hall i j hi hj hij
    exact hall ⟨i, j, groups[i], groups[j], average w groups[i] groups[j]⟩
      ⟨hij, List.getElem?_eq_getElem hi, List.getElem?_eq_getElem hj, rfl⟩

theorem all_pairwise (w : Weights R) (groups : List Group) :
    (all w groups).Pairwise Before :=
  List.pairwise_map.mpr (pairsOf_zipIdx_pairwise groups)

omit [Scale R] in
theorem Before.not_before (h : c.Before d) : ¬ d.Before c := by
  unfold Before at *
  omega

theorem foldl_better_mem (c : Candidate R) (cs : List (Candidate R)) :
    cs.foldl better c ∈ c :: cs := by
  induction cs using List.reverseRecOn with
  | nil => exact List.mem_cons_self ..
  | append_singleton cs d ih =>
    rw [List.foldl_append, List.foldl_cons, List.foldl_nil, better]
    split
    · simp
    · exact List.mem_append_left [d] ih

/-- The candidates before the best one are weaker, and those after it are not stronger. -/
theorem foldl_better_split [LawfulScale R] (c : Candidate R) (cs : List (Candidate R))
    (hnum : ∀ d ∈ c :: cs, IsNumber d.coupling) :
    ∃ before after, c :: cs = before ++ cs.foldl better c :: after ∧
      (∀ d ∈ before, less d.coupling (cs.foldl better c).coupling) ∧
      ∀ d ∈ after, atMost d.coupling (cs.foldl better c).coupling := by
  induction cs using List.reverseRecOn with
  | nil => exact ⟨[], [], rfl, nofun, nofun⟩
  | append_singleton cs d ih =>
    obtain ⟨before, after, heq, hbefore, hafter⟩ :=
      ih fun e he => hnum e (List.mem_append_left [d] he)
    have hbest := hnum _ (List.mem_append_left [d] (foldl_better_mem c cs))
    have hd := hnum d (by simp)
    rw [List.foldl_append, List.foldl_cons, List.foldl_nil, better, ← List.cons_append, heq]
    split
    · rename_i hless
      refine ⟨before ++ cs.foldl better c :: after, [], rfl, fun e he => ?_, nofun⟩
      rcases List.mem_append.mp he with he | he
      · exact less_of_less_of_atMost (hbefore e he) (atMost_of_less hless)
      · rcases List.mem_cons.mp he with rfl | he
        · exact hless
        · exact less_of_atMost_of_less (hafter e he) hless
    · rename_i hless
      refine ⟨before, after ++ [d], by simp, hbefore, fun e he => ?_⟩
      rcases List.mem_append.mp he with he | he
      · exact hafter e he
      · rw [List.mem_singleton.mp he]
        exact atMost_of_not_less hbest hd hless

end Candidate

open Candidate

theorem mostCoupled?_of (h : mostCoupled? w groups = some c) : c.Of w groups := by
  unfold mostCoupled? best? at h
  split at h
  · cases h
  · rename_i first rest hall
    cases h
    rw [← mem_all, hall]
    exact foldl_better_mem first rest

theorem exists_mostCoupled? (h : 2 ≤ groups.length) : ∃ c, mostCoupled? w groups = some c := by
  obtain ⟨a, b, rest, rfl⟩ : ∃ a b rest, groups = a :: b :: rest := by
    match groups, h with
    | a :: b :: rest, _ => exact ⟨a, b, rest, rfl⟩
  exact ⟨_, rfl⟩

theorem two_le_length (h : c.Of w groups) : 2 ≤ groups.length := by
  have hlt := h.lt
  have hj := (List.getElem?_eq_some_iff.mp h.absorbed_at).1
  omega

/-- The choice is the first one of the candidates with the greatest coupling. -/
theorem mostCoupled?_greatest [LawfulScale R]
    (hnum : ∀ d : Candidate R, d.Of w groups → IsNumber d.coupling)
    (h : mostCoupled? w groups = some c) (hd : d.Of w groups) :
    atMost d.coupling c.coupling ∧ (d.Before c → less d.coupling c.coupling) := by
  unfold mostCoupled? best? at h
  split at h
  · cases h
  · rename_i first rest hall
    cases h
    have hpairwise := all_pairwise w groups
    rw [← mem_all, hall] at hd
    simp only [← mem_all] at hnum
    rw [hall] at hnum hpairwise
    obtain ⟨before, after, heq, hbefore, hafter⟩ := foldl_better_split first rest hnum
    rw [heq] at hd hpairwise
    obtain ⟨-, hpairwise, -⟩ := List.pairwise_append.mp hpairwise
    rcases List.mem_append.mp hd with hd | hd
    · exact ⟨atMost_of_less (hbefore d hd), fun _ => hbefore d hd⟩
    rcases List.mem_cons.mp hd with rfl | hd
    · exact ⟨hnum _ (foldl_better_mem first rest), fun hself => absurd hself hself.not_before⟩
    · have hlater := (List.pairwise_cons.mp hpairwise).1 d hd
      exact ⟨hafter d hd, fun hearlier => absurd hearlier hlater.not_before⟩

end Linkage
