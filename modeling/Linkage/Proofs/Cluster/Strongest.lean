import Linkage.Proofs.Cluster.Connected
import Linkage.Proofs.Cluster.Finite
import Linkage.Proofs.Scale.Exact

/-!
# The strongest pair

The pair that the ranking of pairs puts first is the one that clustering merges first. At the start
the candidates with a recorded pair are the entries of the matrix, in the same order and with the
same weights, and the others are weaker. So the first one of the strongest entries is the first one
of the most coupled candidates, as long as a weight is the mean of itself alone and weights are
ranked as they compare.
-/

namespace Linkage
open Scale

namespace Matrix

variable {m : Matrix} {R : Type} [Scale R]

/-- A number of invocations between two classes: some, but no more than there are. -/
def Counted (m : Matrix) (n : Nat) : Prop := 0 < n ∧ n ≤ m.total

/-- Shares are the means of themselves alone, and are ranked as they compare. -/
structure SharesRank (m : Matrix) (R : Type) [Scale R] : Prop where
  mean_share : ∀ n, m.Counted n → mean [m.share n] = (m.share n : R)
  ranks_iff : ∀ k n, m.Counted k → m.Counted n →
    (ranksUpTo (m.share k : R) (m.share n) ↔ atMost (m.share k : R) (m.share n))

theorem normal_share (htotal : m.total < 2 ^ 64) {n : Nat} (hn : m.Counted n) :
    Double.Normal (m.share n) := by
  have hlow := Double.atLeast_share htotal hn.1
  have hhigh := ((moderate_share htotal hn.2).bounds (Double.pos_of_atLeast hlow)).2
  exact Double.normal_of_bounds hlow hhigh (by decide)

theorem sharesRank_of_total_lt (htotal : m.total < 2 ^ 64) : m.SharesRank Float where
  mean_share _ hn := (normal_share htotal hn).mean_singleton
  ranks_iff _ _ hk hn := Double.ranksUpTo_iff (normal_share htotal hk) (normal_share htotal hn)

/-- The groups of two classes with a count, as they are at the start. -/
def candidate (m : Matrix) (e : IndexPair × Nat) : Candidate R :=
  ⟨e.1.1, e.1.2, [e.1.1], [e.1.2], m.share e.2⟩

theorem singletons_getElem? {i : Nat} {g : Group} :
    m.singletons[i]? = some g ↔ i < m.classCount ∧ g = [i] := by
  rw [singletons, List.getElem?_map, Option.map_eq_some_iff]
  constructor
  · rintro ⟨k, hk, rfl⟩
    obtain ⟨hi, rfl⟩ := List.getElem?_eq_some_iff.mp hk
    rw [List.length_range] at hi
    exact ⟨hi, by rw [List.getElem_range]⟩
  · rintro ⟨hi, rfl⟩
    exact ⟨i, List.getElem?_range hi, rfl⟩

section entries

variable (h : m.WellFormed) (hcounted : ∀ e ∈ m.pairCounts, m.Counted e.2)
  (hranks : m.SharesRank R) {e : IndexPair × Nat} {c : Candidate R}
include h hcounted hranks

theorem average_entry (he : e ∈ m.pairCounts) :
    average (m.weightAt : Weights R) [e.1.1] [e.1.2] = m.share e.2 := by
  have hkey : indexKey e.1.1 e.1.2 = e.1 := if_pos (Nat.le_of_lt (h.key_lt e he).1)
  have hweight : (m.weightAt e.1.1 e.1.2 : Option R) = some (m.share e.2) :=
    (weightAt_eq_some h).mpr ⟨e.2, by rwa [hkey], rfl⟩
  have hrecorded : recorded (m.weightAt : Weights R) (crossPairs [e.1.1] [e.1.2]) =
      [m.share e.2] := List.filterMap_cons_some hweight
  rw [average, hrecorded, hranks.mean_share _ (hcounted e he)]

theorem candidate_of (he : e ∈ m.pairCounts) :
    (m.candidate e : Candidate R).Of m.weightAt m.singletons := by
  obtain ⟨hlt, hlt'⟩ := h.key_lt e he
  exact ⟨hlt, singletons_getElem?.mpr ⟨hlt.trans hlt', rfl⟩,
    singletons_getElem?.mpr ⟨hlt', rfl⟩, (average_entry h hcounted hranks he).symm⟩

/-- A candidate of coupled classes is an entry. -/
theorem exists_entry (hc : c.Of m.weightAt m.singletons) (hcoupled : m.Coupled c.into c.absorbed) :
    ∃ e ∈ m.pairCounts, c = m.candidate e := by
  obtain ⟨p, q, a, b, x⟩ := c
  obtain ⟨hlt, hinto, habsorbed, hcoupling⟩ := hc
  obtain rfl : a = [p] := (singletons_getElem?.mp hinto).2
  obtain rfl : b = [q] := (singletons_getElem?.mp habsorbed).2
  obtain ⟨i, hi, j, hj, n, hn⟩ := hcoupled
  obtain rfl := List.mem_singleton.mp hi
  obtain rfl := List.mem_singleton.mp hj
  rw [indexKey, if_pos (Nat.le_of_lt hlt)] at hn
  obtain rfl : x = m.share n := hcoupling.trans (average_entry h hcounted hranks hn)
  exact ⟨_, hn, rfl⟩

end entries

section choice

variable [LawfulScale R] (h : m.Canonical) (hmeans : m.MeansPositive R)
  (hcounted : ∀ e ∈ m.pairCounts, m.Counted e.2) (hranks : m.SharesRank R)
include h hmeans hcounted hranks

/-- The first choice is an entry. -/
theorem exists_entry_of_choice (hne : m.pairCounts ≠ []) :
    ∃ e ∈ m.pairCounts,
      mostCoupled? m.weightAt m.singletons = some (m.candidate e : Candidate R) := by
  have hwf := h.toWellFormed
  obtain ⟨e, he⟩ := List.exists_mem_of_ne_nil _ hne
  have hof := candidate_of hwf hcounted hranks he
  obtain ⟨c, hc⟩ := exists_mostCoupled? (R := R) (w := m.weightAt) (two_le_length hof)
  have hpair : m.HasPair e.1.1 e.1.2 :=
    ⟨e.2, by rwa [indexKey, if_pos (Nat.le_of_lt (hwf.key_lt e he).1)]⟩
  have hcoupled := coupled_of_choice hwf hmeans (Partition.singletons m) hc hof.lt hof.into_at
    hof.absorbed_at ⟨_, List.mem_singleton_self _, _, List.mem_singleton_self _, hpair⟩
  obtain ⟨e', he', rfl⟩ := exists_entry hwf hcounted hranks (mostCoupled?_of hc) hcoupled
  exact ⟨e', he', hc⟩

/-- The entry chosen first is the one ranked first. -/
theorem strongestPairs_one {e : IndexPair × Nat} (he : e ∈ m.pairCounts)
    (hc : mostCoupled? m.weightAt m.singletons = some (m.candidate e : Candidate R)) :
    m.strongestPairs 1 = [(m.entry e : PairCoupling R)] := by
  have hwf := h.toWellFormed
  have hgreatest {d : IndexPair × Nat} (hd : d ∈ m.pairCounts) :=
    mostCoupled?_greatest (fun c hc => isNumber_coupling hwf hmeans (Partition.singletons m) hc) hc
      (candidate_of hwf hcounted hranks hd)
  obtain ⟨earlier, later, hsplit⟩ := List.append_of_mem he
  have hmem : ∀ d ∈ earlier ++ e :: later, d ∈ m.pairCounts := fun d hd => hsplit ▸ hd
  have hsorted := h.pairs_sorted
  rw [hsplit, List.pairwise_append] at hsorted
  have hearlier : ∀ d ∈ earlier, PairCoupling.atLeast (m.entry d) (m.entry e : PairCoupling R) =
      false := by
    intro d hd
    have hd' := hmem d (List.mem_append_left _ hd)
    have hlt := hsorted.2.2 d hd e (List.mem_cons_self ..)
    simp only [IndexPair.compare, compareLex, compareOn, Ordering.then_eq_lt, compare_lt_iff_lt,
      compare_eq_iff_eq] at hlt
    have hless := (hgreatest hd').2 hlt
    refine Bool.eq_false_iff.mpr fun hranked => not_atMost_of_less hless ?_
    exact (hranks.ranks_iff e.2 d.2 (hcounted e he) (hcounted d hd')).mp hranked
  have hlater : ∀ d ∈ later, PairCoupling.atLeast (m.entry e) (m.entry d : PairCoupling R) =
      true := by
    intro d hd
    have hd' := hmem d (List.mem_append_right _ (List.mem_cons_of_mem e hd))
    exact (hranks.ranks_iff d.2 e.2 (hcounted d hd') (hcounted e he)).mpr (hgreatest hd').1
  have hhead := head?_sortBy (List.forall_mem_map.mpr hearlier) (List.forall_mem_map.mpr hlater)
  rw [strongestPairs, List.take_one, pairs_eq_map hwf, hsplit, List.map_append, List.map_cons,
    hhead]
  rfl

end choice

/-- The first step is that of the first choice, whichever phase makes it. -/
theorem steps_of_choice (h : m.WellFormed) (threshold : R) (centralCount : Nat) {c : Candidate R}
    (hc : mostCoupled? m.weightAt m.singletons = some c)
    (hsteps : (m.cluster threshold centralCount).steps ≠ []) : ∃ phase rest,
      (m.cluster threshold centralCount).steps =
        ⟨1, phase, m.namesOf c.into, m.namesOf c.absorbed, c.coupling⟩ :: rest := by
  have hfirst := m.thresholdPhase_run threshold
  have hsecond := m.cardinalityPhase_run threshold
  rw [cluster_steps threshold h] at hsteps ⊢
  cases hmade : (m.thresholdPhase threshold).made with
  | cons d made =>
    rw [hmade] at hfirst
    cases Option.some.inj (hc.symm.trans hfirst.choice_first)
    exact ⟨_, _, rfl⟩
  | nil =>
    rw [hmade] at hfirst hsteps
    rw [hfirst.eq_of_no_merges] at hsecond
    cases hmade' : (m.cardinalityPhase threshold).made with
    | cons d made =>
      rw [hmade'] at hsecond
      cases Option.some.inj (hc.symm.trans hsecond.choice_first)
      exact ⟨_, _, rfl⟩
    | nil =>
      rw [hmade'] at hsteps
      exact absurd rfl hsteps

theorem steps_ne_nil (h : m.WellFormed) (hclasses : 2 ≤ m.classCount) (threshold : R)
    (centralCount : Nat) : (m.cluster threshold centralCount).steps ≠ [] := by
  have hadd := length_clusters_add_steps threshold centralCount h
  have hle := (length_clusters_bounds threshold centralCount h hclasses).2
  refine List.ne_nil_of_length_pos ?_
  omega

theorem namesOf_singleton {i : Nat} (hi : i < m.classCount) : m.namesOf [i] = [m.nameAt i] :=
  List.filterMap_cons_some (class?_eq_nameAt hi)

/-- Whatever the threshold, the first step of clustering merges the two classes of the strongest
pair, and of equally strong pairs both take the same one. -/
theorem first_step_joins_strongest (events : List Event)
    (htotal : (ofEvents events).total < 2 ^ 64) (hne : (ofEvents events).pairTotal ≠ 0)
    (threshold : Float) (centralCount : Nat) :
    let m := ofEvents events
    ∃ first rest strongest, (m.cluster threshold centralCount).steps = first :: rest ∧
      m.strongestPairs 1 = [strongest] ∧ first.step = 1 ∧
      first.into = [strongest.pair.first] ∧ first.absorbed = [strongest.pair.second] ∧
      first.coupling = strongest.weight := by
  intro m
  have h : m.Canonical := ofEvents_canonical events
  have hwf := h.toWellFormed
  have hmeans : m.MeansPositive Float := meansPositive_of_total_lt hwf htotal
  have hcounted : ∀ e ∈ m.pairCounts, m.Counted e.2 := fun e he =>
    ⟨hwf.count_pos e he, pairCounts_le_total events e he⟩
  have hranks : m.SharesRank Float := sharesRank_of_total_lt htotal
  obtain ⟨e, he, hc⟩ := exists_entry_of_choice h hmeans hcounted hranks
    fun hnil => hne (congrArg List.length hnil)
  obtain ⟨hlt, hlt'⟩ := hwf.key_lt e he
  obtain ⟨phase, rest, hsteps⟩ := steps_of_choice hwf threshold centralCount hc
    (steps_ne_nil hwf (by omega) threshold centralCount)
  exact ⟨_, rest, m.entry e, hsteps, strongestPairs_one h hmeans hcounted hranks he hc, rfl,
    namesOf_singleton (hlt.trans hlt'), namesOf_singleton hlt', rfl⟩

/-- Two pairs with two invocations each, at a threshold that is no number. -/
theorem first_step_joins_strongest_of_tie :
    let m := ofEvents [⟨"D", "C"⟩, ⟨"B", "D"⟩, ⟨"C", "D"⟩, ⟨"B", "A"⟩, ⟨"A", "B"⟩]
    m.total < 2 ^ 64 ∧ m.pairTotal ≠ 0 ∧ ∃ first rest strongest,
      (m.cluster (0.0 / 0.0 : Float) 5).steps = first :: rest ∧ first.into = ["A"] ∧
      first.absorbed = ["B"] ∧ m.strongestPairs 1 = [strongest] ∧
      strongest.pair = ⟨"A", "B"⟩ ∧ first.coupling = strongest.weight := by
  intro m
  have htotal : m.total < 2 ^ 64 := by decide +kernel
  have hne : m.pairTotal ≠ 0 := by decide +kernel
  have hranked : (m.strongestPairs 1 : List (PairCoupling Float)).map (·.pair) = [⟨"A", "B"⟩] := by
    decide +kernel
  obtain ⟨first, rest, strongest, hsteps, hstrongest, -, hinto, habsorbed, hcoupling⟩ :=
    first_step_joins_strongest
      [⟨"D", "C"⟩, ⟨"B", "D"⟩, ⟨"C", "D"⟩, ⟨"B", "A"⟩, ⟨"A", "B"⟩] htotal hne (0.0 / 0.0) 5
  rw [hstrongest] at hranked
  have hpair : strongest.pair = ⟨"A", "B"⟩ := List.singleton_inj.mp hranked
  rw [hpair] at hinto habsorbed
  exact ⟨htotal, hne, first, rest, strongest, hsteps, hinto, habsorbed, hstrongest, hpair,
    hcoupling⟩

end Matrix

end Linkage
