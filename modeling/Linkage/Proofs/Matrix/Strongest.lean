import Linkage.Proofs.Cluster.Strongest
import Linkage.Proofs.Scale.Ranking

/-!
# The ranking of pairs

The strongest pairs are the front of one ranking of all pairs: by their weights from the greatest
down, and by their names where the weights are equal. The pairs are sorted by name before they are
sorted by weight, and sorting keeps the order of equal ones.
-/

namespace Linkage
open Scale

theorem ClassPair.compare_eq_lt_iff {p q : ClassPair} : compare p q = .lt ↔
    Text.Before p.first q.first ∨ p.first = q.first ∧ Text.Before p.second q.second := by
  show (compare p.first q.first).then (compare p.second q.second) = .lt ↔ _
  rw [Ordering.then_eq_lt, Text.before_iff_compare, Text.before_iff_compare, compare_eq_iff_eq]

variable {R : Type} [Scale R]

/-- One entry goes before another: it has a greater weight, or an equal one and lesser names. -/
def PairCoupling.Outranks (p q : PairCoupling R) : Prop :=
  ¬ ranksUpTo p.weight q.weight ∨ p.weight = q.weight ∧ compare p.pair q.pair = .lt

namespace Matrix

variable {m : Matrix}

def ranking (m : Matrix) : List (PairCoupling R) := sortBy PairCoupling.atLeast m.pairs

theorem ranking_perm (m : Matrix) : (m.ranking : List (PairCoupling R)).Perm m.pairs :=
  sortBy_perm _ _

theorem strongestPairs_eq_take (m : Matrix) (n : Nat) :
    (m.strongestPairs n : List (PairCoupling R)) = m.ranking.take n := rfl

theorem compare_pairs_pairwise (h : m.Canonical) :
    (m.pairs : List (PairCoupling R)).Pairwise fun p q => compare p.pair q.pair = .lt :=
  (pairs_sorted h).imp ClassPair.compare_eq_lt_iff.mpr

theorem ranking_pairs_nodup (h : m.Canonical) :
    ((m.ranking : List (PairCoupling R)).map (·.pair)).Nodup := by
  rw [(m.ranking_perm.map _).nodup_iff, List.nodup_iff_pairwise_ne, List.pairwise_map]
  refine (compare_pairs_pairwise h).imp fun {p q} hlt heq => ?_
  rw [heq, ClassPair.compare_eq_lt_iff] at hlt
  rcases hlt with hlt | ⟨-, hlt⟩ <;> exact Std.Asymm.asymm _ _ hlt hlt

theorem ranking_pairwise [LinearScale R] (h : m.Canonical) :
    (m.ranking : List (PairCoupling R)).Pairwise PairCoupling.Outranks := by
  have hranking : IsRanking (PairCoupling.atLeast : PairCoupling R → _ → Bool) :=
    isRanking_descending PairCoupling.weight
  refine (hranking.sortBy_pairwise_of_pairwise (compare_pairs_pairwise h)).imp ?_
  intro p q hpq
  by_cases hback : ranksUpTo p.weight q.weight
  · exact Or.inr ⟨LinearScale.ranks_antisymm _ _ hback hpq.1, hpq.2 hback⟩
  · exact Or.inl hback

theorem outranks_of_left_out [LinearScale R] (h : m.Canonical) {n : Nat} {p q : PairCoupling R}
    (hp : p ∈ m.strongestPairs n) (hq : q ∈ m.pairs) (hleft : q ∉ m.strongestPairs n) :
    p.Outranks q := by
  have hmem : q ∈ m.ranking := m.ranking_perm.mem_iff.mpr hq
  rw [← List.take_append_drop n m.ranking, List.mem_append] at hmem
  exact pairwise_take_drop (ranking_pairwise h) n p hp q (hmem.resolve_left hleft)

/-- Where shares are ranked as they compare, the weights of entries are, too. -/
theorem outranks_iff [LawfulScale R] [LinearScale R] (h : m.WellFormed)
    (hcounted : ∀ e ∈ m.pairCounts, m.Counted e.2) (hranks : m.SharesRank R)
    {p q : PairCoupling R} (hp : p ∈ m.pairs) (hq : q ∈ m.pairs) : p.Outranks q ↔
      less q.weight p.weight ∨ p.weight = q.weight ∧ compare p.pair q.pair = .lt := by
  have hcompares {r s : PairCoupling R} (hr : r ∈ m.pairs) (hs : s ∈ m.pairs) :
      ranksUpTo r.weight s.weight ↔ atMost r.weight s.weight := by
    rw [pairs_eq_map h] at hr hs
    obtain ⟨d, hd, rfl⟩ := List.mem_map.mp hr
    obtain ⟨e, he, rfl⟩ := List.mem_map.mp hs
    exact hranks.ranks_iff d.2 e.2 (hcounted d hd) (hcounted e he)
  have hnumber {r : PairCoupling R} (hr : r ∈ m.pairs) : IsNumber r.weight :=
    (hcompares hr hr).mp (ranksUpTo_refl r.weight)
  rw [PairCoupling.Outranks, hcompares hp hq, LawfulScale.less_iff, and_iff_right (hnumber hq),
    and_iff_right (hnumber hp)]

/-- The strongest pairs are as many as are asked for, different ones, in the order of their ranking,
and each outranks all that are left out. The more are asked for, the more follow. Where all
invocations can be counted in 64 bits, the ranking compares weights as doubles. -/
theorem strongest_pairs_lead (events : List Event) (n : Nat) :
    let m := ofEvents events
    let pairs : List (PairCoupling Float) := m.pairs
    let top : List (PairCoupling Float) := m.strongestPairs n
    top.length = min n m.pairTotal ∧ top ⊆ pairs ∧ (top.map (·.pair)).Nodup ∧
    top.Pairwise PairCoupling.Outranks ∧
    (∀ p ∈ top, ∀ q ∈ pairs, q ∉ top → p.Outranks q) ∧
    (∀ k, n ≤ k → top <+: m.strongestPairs k) ∧
    (m.strongestPairs m.pairTotal).Perm pairs ∧
    (m.total < 2 ^ 64 → ∀ p ∈ pairs, ∀ q ∈ pairs, p.Outranks q ↔
      q.weight < p.weight ∨ p.weight = q.weight ∧ compare p.pair q.pair = .lt) := by
  intro m pairs top
  have h : m.Canonical := ofEvents_canonical events
  have hwf := h.toWellFormed
  have htop : top.Sublist m.ranking := List.take_sublist n _
  have hlength : top.length = min n m.pairTotal := by
    rw [← length_pairs (R := Float) hwf]
    exact length_take_sortBy _ _ n
  have hall : m.strongestPairs m.pairTotal = (m.ranking : List (PairCoupling Float)) := by
    rw [strongestPairs_eq_take, List.take_of_length_le]
    rw [m.ranking_perm.length_eq, length_pairs hwf]
  refine ⟨hlength, fun p => mem_pairs_of_mem_strongestPairs,
    (ranking_pairs_nodup h).sublist (htop.map _), (ranking_pairwise h).sublist htop,
    fun p hp q => outranks_of_left_out h hp, fun k hk => List.take_prefix_take_left hk,
    hall ▸ m.ranking_perm, fun htotal p hp q hq => ?_⟩
  have hcounted : ∀ e ∈ m.pairCounts, m.Counted e.2 := fun e he =>
    ⟨hwf.count_pos e he, pairCounts_le_total events e he⟩
  have hless : less q.weight p.weight ↔ q.weight < p.weight := decide_eq_true_iff
  rw [← hless]
  exact outranks_iff hwf hcounted (sharesRank_of_total_lt htotal) hp hq

/-- Of two pairs with one invocation each, the one of the lesser names is the second strongest. -/
theorem strongest_pairs_lead_of_tie :
    let events : List Event := [⟨"F", "E"⟩, ⟨"C", "D"⟩, ⟨"B", "A"⟩, ⟨"D", "C"⟩]
    let m := ofEvents events
    let top : List (PairCoupling Float) := m.strongestPairs 2
    top.map (·.pair) = [⟨"C", "D"⟩, ⟨"A", "B"⟩] ∧ top.length = 2 ∧
      top.Pairwise PairCoupling.Outranks ∧ top <+: m.strongestPairs 3 := by
  intro events m top
  obtain ⟨hlength, -, -, hpairwise, -, hprefix, -, -⟩ := strongest_pairs_lead events 2
  have htotal : m.pairTotal = 3 := by decide +kernel
  rw [show (ofEvents events).pairTotal = 3 from htotal] at hlength
  exact ⟨by decide +kernel, hlength, hpairwise, hprefix 3 (by decide)⟩

end Matrix

end Linkage
