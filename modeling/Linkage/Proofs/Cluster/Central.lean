import Linkage.Proofs.Cluster.Outcome
import Linkage.Proofs.Scale.Ranking

/-!
# Central classes

The central members of a group are those that are coupled to it most strongly, members of equal
strength in the order of the group. How many are asked for only decides where their list ends. So
the central classes of a cluster are different members of it, and all of them if enough are asked
for.
-/

namespace Linkage
open Scale

variable {R : Type} [Scale R] (w : Weights R) (members : Group)

def byStrength : Group :=
  sortBy (fun x y => ranksUpTo (strength w members y) (strength w members x)) members

theorem central_eq_take (n : Nat) : central w members n = (byStrength w members).take n := by
  unfold central byStrength
  dsimp only
  rw [sortBy_map, ← List.map_take, List.map_map]
  exact List.map_id _

theorem length_central (n : Nat) : (central w members n).length = min n members.length := by
  rw [central_eq_take, byStrength, length_take_sortBy]

theorem central_append_drop_perm (n : Nat) :
    (central w members n ++ (byStrength w members).drop n).Perm members := by
  rw [central_eq_take, List.take_append_drop]
  exact sortBy_perm _ members

theorem central_prefix {n k : Nat} (h : n ≤ k) : central w members n <+: central w members k := by
  rw [central_eq_take, central_eq_take]
  exact List.take_prefix_take_left h

variable [LinearScale R]

theorem byStrength_pairwise : (byStrength w members).Pairwise fun x y =>
    ranksUpTo (strength w members y) (strength w members x) :=
  (isRanking_descending (strength w members)).sortBy_pairwise members

/-- Of the members of one strength the first ones are central. -/
theorem filter_central_prefix [DecidableEq R] (n : Nat) (s : R) :
    ((central w members n).filter fun x => strength w members x = s) <+:
      members.filter fun x => strength w members x = s := by
  have hsorted : ((byStrength w members).filter fun x => strength w members x = s) =
      members.filter fun x => strength w members x = s := by
    refine filter_sortBy (fun x y hx hy => ?_) members
    rw [of_decide_eq_true hx, of_decide_eq_true hy]
    exact ranksUpTo_refl s
  rw [← hsorted, central_eq_take]
  exact (List.take_prefix n _).filter _

namespace Matrix

variable {m : Matrix}

omit [LinearScale R] in
/-- The central classes of a cluster are some of its members, as many as are asked for. -/
theorem cluster_central (h : m.WellFormed) {threshold : R} {centralCount : Nat} {c : Cluster R}
    (hc : c ∈ (m.cluster threshold centralCount).clusters) :
    c.central.length = min centralCount c.size ∧ c.central.Nodup ∧ c.central ⊆ c.members ∧
      (c.size ≤ centralCount → c.central.Perm c.members) := by
  obtain ⟨g, hg, id, rfl⟩ := mem_cluster_clusters threshold centralCount h hc
  have hp := m.cardinalityPhase_partition threshold
  have hlt : ∀ i ∈ g, i < m.classCount := fun i hi => hp.lt hg hi
  let w : Weights R := m.weightAt
  have hperm := central_append_drop_perm w g centralCount
  have hsubset : central w g centralCount ⊆ g := fun i hi =>
    hperm.mem_iff.mp (List.mem_append_left _ hi)
  have hlength : (m.namesOf (central w g centralCount)).length = min centralCount g.length := by
    rw [length_namesOf fun i hi => hlt i (hsubset hi), length_central]
  have hnodup : g.Nodup := (List.nodup_flatten.mp hp.nodup_flatten).1 g hg
  have hcentral : (central w g centralCount).Nodup :=
    (List.nodup_append.mp (hperm.nodup_iff.mpr hnodup)).1
  refine ⟨hlength, nodup_namesOf h hcentral, List.filterMap_subset _ hsubset, fun hle => ?_⟩
  -- Nothing is left over where the whole group is asked for.
  have hall : central w g centralCount = byStrength w g := by
    rw [central_eq_take, List.take_of_length_le]
    rw [byStrength, (sortBy_perm _ g).length_eq]
    exact hle
  have hsorted : (central w g centralCount).Perm g := by
    rw [hall]
    exact sortBy_perm _ g
  exact hsorted.filterMap _

/-- The central members of any list are as many as are asked for, of its strongest, in the order of
their strength and then of the list, and those of a cluster are different members of it. -/
theorem central_are_strongest [DecidableEq R] (events : List Event) (members : Group) (n : Nat) :
    let m := ofEvents events
    let w : Weights R := m.weightAt
    let chosen := central w members n
    chosen.length = min n members.length ∧
    (∃ rest, (chosen ++ rest).Perm members ∧ ∀ x ∈ chosen, ∀ y ∈ rest,
      ranksUpTo (strength w members y) (strength w members x)) ∧
    (chosen.Pairwise fun x y => ranksUpTo (strength w members y) (strength w members x)) ∧
    (∀ s, (chosen.filter fun x => strength w members x = s) <+:
      members.filter fun x => strength w members x = s) ∧
    (∀ k, n ≤ k → chosen <+: central w members k) ∧
    ∀ (threshold : R) (centralCount : Nat), ∀ c ∈ (m.cluster threshold centralCount).clusters,
      c.central.length = min centralCount c.size ∧ c.central.Nodup ∧ c.central ⊆ c.members ∧
        (c.size ≤ centralCount → c.central.Perm c.members) := by
  intro m w chosen
  have hsorted := byStrength_pairwise w members
  have hchosen : chosen = (byStrength w members).take n := central_eq_take w members n
  refine ⟨length_central w members n, ⟨_, central_append_drop_perm w members n, ?_⟩, ?_,
    filter_central_prefix w members n, fun k => central_prefix w members,
    fun threshold centralCount c => cluster_central (ofEvents_wellFormed events)⟩
  · rw [hchosen]
    exact pairwise_take_drop hsorted n
  · rw [hchosen]
    exact hsorted.sublist (List.take_sublist n _)

/-- A list with a class that is there twice and an index of no class, and the clusters of all. -/
theorem central_are_strongest_of_hub :
    let events : List Event := [⟨"Hub", "A"⟩, ⟨"Hub", "B"⟩, ⟨"C", "Hub"⟩, ⟨"A", "B"⟩]
    let m := ofEvents events
    let chosen := central (m.weightAt : Weights Float) [9, 0, 2, 3, 2] 3
    chosen = [3, 0, 2] ∧ chosen.length = 3 ∧
      chosen <+: central (m.weightAt : Weights Float) [9, 0, 2, 3, 2] 4 ∧
      ∀ c ∈ (m.cluster (0.0 : Float) 2).clusters, c.central.length = min 2 c.size ∧
        c.central.Nodup ∧ c.central ⊆ c.members := by
  intro events m chosen
  obtain ⟨hlength, -, -, -, hprefix, hclusters⟩ :=
    central_are_strongest (R := Float) events [9, 0, 2, 3, 2] 3
  refine ⟨by decide +kernel, hlength, hprefix 4 (by decide), fun c hc => ?_⟩
  obtain ⟨hlength, hnodup, hsubset, -⟩ := hclusters 0.0 2 c hc
  exact ⟨hlength, hnodup, hsubset⟩

end Matrix

end Linkage
