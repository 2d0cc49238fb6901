import Linkage.Proofs.Cluster.Extremes
import Linkage.Proofs.Text.ByteOrder

/-!
# The order of the clusters

At first there is a group for each class, in the order of the classes. A merge appends a group to an
earlier one, whose first member is less than that of the appended group. So the first member of a
group is always its least, and the groups are always in the order of their first members. The number
of a cluster therefore says how many of the clusters have a lesser first member, which depends on
the classes that are together, but not on the merges that brought them together.
-/

namespace Linkage
open Scale

section lists

variable {α : Type} {before : α → α → Prop} {lists first between last : List (List α)}
  {a b l : List α} {x y : α}

/-- The list begins with `x`, and all its other elements come after `x`. -/
def Leads (before : α → α → Prop) (x : α) (l : List α) : Prop :=
  ∃ rest, l = x :: rest ∧ ∀ y ∈ rest, before x y

/-- Every list begins with its least element, and the lists are in the order of these. -/
structure InOrder (before : α → α → Prop) (lists : List (List α)) : Prop where
  led : ∀ l ∈ lists, ∃ x, Leads before x l
  ascending : (lists.filterMap List.head?).Pairwise before

theorem Leads.head? (h : Leads before x l) : l.head? = some x := by
  obtain ⟨rest, rfl, -⟩ := h
  rfl

theorem Leads.mem (h : Leads before x l) : x ∈ l := List.mem_of_mem_head? h.head?

theorem Leads.eq_or_before (h : Leads before x l) (hy : y ∈ l) : y = x ∨ before x y := by
  obtain ⟨rest, rfl, hrest⟩ := h
  exact (List.mem_cons.mp hy).imp_right (hrest y)

theorem Leads.eq_of_same_members [Std.Asymm before] (hx : Leads before x a)
    (hy : Leads before y b) (hsame : ∀ z, z ∈ a ↔ z ∈ b) : x = y := by
  rcases hy.eq_or_before ((hsame x).mp hx.mem) with heq | hyx
  · exact heq
  rcases hx.eq_or_before ((hsame y).mpr hy.mem) with heq | hxy
  · exact heq.symm
  · exact absurd hyx (Std.Asymm.asymm x y hxy)

theorem Leads.append [IsTrans α before] (ha : Leads before x a) (hb : Leads before y b)
    (hxy : before x y) : Leads before x (a ++ b) := by
  obtain ⟨rest, rfl, hrest⟩ := ha
  refine ⟨rest ++ b, rfl, fun z hz => ?_⟩
  rcases List.mem_append.mp hz with hz | hz
  · exact hrest z hz
  · rcases hb.eq_or_before hz with rfl | hyz
    · exact hxy
    · exact IsTrans.trans x y z hxy hyz

theorem InOrder.singletons {xs : List α} (h : xs.Pairwise before) :
    InOrder before (xs.map fun x => [x]) where
  led l hl := by
    obtain ⟨x, -, rfl⟩ := List.mem_map.mp hl
    exact ⟨x, [], rfl, nofun⟩
  ascending := by
    have hheads : (xs.map fun x => [x]).filterMap List.head? = xs := by
      rw [List.filterMap_map]
      exact List.filterMap_some
    rwa [hheads]

theorem InOrder.pairwise (h : InOrder before lists) :
    lists.Pairwise fun l l' => ∃ x y, Leads before x l ∧ Leads before y l' ∧ before x y := by
  refine (List.pairwise_filterMap.mp h.ascending).imp_of_mem fun {l l'} hl hl' hheads => ?_
  obtain ⟨x, hx⟩ := h.led l hl
  obtain ⟨y, hy⟩ := h.led l' hl'
  exact ⟨x, y, hx, hy, hheads x hx.head? y hy.head?⟩

theorem InOrder.before_of_split
    (h : InOrder before (first ++ a :: (between ++ b :: last))) :
    ∃ x y, Leads before x a ∧ Leads before y b ∧ before x y := by
  have hlater := (List.pairwise_append.mp h.pairwise).2.1
  exact (List.pairwise_cons.mp hlater).1 b (by simp)

theorem InOrder.join [IsTrans α before]
    (h : InOrder before (first ++ a :: (between ++ b :: last))) :
    InOrder before (first ++ (a ++ b) :: (between ++ last)) := by
  obtain ⟨x, y, hx, hy, hxy⟩ := h.before_of_split
  have hjoined := hx.append hy hxy
  constructor
  · intro l hl
    simp only [List.mem_append, List.mem_cons] at hl
    rcases hl with hl | rfl | hl | hl
    · exact h.led l (by simp [hl])
    · exact ⟨x, hjoined⟩
    · exact h.led l (by simp [hl])
    · exact h.led l (by simp [hl])
  · have hheads := h.ascending
    rw [List.filterMap_append, List.filterMap_cons_some hx.head?, List.filterMap_append] at hheads
    rw [List.filterMap_append, List.filterMap_cons_some hjoined.head?, List.filterMap_append]
    -- The first elements are those from before without that of the appended list.
    have hlast : (last.filterMap List.head?).Sublist ((b :: last).filterMap List.head?) :=
      (List.sublist_cons_self b last).filterMap _
    have hlater := (List.Sublist.refl (between.filterMap List.head?)).append hlast
    exact hheads.sublist ((List.Sublist.refl _).append (hlater.cons_cons x))

/-- The first elements stand where their lists do. -/
theorem InOrder.getElem?_heads (h : InOrder before lists) {i : Nat} (hl : lists[i]? = some l)
    (hx : Leads before x l) : (lists.filterMap List.head?)[i]? = some x := by
  have hheads : lists.filterMap List.head? = lists.map fun l => l.headD x := by
    refine List.filterMap_eq_map_iff_forall_eq_some.mpr fun l hl => ?_
    obtain ⟨y, rest, rfl, -⟩ := h.led l hl
    rfl
  rw [hheads, List.getElem?_map, hl, Option.map_some, List.headD_eq_head?_getD, hx.head?,
    Option.getD_some]

theorem InOrder.heads_subset [Std.Asymm before] {lists' : List (List α)}
    (h : InOrder before lists) (h' : InOrder before lists')
    (hsame : ∀ l ∈ lists, ∃ l' ∈ lists', ∀ x, x ∈ l ↔ x ∈ l') :
    lists.filterMap List.head? ⊆ lists'.filterMap List.head? := by
  intro x hx
  obtain ⟨l, hl, hhead⟩ := List.mem_filterMap.mp hx
  obtain ⟨l', hl', hmem⟩ := hsame l hl
  obtain ⟨y, hy⟩ := h.led l hl
  obtain ⟨z, hz⟩ := h'.led l' hl'
  refine List.mem_filterMap.mpr ⟨l', hl', ?_⟩
  rw [hz.head?, ← hy.eq_of_same_members hz hmem, ← hy.head?, hhead]

end lists

section groups

variable {R : Type} [Scale R] {w : Weights R} {groups : List Group} {c : Candidate R}

theorem InOrder.join_candidate (h : InOrder (· < ·) groups) (hc : c.Of w groups) :
    InOrder (· < ·) (c.join groups) := by
  obtain ⟨before, between, after, hgroups, hjoin⟩ := hc.split_join
  rw [hgroups] at h
  rw [hjoin]
  exact h.join

theorem InOrder.before_of_candidate (h : InOrder (· < ·) groups) (hc : c.Of w groups) :
    ∃ i j, Leads (· < ·) i c.into ∧ Leads (· < ·) j c.absorbed ∧ i < j := by
  obtain ⟨before, between, after, hgroups, -⟩ := hc.split_join
  rw [hgroups] at h
  exact h.before_of_split

end groups

namespace Matrix

variable {m : Matrix} {R : Type} [Scale R]

structure OrderedPartition (m : Matrix) (groups : List Group) : Prop where
  partition : Partition m.classCount groups
  inOrder : InOrder (· < ·) groups

theorem ordered_singletons (m : Matrix) : m.OrderedPartition m.singletons where
  partition := Partition.singletons m
  inOrder := InOrder.singletons List.pairwise_lt_range

theorem OrderedPartition.join {w : Weights R} {groups : List Group} {c : Candidate R}
    (h : m.OrderedPartition groups) (hc : c.Of w groups) : m.OrderedPartition (c.join groups) where
  partition := h.partition.join hc
  inOrder := h.inOrder.join_candidate hc

theorem ordered_whole_run (m : Matrix) (threshold : R) :
    m.OrderedPartition (m.cardinalityPhase threshold).groups ∧
      ∀ c ∈ (m.thresholdPhase threshold).made ++ (m.cardinalityPhase threshold).made,
        ∃ gs, m.OrderedPartition gs ∧ c.Of m.weightAt gs := by
  obtain ⟨hlast, hmade⟩ := (m.whole_run threshold).invariant
    (fun _ _ hgs hc _ => hgs.join (mostCoupled?_of hc)) m.ordered_singletons
  refine ⟨hlast, fun c hc => ?_⟩
  obtain ⟨gs, hgs, hchoice, -⟩ := hmade c hc
  exact ⟨gs, hgs, mostCoupled?_of hchoice⟩

theorem before_of_lt (h : m.WellFormed) {i j : Nat} {x y : String} (hij : i < j)
    (hi : m.class? i = some x) (hj : m.class? j = some y) : Text.Before x y := by
  obtain ⟨hilt, rfl⟩ := List.getElem?_eq_some_iff.mp hi
  obtain ⟨hjlt, rfl⟩ := List.getElem?_eq_some_iff.mp hj
  have hlt := List.pairwise_iff_getElem.mp h.sorted i j hilt hjlt hij
  exact Text.before_iff_compare.mpr hlt

theorem leads_namesOf (h : m.WellFormed) {g : Group} {i : Nat} (hg : Leads (· < ·) i g)
    {x : String} (hx : m.class? i = some x) : Leads Text.Before x (m.namesOf g) := by
  obtain ⟨rest, rfl, hrest⟩ := hg
  refine ⟨m.namesOf rest, List.filterMap_cons_some hx, fun y hy => ?_⟩
  obtain ⟨j, hj, hy⟩ := mem_namesOf.mp hy
  exact before_of_lt h (hrest j hj) hx hy

theorem before_namesOf (h : m.WellFormed) {a b : Group} (ha : ∀ i ∈ a, i < m.classCount)
    (hb : ∀ i ∈ b, i < m.classCount)
    (hab : ∃ i j, Leads (· < ·) i a ∧ Leads (· < ·) j b ∧ i < j) :
    ∃ x y, Leads Text.Before x (m.namesOf a) ∧ Leads Text.Before y (m.namesOf b) ∧
      Text.Before x y := by
  obtain ⟨i, j, hi, hj, hij⟩ := hab
  obtain ⟨x, hx⟩ := class?_isSome (ha i hi.mem)
  obtain ⟨y, hy⟩ := class?_isSome (hb j hj.mem)
  exact ⟨x, y, leads_namesOf h hi hx, leads_namesOf h hj hy, before_of_lt h hij hx hy⟩

/-! ### Outcomes -/

section outcome

variable (threshold : R) (centralCount : Nat) (h : m.WellFormed)
include h

theorem clusters_inOrder :
    InOrder Text.Before ((m.cluster threshold centralCount).clusters.map Cluster.members) := by
  obtain ⟨hp, horder⟩ := (m.ordered_whole_run threshold).1
  rw [map_members_clusters threshold h]
  constructor
  · intro l hl
    obtain ⟨g, hg, rfl⟩ := List.mem_map.mp hl
    obtain ⟨i, hi⟩ := horder.led g hg
    obtain ⟨x, hx⟩ := class?_isSome (hp.lt hg hi.mem)
    exact ⟨x, leads_namesOf h hi hx⟩
  · rw [List.pairwise_filterMap, List.pairwise_map]
    refine horder.pairwise.imp_of_mem fun {a b} ha hb hab x hx y hy => ?_
    obtain ⟨x', y', hx', hy', hxy⟩ :=
      before_namesOf h (fun i hi => hp.lt ha hi) (fun i hi => hp.lt hb hi) hab
    rw [hx'.head?] at hx
    rw [hy'.head?] at hy
    cases hx
    cases hy
    exact hxy

theorem step_inOrder {s : MergeStep R} (hs : s ∈ (m.cluster threshold centralCount).steps) :
    ∃ x y, Leads Text.Before x s.into ∧ Leads Text.Before y s.absorbed ∧ Text.Before x y := by
  obtain ⟨c, hc, hinto, habsorbed⟩ := exists_of_mem_steps threshold centralCount h hs
  obtain ⟨gs, hgs, hof⟩ := (m.ordered_whole_run threshold).2 c hc
  rw [hinto, habsorbed]
  exact before_namesOf h
    (fun i hi => hgs.partition.lt (List.mem_of_getElem? hof.into_at) hi)
    (fun i hi => hgs.partition.lt (List.mem_of_getElem? hof.absorbed_at) hi)
    (hgs.inOrder.before_of_candidate hof)

theorem getElem?_id {c : Cluster R} (hc : c ∈ (m.cluster threshold centralCount).clusters) :
    (m.cluster threshold centralCount).clusters[c.id]? = some c := by
  rw [cluster_clusters threshold h] at hc ⊢
  obtain ⟨⟨g, id⟩, hmem, rfl⟩ := List.mem_map.mp hc
  rw [List.mem_zipIdx_iff_getElem?] at hmem
  rw [List.getElem?_map, List.getElem?_zipIdx]
  simp [clusterOf, hmem]

end outcome

omit [Scale R] in
theorem exists_same_members {o o' : Outcome R} (hparts : o.parts = o'.parts) :
    ∀ l ∈ o.clusters.map Cluster.members, ∃ l' ∈ o'.clusters.map Cluster.members,
      ∀ x, x ∈ l ↔ x ∈ l' := by
  intro l hl
  obtain ⟨c, hc, rfl⟩ := List.mem_map.mp hl
  obtain ⟨c', hc', heq⟩ : {x | x ∈ c.members} ∈ o'.parts := hparts ▸ ⟨c, hc, rfl⟩
  exact ⟨c'.members, List.mem_map_of_mem hc', fun x => Set.ext_iff.mp heq x⟩

/-- In two outcomes with the same clusters, as sets, the same cluster has the same number. -/
theorem id_eq_of_parts_eq {m' : Matrix} (h : m.WellFormed) (h' : m'.WellFormed)
    {threshold threshold' : R} {centralCount centralCount' : Nat} {c c' : Cluster R}
    (hparts : (m.cluster threshold centralCount).parts =
      (m'.cluster threshold' centralCount').parts)
    (hc : c ∈ (m.cluster threshold centralCount).clusters)
    (hc' : c' ∈ (m'.cluster threshold' centralCount').clusters)
    (hsame : ∀ x, x ∈ c.members ↔ x ∈ c'.members) : c.id = c'.id := by
  have horder := clusters_inOrder threshold centralCount h
  have horder' := clusters_inOrder threshold' centralCount' h'
  have hplace := getElem?_id threshold centralCount h hc
  have hplace' := getElem?_id threshold' centralCount' h' hc'
  -- Both lists of first members are in order and have the same elements.
  have hsub := horder.heads_subset horder' (exists_same_members hparts)
  have hsub' := horder'.heads_subset horder (exists_same_members hparts.symm)
  have hheads := eq_of_sorted id (horder.ascending.imp Text.before_iff_compare.mp)
    (horder'.ascending.imp Text.before_iff_compare.mp) fun x => ⟨(hsub ·), (hsub' ·)⟩
  obtain ⟨x, hx⟩ := horder.led c.members (List.mem_map_of_mem hc)
  obtain ⟨y, hy⟩ := horder'.led c'.members (List.mem_map_of_mem hc')
  obtain rfl := hx.eq_of_same_members hy hsame
  have hfirst := horder.getElem?_heads (by rw [List.getElem?_map, hplace, Option.map_some]) hx
  have hfirst' := horder'.getElem?_heads (by rw [List.getElem?_map, hplace', Option.map_some]) hy
  have hnodup := horder.ascending.imp fun {x y} (hxy : Text.Before x y) (heq : x = y) =>
    Std.Asymm.asymm x y hxy (heq ▸ hxy)
  rw [← hheads, ← hfirst] at hfirst'
  exact (List.getElem?_inj (List.getElem?_eq_some_iff.mp hfirst).1 hnodup).mp hfirst'.symm

/-- The numbering of the clusters is canonical. Every cluster and every side of a step begins with
its least class, the clusters are numbered in the order of these, and a step appends to the group
that begins with the lesser class. So where two clusterings put the same classes together, they give
the same numbers. -/
theorem clusters_numbered_by_least_members (events : List Event) (threshold : R)
    (centralCount : Nat) :
    let o := (ofEvents events).cluster threshold centralCount
    (∀ c ∈ o.clusters, ∃ x, Leads Text.Before x c.members) ∧
    (o.clusters.Pairwise fun c d => c.id < d.id ∧
      ∃ x y, Leads Text.Before x c.members ∧ Leads Text.Before y d.members ∧ Text.Before x y) ∧
    (∀ s ∈ o.steps, ∃ x y,
      Leads Text.Before x s.into ∧ Leads Text.Before y s.absorbed ∧ Text.Before x y) ∧
    ∀ (events' : List Event) (threshold' : R) (centralCount' : Nat),
      let o' := (ofEvents events').cluster threshold' centralCount'
      o.parts = o'.parts → ∀ c ∈ o.clusters, ∀ c' ∈ o'.clusters,
        (∀ x, x ∈ c.members ↔ x ∈ c'.members) → c.id = c'.id := by
  intro o
  have h := ofEvents_wellFormed events
  have horder := clusters_inOrder threshold centralCount h
  refine ⟨fun c hc => horder.led c.members (List.mem_map_of_mem hc), ?_,
    fun s hs => step_inOrder threshold centralCount h hs, ?_⟩
  · have hids := List.pairwise_lt_range (n := o.clusters.length)
    rw [← map_id_clusters threshold centralCount h, List.pairwise_map] at hids
    exact hids.and (List.pairwise_map.mp horder.pairwise)
  · intro events' threshold' centralCount' o' hparts c hc c' hc' hsame
    exact id_eq_of_parts_eq h (ofEvents_wellFormed events') hparts hc hc' hsame

/-- Two pairs of classes are merged in different orders and numbered alike. -/
theorem clusters_numbered_by_least_members_of_pairs :
    let o := (ofEvents [⟨"A", "B"⟩, ⟨"C", "D"⟩, ⟨"C", "D"⟩]).cluster (0 : Rat) 5
    let o' := (ofEvents [⟨"A", "B"⟩, ⟨"A", "B"⟩, ⟨"C", "D"⟩]).cluster (0 : Rat) 5
    o.steps.map MergeStep.into = [["C"], ["A"]] ∧ o'.steps.map MergeStep.into = [["A"], ["C"]] ∧
      o.parts = o'.parts ∧ ∀ c ∈ o.clusters, ∀ c' ∈ o'.clusters,
        (∀ x, x ∈ c.members ↔ x ∈ c'.members) → c.id = c'.id := by
  intro o o'
  have hmembers : o.clusters.map Cluster.members = o'.clusters.map Cluster.members := by
    decide +kernel
  have hparts : o.parts = o'.parts := by
    have hiff (o : Outcome Rat) (s : Set String) :
        s ∈ o.parts ↔ ∃ l ∈ o.clusters.map Cluster.members, s = {x | x ∈ l} := by
      simp [Outcome.parts]
    ext s
    rw [hiff, hiff, hmembers]
  exact ⟨by decide +kernel, by decide +kernel, hparts,
    (clusters_numbered_by_least_members _ 0 5).2.2.2 _ 0 5 hparts⟩

end Matrix

end Linkage
