import Linkage.Proofs.Cluster.Weighted
import Linkage.Proofs.Matrix.Entries

/-!
# Conservation of counts

Each invocation of another class is counted once in its direction and once for its pair. So the
counts of calls and those of pairs have the same sum, the total, and the shares of all pairs
together are the whole.
-/

namespace Linkage

def ClassPair.ends (p : ClassPair) : Sym2 String := s(p.first, p.second)

namespace Matrix

variable {m : Matrix} {R : Type} [Scale R] {events : List Event}

/-- The calls are those that were counted, each with its count. -/
theorem mem_directedCounts (h : m.Canonical) {c : String × String × Nat} :
    c ∈ m.directedCounts ↔ 0 < c.2.2 ∧ m.directedCount c.1 c.2.1 = c.2.2 := by
  rw [directedCounts_eq_map h, List.mem_map]
  constructor
  · rintro ⟨e, he, rfl⟩
    exact ⟨h.call_pos _ he, directedCount_nameAt h he⟩
  · obtain ⟨x, y, n⟩ := c
    rintro ⟨hpos, hn⟩
    dsimp only at hpos hn
    obtain ⟨i, j, hi, hj⟩ : ∃ i j, m.indexOf? x = some i ∧ m.indexOf? y = some j := by
      unfold directedCount at hn
      split at hn
      · exact ⟨_, _, ‹_›, ‹_›⟩
      · omega
    have hi := (indexOf?_eq_some_iff h.toWellFormed).mp hi
    have hj := (indexOf?_eq_some_iff h.toWellFormed).mp hj
    refine ⟨((i, j), n), (mem_callCounts h).mpr ⟨hpos, x, y, hi, hj, hn⟩, ?_⟩
    simp [nameAt, hi, hj]

theorem directedCounts_nodup (h : m.Canonical) :
    (m.directedCounts.map fun c => Event.mk c.1 c.2.1).Nodup := by
  rw [directedCounts_eq_map h, List.map_map]
  refine List.Nodup.map_on ?_ h.call_keys_nodup.of_map
  intro d hd e he heq
  obtain ⟨-, hd₁, hd₂⟩ := h.call_lt _ hd
  obtain ⟨-, he₁, he₂⟩ := h.call_lt _ he
  obtain ⟨hcaller, hcallee⟩ := Event.mk.inj heq
  have hkey : d.1 = e.1 := Prod.ext (nameAt_inj h.toWellFormed hd₁ he₁ hcaller)
    (nameAt_inj h.toWellFormed hd₂ he₂ hcallee)
  exact List.inj_on_of_nodup_map h.call_keys_nodup hd he hkey

/-- Each invocation of another class is named once. -/
theorem directedCounts_perm (events : List Event) :
    ((ofEvents events).directedCounts.map fun c => Event.mk c.1 c.2.1).Perm
      (events.dedup.filter fun e => !e.isSelf) := by
  have h := ofEvents_canonical events
  refine (List.perm_ext_iff_of_nodup (directedCounts_nodup h)
    (events.nodup_dedup.filter _)).mpr fun e => ?_
  obtain ⟨x, y⟩ := e
  simp only [List.mem_map, mem_directedCounts h, directedCount_ofEvents, Event.mk.injEq,
    Prod.exists, List.mem_filter, List.mem_dedup, Event.isSelf, Bool.not_eq_true',
    beq_eq_false_iff_ne]
  constructor
  · rintro ⟨x, y, n, ⟨hpos, rfl⟩, rfl, rfl⟩
    split at hpos
    · omega
    · exact ⟨List.count_pos_iff.mp hpos, ‹_›⟩
  · rintro ⟨hmem, hne⟩
    refine ⟨x, y, events.count ⟨x, y⟩, ⟨List.count_pos_iff.mpr hmem, if_neg hne⟩, rfl, rfl⟩

theorem sum_directedCounts (events : List Event) :
    ((ofEvents events).directedCounts.map fun c => c.2.2).sum = (ofEvents events).total := by
  have h := ofEvents_canonical events
  have hcount : ∀ c ∈ (ofEvents events).directedCounts,
      c.2.2 = events.count (Event.mk c.1 c.2.1) := by
    intro c hc
    obtain ⟨hpos, hn⟩ := (mem_directedCounts h).mp hc
    rw [directedCount_ofEvents] at hn
    split at hn
    · omega
    · exact hn.symm
  calc ((ofEvents events).directedCounts.map fun c => c.2.2).sum
      = (((ofEvents events).directedCounts.map fun c => Event.mk c.1 c.2.1).map
          fun e => events.count e).sum := by
        rw [List.map_map, List.map_congr_left hcount]
        rfl
    _ = ((events.dedup.filter fun e => !e.isSelf).map fun e => events.count e).sum :=
        ((directedCounts_perm events).map _).sum_eq
    _ = (ofEvents events).total := by
        rw [List.sum_map_count_dedup_filter_eq_countP, total_ofEvents]

theorem pairs_nodup (h : m.Canonical) :
    ((m.pairs : List (PairCoupling R)).map fun p => p.pair.ends).Nodup := by
  refine List.pairwise_map.mpr ((pairs_sorted h).imp_of_mem fun {p q} hp hq hlt heq => ?_)
  have hp := ((mem_pairs h.toWellFormed).mp hp).1
  have hq := ((mem_pairs h.toWellFormed).mp hq).1
  simp only [Text.before_iff_compare, compare_lt_iff_lt] at hlt hp hq
  rcases Sym2.eq_iff.mp heq with ⟨hfirst, hsecond⟩ | ⟨hfirst, hsecond⟩
  · simp [hfirst, hsecond] at hlt
  · rw [hfirst, hsecond] at hp
    exact absurd hq (lt_asymm hp)

theorem ends_eq_iff (h : m.WellFormed) {p : PairCoupling R} (hp : p ∈ m.pairs) {x y : String} :
    p.pair.ends = s(x, y) ↔ ClassPair.of? x y = some p.pair := by
  rw [ClassPair.of?_eq_some_iff, and_iff_right ((mem_pairs h).mp hp).1, ClassPair.ends, Sym2.eq_iff]
  grind

/-- Each two classes of which one invoked the other are named once. -/
theorem pairs_perm (events : List Event) :
    (((ofEvents events).pairs : List (PairCoupling R)).map fun p => p.pair.ends).Perm
      ((events.map Event.ends).dedup.filter fun e => ¬ e.IsDiag) := by
  have h := ofEvents_canonical events
  refine (List.perm_ext_iff_of_nodup (pairs_nodup h)
    ((List.nodup_dedup _).filter _)).mpr fun e => ?_
  induction e using Sym2.ind with | _ x y
  have hpair : (∃ p ∈ ((ofEvents events).pairs : List (PairCoupling R)), p.pair.ends = s(x, y)) ↔
      0 < (ofEvents events).pairCount x y := by
    rw [← exists_mem_pairs_iff (R := R) h.toWellFormed]
    exact exists_congr fun p => and_congr_right fun hp => ends_eq_iff h.toWellFormed hp
  rw [List.mem_map, hpair, pairCount_ofEvents, List.mem_filter, List.mem_dedup,
    Event.countP_joins, ← List.count_pos_iff]
  split <;> simp_all

theorem sum_invocations (events : List Event) :
    (((ofEvents events).pairs : List (PairCoupling R)).map (·.invocations)).sum =
      (ofEvents events).total := by
  have h := ofEvents_wellFormed events
  have hcount : ∀ p ∈ ((ofEvents events).pairs : List (PairCoupling R)),
      p.invocations = (events.map Event.ends).count p.pair.ends := by
    intro p hp
    obtain ⟨hlt, -, hn, -⟩ := (mem_pairs h).mp hp
    have hne : p.pair.first ≠ p.pair.second := fun heq => List.lt_irrefl _ (heq ▸ hlt)
    rw [hn, pairCount_ofEvents, if_neg hne, Event.countP_joins]
    rfl
  calc (((ofEvents events).pairs : List (PairCoupling R)).map (·.invocations)).sum
      = ((((ofEvents events).pairs : List (PairCoupling R)).map fun p => p.pair.ends).map
          fun e => (events.map Event.ends).count e).sum := by
        rw [List.map_map, List.map_congr_left hcount]
        rfl
    _ = (((events.map Event.ends).dedup.filter fun e => ¬ e.IsDiag).map
          fun e => (events.map Event.ends).count e).sum := ((pairs_perm events).map _).sum_eq
    _ = (ofEvents events).total := by
        rw [List.sum_map_count_dedup_filter_eq_countP, total_eq_countP_ends]

theorem invocations_le_total {p : PairCoupling R} (hp : p ∈ (ofEvents events).pairs) :
    p.invocations ≤ (ofEvents events).total := by
  rw [pairs_eq_map (ofEvents_wellFormed events)] at hp
  obtain ⟨e, he, rfl⟩ := List.mem_map.mp hp
  exact pairCounts_le_total events e he

/-- Every pair has an invocation of its own. -/
theorem pairTotal_le_total (events : List Event) :
    (ofEvents events).pairTotal ≤ (ofEvents events).total := by
  have h := ofEvents_wellFormed events
  have hpos : ∀ n ∈ ((ofEvents events).pairs : List (PairCoupling Rat)).map (·.invocations),
      1 ≤ n := List.forall_mem_map.mpr fun p hp => ((mem_pairs h).mp hp).2.1
  have hle := List.length_le_sum_of_one_le _ hpos
  rwa [List.length_map, length_pairs h, sum_invocations] at hle

theorem max_total_one (hne : (ofEvents events).pairTotal ≠ 0) :
    max (ofEvents events).total 1 = (ofEvents events).total := by
  obtain ⟨e, he⟩ := List.exists_mem_of_length_pos (Nat.pos_of_ne_zero hne)
  have hpos := (ofEvents_wellFormed events).count_pos e he
  have hle := pairCounts_le_total events e he
  omega

theorem weight_eq_div {p : PairCoupling Rat} (hp : p ∈ (ofEvents events).pairs) :
    p.weight = (p.invocations : Rat) / ((ofEvents events).total : Rat) := by
  obtain ⟨-, hpos, -, hw⟩ := (mem_pairs (ofEvents_wellFormed events)).mp hp
  have htotal : max (ofEvents events).total 1 = (ofEvents events).total :=
    max_eq_left (Nat.le_trans hpos (invocations_le_total hp))
  rw [hw, share_eq, htotal]

/-- The shares of all pairs are the whole. -/
theorem sum_weights (hne : (ofEvents events).pairTotal ≠ 0) :
    (((ofEvents events).pairs : List (PairCoupling Rat)).map (·.weight)).sum = 1 := by
  have hweight : ∀ p ∈ ((ofEvents events).pairs : List (PairCoupling Rat)),
      p.weight = (p.invocations : Rat) * ((ofEvents events).total : Rat)⁻¹ :=
    fun p hp => (weight_eq_div hp).trans (div_eq_mul_inv ..)
  have htotal : ((ofEvents events).total : Rat) ≠ 0 := by
    have := max_total_one hne
    rw [Nat.cast_ne_zero]
    omega
  have hsum : (((ofEvents events).pairs : List (PairCoupling Rat)).map
      fun p => (p.invocations : Rat)).sum = (ofEvents events).total := by
    rw [← sum_invocations (R := Rat) events, Nat.cast_list_sum, List.map_map]
    rfl
  rw [List.map_congr_left hweight, List.sum_map_mul_right, hsum, mul_inv_cancel₀ htotal]

theorem exists_pair_of_class (h : m.WellFormed) {name : String} (hname : name ∈ m.classes) :
    ∃ p ∈ (m.pairs : List (PairCoupling R)), p.pair.first = name ∨ p.pair.second = name := by
  obtain ⟨i, hi⟩ := List.mem_iff_getElem?.mp hname
  have hat : m.nameAt i = name := by rw [nameAt, class?, hi, Option.getD_some]
  obtain ⟨e, he, hend⟩ := h.covered i (List.getElem?_eq_some_iff.mp hi).1
  refine ⟨m.entry e, pairs_eq_map (R := R) h ▸ List.mem_map_of_mem he, ?_⟩
  rw [← hat]
  exact hend.imp (congrArg m.nameAt) (congrArg m.nameAt)

/-- Each invocation of another class is counted once in its direction and once for its pair, and
nothing else is counted. -/
theorem counts_conserved (events : List Event) :
    let m := ofEvents events
    let pairs : List (PairCoupling Rat) := m.pairs
    (m.directedCounts.map fun c => c.2.2).sum = m.total ∧
    (pairs.map (·.invocations)).sum = m.total ∧
    (∀ x y, x ≠ y → m.pairCount x y = m.directedCount x y + m.directedCount y x) ∧
    (∀ name ∈ m.classes, ∃ p ∈ pairs, p.pair.first = name ∨ p.pair.second = name) ∧
    (∀ p ∈ pairs, 1 ≤ p.invocations ∧ p.invocations ≤ m.total ∧
      p.weight = (p.invocations : Rat) / (m.total : Rat) ∧ 0 < p.weight ∧ p.weight ≤ 1) ∧
    (m.pairTotal ≠ 0 → (pairs.map (·.weight)).sum = 1) := by
  intro m pairs
  have h : m.WellFormed := ofEvents_wellFormed events
  refine ⟨sum_directedCounts events, sum_invocations events, fun x y => pairCount_eq_add events,
    fun name => exists_pair_of_class h, fun p hp => ?_, sum_weights⟩
  obtain ⟨-, hpos, -, hw⟩ := (mem_pairs h).mp hp
  have hle := invocations_le_total hp
  exact ⟨hpos, hle, weight_eq_div hp, hw ▸ share_pos hpos, hw ▸ share_le_one hle⟩

end Matrix

end Linkage
