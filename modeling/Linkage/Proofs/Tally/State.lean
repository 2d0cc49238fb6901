import Linkage.Proofs.Tally.Calls
import Mathlib.Data.Set.Function

/-!
# The state of a tally

What the parts of a tally have to do with each other after any calls. The numbers and the names of
the classes determine one another, and the count of a pair is the sum of the counts of its two
directions. The places that the matrix gives to the numbers are all different, so no count takes the
place of another.
-/

namespace Linkage

theorem Counts.mem_of_get_pos {counts : Counts} {k : IndexPair} (h : 0 < counts.get k) :
    k ∈ counts := by
  by_contra hk
  exact Nat.ne_of_gt h (get_eq_zero hk)

theorem Counts.get_pos {counts : Counts} {k : IndexPair} (hk : k ∈ counts)
    (hpos : ∀ (k : IndexPair) (n : Nat), counts[k]? = some n → 0 < n) : 0 < counts.get k := by
  obtain ⟨n, hn⟩ := Option.isSome_iff_exists.mp (Std.TreeMap.mem_iff_isSome_getElem?.mp hk)
  rw [get, Std.TreeMap.getD_eq_getD_getElem?, hn]
  exact hpos k n hn

namespace Tally

variable {t : Tally}

/-- What is counted of a pair is what is counted of its two directions. -/
def Balanced (t : Tally) : Prop :=
  ∀ a b, t.pairCounts.get (indexKey a b) = t.callCounts.get (a, b) + t.callCounts.get (b, a)

theorem empty_balanced : empty.Balanced := by
  intro a b
  have hnone (k : IndexPair) : Counts.get ∅ k = 0 := Counts.get_eq_zero Std.TreeMap.not_mem_emptyc
  simp only [empty, hnone]

/-- One more call from `x` to `y` counts for the pair of the two and for one of its directions. -/
theorem bump_balanced {pairs calls : Counts} {x y : Nat} (hxy : x ≠ y)
    (h : ∀ a b, pairs.get (indexKey a b) = calls.get (a, b) + calls.get (b, a)) (a b : Nat) :
    (pairs.bump (indexKey x y)).get (indexKey a b) =
      (calls.bump (x, y)).get (a, b) + (calls.bump (x, y)).get (b, a) := by
  have hbalance := h a b
  simp only [Counts.get_bump, indexKey_eq_iff, Prod.mk.injEq]
  split_ifs <;> omega

theorem record_balanced (hnum : t.Numbered) (h : t.Balanced) (caller callee : String) :
    (t.record caller callee).Balanced := by
  by_cases hself : caller = callee
  · rw [record, if_pos hself]
    exact h
  · rw [record_of_ne t hself, intern_callCounts, intern_callCounts, (intern_frame _ callee).1,
      (intern_frame t caller).1]
    exact bump_balanced (record_numbers hnum hself).1 h

theorem recordAll_balanced (hc : t.Consistent) (h : t.Balanced) (events : List Event) :
    (t.recordAll events).Balanced := by
  induction events generalizing t with
  | nil => exact h
  | cons e events ih =>
    exact ih (record_consistent hc e.caller e.callee)
      (record_balanced hc.numbered h e.caller e.callee)

/-- A pair is counted because one of its directions is, so every class is in some call. -/
theorem exists_call (hc : t.Consistent) (h : t.Balanced) {i : Nat} (hi : i < t.names.size) :
    ∃ k ∈ t.callCounts, k.1 = i ∨ k.2 = i := by
  obtain ⟨⟨a, b⟩, hk, hik⟩ := hc.covered i hi
  have hkey : indexKey a b = (a, b) := if_pos (Nat.le_of_lt (hc.pair_lt _ hk).1)
  have hsum := h a b
  rw [hkey] at hsum
  have hpos := Counts.get_pos hk hc.count_pos
  rcases Nat.eq_zero_or_pos (t.callCounts.get (a, b)) with hzero | hcall
  · exact ⟨(b, a), Counts.mem_of_get_pos (by omega), hik.symm⟩
  · exact ⟨(a, b), Counts.mem_of_get_pos hcall, hik⟩

/-- The places are the numbers in another order. -/
theorem place_bijOn (h : t.Numbered) :
    Set.BijOn t.place (Set.Iio t.names.size) (Set.Iio t.names.size) := by
  have hlength := length_classes h
  refine ⟨fun i hi => ?_, fun i hi j hj heq => place_inj h hi hj heq, fun p hp => ?_⟩
  · rw [← hlength]
    exact place_lt h hi
  · rw [← hlength] at hp
    exact place_surj h hp

theorem class?_place (h : t.Numbered) {i : Nat} (hi : i < t.names.size) :
    t.build.class? (t.place i) = t.names[i]? := by
  have hname := Array.getElem?_eq_getElem hi
  rw [place_eq hname, hname]
  exact List.getElem?_idxOf ((mem_classes h).mpr ⟨i, hname⟩)

/-- The parts of a tally fit together after any calls, and its matrix numbers the classes anew
without mixing up any two counts. -/
theorem state_of_calls (calls : List Call) :
    let t := empty.runAll calls
    (t.names.toList.Nodup ∧
      ∀ (name : String) (i : Nat), t.index[name]? = some i ↔ t.names[i]? = some name) ∧
    (∀ k ∈ t.pairCounts, k.1 < k.2 ∧ k.2 < t.names.size) ∧
    (∀ k ∈ t.callCounts, k.1 ≠ k.2 ∧ k.1 < t.names.size ∧ k.2 < t.names.size) ∧
    (∀ (k : IndexPair) (n : Nat),
      t.pairCounts[k]? = some n ∨ t.callCounts[k]? = some n → 1 ≤ n) ∧
    (∀ a b, t.pairCounts.get (indexKey a b) =
      t.callCounts.get (a, b) + t.callCounts.get (b, a)) ∧
    (∀ i < t.names.size, (∃ k ∈ t.pairCounts, k.1 = i ∨ k.2 = i) ∧
      ∃ k ∈ t.callCounts, k.1 = i ∨ k.2 = i) ∧
    Set.BijOn t.place (Set.Iio t.names.size) (Set.Iio t.names.size) ∧
    (∀ i < t.names.size, t.build.class? (t.place i) = t.names[i]?) ∧
    (∀ k ∈ t.pairCounts, ∀ k' ∈ t.pairCounts,
      indexKey (t.place k.1) (t.place k.2) = indexKey (t.place k'.1) (t.place k'.2) → k = k') ∧
    (∀ k ∈ t.callCounts, ∀ k' ∈ t.callCounts,
      (t.place k.1, t.place k.2) = (t.place k'.1, t.place k'.2) → k = k') ∧
    t.build.pairCounts.Perm
      (t.pairCounts.toList.map fun e => (indexKey (t.place e.1.1) (t.place e.1.2), e.2)) ∧
    t.build.callCounts.Perm
      (t.callCounts.toList.map fun e => ((t.place e.1.1, t.place e.1.2), e.2)) := by
  intro t
  have ht : t = empty.recordAll (calls.flatMap Call.events) := runAll_eq empty calls
  have h : t.Consistent := ht ▸ recordAll_consistent empty_consistent _
  have hcalls : t.CallsConsistent :=
    ht ▸ recordAll_callsConsistent empty_consistent empty_callsConsistent _
  have hbalanced : t.Balanced := ht ▸ recordAll_balanced empty_consistent empty_balanced _
  have hpairs : ∀ k ∈ t.pairCounts, ∀ k' ∈ t.pairCounts,
      indexKey (t.place k.1) (t.place k.2) = indexKey (t.place k'.1) (t.place k'.2) → k = k' :=
    fun k hk k' hk' => indexKey_place_inj h.numbered (h.pair_lt k hk) (h.pair_lt k' hk')
  have hdirected : ∀ k ∈ t.callCounts, ∀ k' ∈ t.callCounts,
      (t.place k.1, t.place k.2) = (t.place k'.1, t.place k'.2) → k = k' :=
    fun k hk k' hk' =>
      place_pair_inj h.numbered (hcalls.call_lt k hk).2 (hcalls.call_lt k' hk').2
  refine ⟨⟨nodup_names h.numbered, h.numbered⟩, h.pair_lt, hcalls.call_lt, fun k n hk => ?_,
    hbalanced, fun i hi => ⟨h.covered i hi, exists_call h hbalanced hi⟩, place_bijOn h.numbered,
    fun i hi => class?_place h.numbered hi, hpairs, hdirected, ?_, ?_⟩
  · rcases hk with hk | hk
    · exact h.count_pos k n hk
    · exact hcalls.call_pos k n hk
  · exact Counts.rekey_perm t.pairCounts _ hpairs
  · exact Counts.rekey_perm t.callCounts _ hdirected

end Tally

end Linkage
