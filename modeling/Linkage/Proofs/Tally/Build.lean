import Linkage.Proofs.Matrix.Canonical
import Linkage.Proofs.Tally.Counting

/-!
# The matrix of a tally

Numbering the classes anew, by name, keeps all counts: the matrix answers about two classes what the
tally has counted for them. The numbers of the tally, which depend on the order of the events, leave
no trace.
-/

namespace Linkage.Tally

variable {t : Tally}

theorem build_indexOf? (h : t.Consistent) (name : String) :
    t.build.indexOf? name = t.index[name]?.map t.place := by
  cases hname : t.index[name]? with
  | some i =>
    have hi := (h.numbered name i).mp hname
    have hmem : name ∈ t.classes := (mem_classes h.numbered).mpr ⟨i, hi⟩
    rw [Option.map_some, Matrix.indexOf?_eq_some_iff (build_wellFormed h), place_eq hi]
    exact List.getElem?_idxOf hmem
  | none =>
    refine List.idxOf?_eq_none_iff.mpr fun hmem => ?_
    obtain ⟨i, hi⟩ := (mem_classes h.numbered).mp hmem
    rw [(h.numbered name i).mpr hi] at hname
    cases hname

theorem index_lt (h : t.Numbered) {name : String} {i : Nat} (hi : t.index[name]? = some i) :
    i < t.names.size :=
  (Array.getElem?_eq_some_iff.mp ((h name i).mp hi)).1

theorem place_pair_inj (h : t.Numbered) {k k' : IndexPair}
    (hk : k.1 < t.names.size ∧ k.2 < t.names.size)
    (hk' : k'.1 < t.names.size ∧ k'.2 < t.names.size)
    (heq : (t.place k.1, t.place k.2) = (t.place k'.1, t.place k'.2)) : k = k' := by
  obtain ⟨hfirst, hsecond⟩ := Prod.mk.inj heq
  exact Prod.ext (place_inj h hk.1 hk'.1 hfirst) (place_inj h hk.2 hk'.2 hsecond)

theorem mem_build_callCounts (h : t.Numbered) (hc : t.CallsConsistent) {e : IndexPair × Nat} :
    e ∈ t.build.callCounts ↔
      ∃ k : IndexPair, t.callCounts[k]? = some e.2 ∧ (t.place k.1, t.place k.2) = e.1 :=
  Counts.mem_rekey fun k hk k' hk' heq =>
    place_pair_inj h (hc.call_lt k hk).2 (hc.call_lt k' hk').2 heq

theorem build_directedCount (h : t.Consistent) (hc : t.CallsConsistent) (x y : String) :
    t.build.directedCount x y = t.callsFrom x y := by
  rw [Matrix.directedCount, callsFrom, countAt, build_indexOf? h, build_indexOf? h]
  cases hx : t.index[x]? with
  | none => rfl
  | some i =>
    cases hy : t.index[y]? with
    | none => rfl
    | some j =>
      have hlt := index_lt h.numbered hx
      have hlt' := index_lt h.numbered hy
      have hlookup : t.build.callCounts.lookup (t.place i, t.place j) = t.callCounts[(i, j)]? := by
        refine Counts.lookup_rekey (f := fun k => (t.place k.1, t.place k.2))
          (fun k hk k' hk' heq => ?_) (k := (i, j)) fun k hk heq => ?_
        · exact place_pair_inj h.numbered (hc.call_lt k hk).2 (hc.call_lt k' hk').2 heq
        · exact place_pair_inj h.numbered (hc.call_lt k hk).2 ⟨hlt, hlt'⟩ heq
      simp only [Option.map_some]
      rw [hlookup]
      exact Std.TreeMap.getD_eq_getD_getElem?.symm

theorem build_pairCount (h : t.Consistent) {x y : String} (hxy : x ≠ y) :
    t.build.pairCount x y = t.callsBetween x y := by
  rw [Matrix.pairCount, callsBetween, countAt, build_indexOf? h, build_indexOf? h]
  cases hx : t.index[x]? with
  | none => rfl
  | some i =>
    cases hy : t.index[y]? with
    | none => rfl
    | some j =>
      have hij : i ≠ j := by
        rintro rfl
        exact hxy (index_inj h.numbered hx hy)
      have hplaces : t.place i ≠ t.place j := fun heq =>
        hij (place_inj h.numbered (index_lt h.numbered hx) (index_lt h.numbered hy) heq)
      have hbelow : (indexKey i j).1 < (indexKey i j).2 ∧ (indexKey i j).2 < t.names.size := by
        refine ⟨indexKey_lt hij, ?_⟩
        rcases indexKey_cases i j with hk | hk <;> rw [hk]
        · exact index_lt h.numbered hy
        · exact index_lt h.numbered hx
      have hkey : indexKey (t.place i) (t.place j) =
          indexKey (t.place (indexKey i j).1) (t.place (indexKey i j).2) := by
        rcases indexKey_cases i j with hk | hk <;> rw [hk]
        exact indexKey_comm _ _
      have hlookup : t.build.pairCounts.lookup (indexKey (t.place i) (t.place j)) =
          t.pairCounts[indexKey i j]? := by
        rw [hkey]
        refine Counts.lookup_rekey (f := fun k => indexKey (t.place k.1) (t.place k.2))
          (fun k hk k' hk' heq => ?_) fun k hk heq => ?_
        · exact indexKey_place_inj h.numbered (h.pair_lt k hk) (h.pair_lt k' hk') heq
        · exact indexKey_place_inj h.numbered (h.pair_lt k hk) hbelow heq
      simp only [Option.map_some]
      rw [if_neg hplaces, hlookup]
      exact Std.TreeMap.getD_eq_getD_getElem?.symm

theorem build_directedCount_self (h : t.Consistent) (hc : t.CallsConsistent) (x : String) :
    t.build.directedCount x x = 0 := by
  rw [build_directedCount h hc, callsFrom, countAt]
  cases t.index[x]? with
  | none => rfl
  | some i => exact Counts.get_eq_zero fun hk => (hc.call_lt _ hk).1 rfl

theorem build_canonical (h : t.Consistent) (hc : t.CallsConsistent) : t.build.Canonical where
  toWellFormed := build_wellFormed h
  pairs_sorted := Std.TreeMap.ordered_keys_toList
  calls_sorted := Std.TreeMap.ordered_keys_toList
  call_lt e he := by
    obtain ⟨k, hk, heq⟩ := (mem_build_callCounts h.numbered hc).mp he
    have hmem : k ∈ t.callCounts := Std.TreeMap.mem_iff_isSome_getElem?.mpr (by rw [hk]; rfl)
    obtain ⟨hne, hlt, hlt'⟩ := hc.call_lt k hmem
    rw [← heq]
    exact ⟨fun hp => hne (place_inj h.numbered hlt hlt' hp), place_lt h.numbered hlt,
      place_lt h.numbered hlt'⟩
  call_pos e he := by
    obtain ⟨k, hk, -⟩ := (mem_build_callCounts h.numbered hc).mp he
    exact hc.call_pos k e.2 hk

theorem mem_build_classes (h : t.Numbered) {name : String} :
    name ∈ t.build.classes ↔ name ∈ t.names := by
  rw [Array.mem_iff_getElem?]
  exact mem_classes h

end Linkage.Tally
