import Linkage.Counts
import Mathlib.Data.List.Nodup
import Mathlib.Data.List.Perm.Basic
import Std.Data.TreeMap.Lemmas

/-!
# Counts as lists

A search tree of counts and the list of its entries have the same look-ups, and giving the entries
of a tree new keys permutes them as long as no two keys become the same.
-/

namespace Linkage

theorem indexKey_cases (a b : Nat) : indexKey a b = (a, b) ∨ indexKey a b = (b, a) := by
  unfold indexKey
  split
  · exact Or.inl rfl
  · exact Or.inr rfl

theorem indexKey_lt {a b : Nat} (h : a ≠ b) : (indexKey a b).1 < (indexKey a b).2 := by
  unfold indexKey
  split <;> simp only <;> omega

theorem indexKey_covers {a b i : Nat} :
    (indexKey a b).1 = i ∨ (indexKey a b).2 = i ↔ a = i ∨ b = i := by
  rcases indexKey_cases a b with h | h <;> rw [h]
  exact or_comm

theorem indexKey_comm (a b : Nat) : indexKey a b = indexKey b a := by
  unfold indexKey
  split <;> split <;> first | rfl | (simp only [Prod.mk.injEq]; omega)

theorem indexKey_eq_iff {a b c d : Nat} :
    indexKey a b = indexKey c d ↔ (a = c ∧ b = d) ∨ (a = d ∧ b = c) := by
  unfold indexKey
  split <;> split <;> simp only [Prod.mk.injEq] <;> omega

/-- In a list of entries with distinct keys, to be found is to be there. -/
theorem lookup_eq_some_iff_mem {κ α : Type} [BEq κ] [LawfulBEq κ] {l : List (κ × α)}
    (hl : (l.map Prod.fst).Nodup) (k : κ) (v : α) : l.lookup k = some v ↔ (k, v) ∈ l := by
  induction l with
  | nil => simp
  | cons e l ih =>
    obtain ⟨k', v'⟩ := e
    rw [List.map_cons, List.nodup_cons] at hl
    by_cases hk : k = k'
    · subst hk
      have hnot : (k, v) ∉ l := fun h => hl.1 (List.mem_map.mpr ⟨(k, v), h, rfl⟩)
      simp [hnot, eq_comm]
    · have hb : (k == k') = false := beq_eq_false_iff_ne.mpr hk
      simp [List.lookup_cons, hb, ih hl.2, hk]

theorem lookup_map_snd {κ α β : Type} [BEq κ] (f : α → β) (l : List (κ × α)) (k : κ) :
    (l.map fun e => (e.1, f e.2)).lookup k = (l.lookup k).map f := by
  induction l with
  | nil => rfl
  | cons e l ih =>
    obtain ⟨k', v⟩ := e
    rw [List.map_cons, List.lookup_cons, List.lookup_cons]
    cases k == k' with
    | true => rfl
    | false => exact ih

/-- A search tree made of a list with distinct keys finds what the list holds. -/
theorem getElem?_ofList {α : Type} {l : List (IndexPair × α)} (hl : (l.map Prod.fst).Nodup)
    (k : IndexPair) : (Std.TreeMap.ofList l IndexPair.compare)[k]? = l.lookup k := by
  have hdistinct : l.Pairwise fun a b => ¬ IndexPair.compare a.1 b.1 = .eq :=
    (List.pairwise_map.mp hl).imp fun hne h => hne (Std.LawfulEqCmp.eq_of_compare h)
  cases hk : l.lookup k with
  | none =>
    refine Std.TreeMap.getElem?_ofList_of_contains_eq_false ?_
    rw [List.lookup_eq_none_iff] at hk
    refine Bool.eq_false_iff.mpr fun hc => ?_
    obtain ⟨e, he, rfl⟩ := List.mem_map.mp (List.contains_iff_mem.mp hc)
    simpa using hk e he
  | some v =>
    exact Std.TreeMap.getElem?_ofList_of_mem Std.ReflCmp.compare_self hdistinct
      ((lookup_eq_some_iff_mem hl k v).mp hk)

namespace Counts

theorem nodup_keys_toList (counts : Counts) : (counts.toList.map Prod.fst).Nodup := by
  rw [Std.TreeMap.map_fst_toList_eq_keys]
  exact Std.TreeMap.nodup_keys

theorem getElem?_bump (counts : Counts) (k k' : IndexPair) :
    (counts.bump k)[k']? = if k = k' then some (counts.get k + 1) else counts[k']? := by
  rw [bump, Std.TreeMap.getElem?_insert]
  simp only [Std.LawfulEqCmp.compare_eq_iff_eq]

theorem mem_bump (counts : Counts) (k k' : IndexPair) :
    k' ∈ counts.bump k ↔ k = k' ∨ k' ∈ counts := by
  rw [bump, Std.TreeMap.mem_insert]
  simp only [Std.LawfulEqCmp.compare_eq_iff_eq]

/-- New keys permute the entries if they keep the old keys apart. -/
theorem rekey_perm (counts : Counts) (f : IndexPair → IndexPair)
    (hf : ∀ k ∈ counts, ∀ k' ∈ counts, f k = f k' → k = k') :
    (counts.rekey f).toList.Perm (counts.toList.map fun e => (f e.1, e.2)) := by
  have hkeys : ((counts.toList.map fun e => (f e.1, e.2)).map Prod.fst).Nodup := by
    rw [List.map_map, List.nodup_map_iff_inj_on (nodup_keys_toList counts).of_map]
    intro e he e' he' heq
    have hmem : ∀ e ∈ counts.toList, e.1 ∈ counts := fun e he =>
      Std.TreeMap.mem_keys.mp (Std.TreeMap.map_fst_toList_eq_keys ▸ List.mem_map_of_mem he)
    exact List.inj_on_of_nodup_map (nodup_keys_toList counts) he he'
      (hf _ (hmem e he) _ (hmem e' he') heq)
  refine (List.perm_ext_iff_of_nodup (nodup_keys_toList _).of_map hkeys.of_map).mpr ?_
  intro hex
  obtain ⟨k, n⟩ := hex
  rw [Std.TreeMap.mem_toList_iff_getElem?_eq_some, ← lookup_eq_some_iff_mem hkeys,
    ← getElem?_ofList hkeys]
  rfl

section rekey

variable {counts : Counts} {f : IndexPair → IndexPair}
  (hf : ∀ k ∈ counts, ∀ k' ∈ counts, f k = f k' → k = k')
include hf

theorem mem_rekey {e : IndexPair × Nat} :
    e ∈ (counts.rekey f).toList ↔ ∃ k, counts[k]? = some e.2 ∧ f k = e.1 := by
  rw [(rekey_perm counts f hf).mem_iff, List.mem_map]
  constructor
  · intro hex
    obtain ⟨⟨k, n⟩, hk, rfl⟩ := hex
    exact ⟨k, Std.TreeMap.mem_toList_iff_getElem?_eq_some.mp hk, rfl⟩
  · intro hex
    obtain ⟨k, hk, heq⟩ := hex
    exact ⟨(k, e.2), Std.TreeMap.mem_toList_iff_getElem?_eq_some.mpr hk, Prod.ext heq rfl⟩

/-- Under its new key an entry is found again if no other one has that key. -/
theorem lookup_rekey {k : IndexPair} (hk : ∀ k' ∈ counts, f k' = f k → k' = k) :
    (counts.rekey f).toList.lookup (f k) = counts[k]? := by
  refine Option.ext fun n => ?_
  rw [lookup_eq_some_iff_mem (nodup_keys_toList _), mem_rekey hf]
  constructor
  · intro hex
    obtain ⟨k', hk', heq⟩ := hex
    have hmem : k' ∈ counts := Std.TreeMap.mem_iff_isSome_getElem?.mpr (by rw [hk']; rfl)
    rwa [hk k' hmem heq] at hk'
  · intro hn
    exact ⟨k, hn, rfl⟩

end rekey

end Counts

end Linkage
