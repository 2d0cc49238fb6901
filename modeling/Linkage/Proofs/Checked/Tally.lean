import Linkage.Proofs.Checked.Access
import Linkage.Proofs.Tally.Build

/-!
# Recording with checked accesses

Recording gives out numbers that have to fit into words, and the matrix of a tally looks up the
place of every name and of every number that it counted. As long as there are no more names than
words, nothing fails.
-/

namespace Linkage

/-- Other keys for all counts, if there is one for each. -/
def Counts.rekey? (c : Counts) (key? : IndexPair → Option IndexPair) : Option Counts := do
  let entries ← c.toList.mapM fun (k, n) => do return (← key? k, n)
  return Std.TreeMap.ofList entries IndexPair.compare

theorem Counts.rekey?_eq {c : Counts} {key? : IndexPair → Option IndexPair}
    {key : IndexPair → IndexPair} (h : ∀ k ∈ c, key? k = some (key k)) :
    c.rekey? key? = some (c.rekey key) := by
  have hentries : (c.toList.mapM fun (k, n) => do return (← key? k, n)) =
      some (c.toList.map fun (k, n) => (key k, n)) := by
    apply mapM_eq_map
    intro e he
    have hmem : e.1 ∈ c := by
      rw [← Std.TreeMap.mem_keys, ← Std.TreeMap.map_fst_toList_eq_keys]
      exact List.mem_map_of_mem he
    simp [h e.1 hmem]
  rw [rekey?, bind_of_some hentries]
  rfl

namespace Tally

/-- The number of a class; a new one has to be a word. -/
def intern? (t : Tally) (name : String) : Option (Nat × Tally) :=
  match t.index[name]? with
  | some i => some (i, t)
  | none => do
    let i ← word? t.names.size
    return (i, { t with names := t.names.push name, index := t.index.insert name i })

def record? (t : Tally) (caller callee : String) : Option Tally :=
  if caller = callee then some { t with selfTotal := t.selfTotal + 1 }
  else do
    let (a, t) ← t.intern? caller
    let (b, t) ← t.intern? callee
    return { t with
      pairCounts := t.pairCounts.bump (indexKey a b)
      callCounts := t.callCounts.bump (a, b)
      total := t.total + 1 }

def recordAll? (t : Tally) (events : List Event) : Option Tally :=
  events.foldlM (fun t e => t.record? e.caller e.callee) t

variable {t : Tally}

theorem intern?_eq {name : String} (h : (t.intern name).2.names.size ≤ 2 ^ 32) :
    t.intern? name = some (t.intern name) := by
  unfold intern? intern
  cases hname : t.index[name]? with
  | some i => rfl
  | none =>
    simp only [intern, hname, Array.size_push] at h
    rw [bind_of_some (word?_eq h)]
    rfl

theorem size_le_record (t : Tally) (caller callee : String) :
    t.names.size ≤ (t.record caller callee).names.size := by
  by_cases hself : caller = callee
  · rw [record, if_pos hself]
  · rw [record_of_ne t hself]
    exact (intern_size t caller).1.trans (intern_size (t.intern caller).2 callee).1

theorem record?_eq {caller callee : String} (h : (t.record caller callee).names.size ≤ 2 ^ 32) :
    t.record? caller callee = some (t.record caller callee) := by
  by_cases hself : caller = callee
  · rw [record?, record, if_pos hself, if_pos hself]
  · have hcallee : ((t.intern caller).2.intern callee).2.names.size ≤ 2 ^ 32 := by
      rwa [record_of_ne t hself] at h
    have hcaller := (intern_size (t.intern caller).2 callee).1.trans hcallee
    rw [record?, if_neg hself, record_of_ne t hself, bind_of_some (intern?_eq hcaller)]
    exact bind_of_some (intern?_eq hcallee) _

theorem size_le_recordAll (t : Tally) (events : List Event) :
    t.names.size ≤ (t.recordAll events).names.size := by
  induction events generalizing t with
  | nil => exact Nat.le_refl _
  | cons e events ih => exact (size_le_record t e.caller e.callee).trans (ih _)

theorem recordAll?_eq {events : List Event} (h : (t.recordAll events).names.size ≤ 2 ^ 32) :
    t.recordAll? events = some (t.recordAll events) := by
  induction events generalizing t with
  | nil => rfl
  | cons e events ih =>
    have hrecord := record?_eq ((size_le_recordAll (t.record e.caller e.callee) events).trans h)
    unfold recordAll? at ih ⊢
    rw [List.foldlM_cons, bind_of_some hrecord]
    exact ih h

/-- The place of each class, found among the sorted ones. -/
def places? (t : Tally) : Option (List Nat) :=
  t.names.toList.mapM fun name => do word? (← t.classes.idxOf? name)

def build? (t : Tally) : Option Matrix := do
  let places ← t.places?
  let pairCounts ← t.pairCounts.rekey? fun (a, b) => do
    return indexKey (← places[a]?) (← places[b]?)
  let callCounts ← t.callCounts.rekey? fun (a, b) => do return (← places[a]?, ← places[b]?)
  return {
    classes := t.classes
    pairCounts := pairCounts.toList
    callCounts := callCounts.toList
    total := t.total }

theorem places?_eq (h : t.Numbered) (hsize : t.names.size ≤ 2 ^ 32) :
    t.places? = some t.places.toList := by
  have hplaces : t.places? = some (t.names.toList.map fun name => t.classes.idxOf name) := by
    apply mapM_eq_map
    intro name hname
    have hmem : name ∈ t.classes := by
      rw [mem_classes h]
      exact Array.mem_iff_getElem?.mp (Array.mem_toList_iff.mp hname)
    have hlt := List.idxOf_lt_length_of_mem hmem
    rw [length_classes h] at hlt
    have hfind : t.classes.idxOf? name = some (t.classes.idxOf name) := by
      obtain ⟨i, hi⟩ := Option.isSome_iff_exists.mp (List.isSome_idxOf?.mpr hmem)
      rw [List.idxOf_eq_getD_idxOf?, hi, Option.getD_some]
    rw [bind_of_some hfind, word?_eq (hlt.trans_le hsize)]
  rw [hplaces, places, Array.toList_map]

theorem getElem?_places {i : Nat} (hi : i < t.names.size) :
    t.places.toList[i]? = some (t.place i) := by
  have hplace : i < t.places.size := by
    unfold places
    rwa [Array.size_map]
  rw [Array.getElem?_toList, place, Array.getD_eq_getD_getElem?, Array.getElem?_eq_getElem hplace,
    Option.getD_some]

theorem build?_eq (h : t.Consistent) (hc : t.CallsConsistent) (hsize : t.names.size ≤ 2 ^ 32) :
    t.build? = some t.build := by
  have hpairs : (t.pairCounts.rekey? fun (a, b) => do
      return indexKey (← t.places.toList[a]?) (← t.places.toList[b]?)) =
      some (t.pairCounts.rekey fun (a, b) => indexKey (t.place a) (t.place b)) := by
    apply Counts.rekey?_eq
    intro k hk
    obtain ⟨hlt, hlt'⟩ := h.pair_lt k hk
    simp [getElem?_places (hlt.trans hlt'), getElem?_places hlt']
  have hcalls : (t.callCounts.rekey? fun (a, b) => do
      return (← t.places.toList[a]?, ← t.places.toList[b]?)) =
      some (t.callCounts.rekey fun (a, b) => (t.place a, t.place b)) := by
    apply Counts.rekey?_eq
    intro k hk
    obtain ⟨-, hlt, hlt'⟩ := hc.call_lt k hk
    simp [getElem?_places hlt, getElem?_places hlt']
  rw [build?, bind_of_some (places?_eq h.numbered hsize), bind_of_some hpairs,
    bind_of_some hcalls]
  rfl

end Tally

end Linkage
