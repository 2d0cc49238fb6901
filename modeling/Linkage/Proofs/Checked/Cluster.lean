import Linkage.Proofs.Checked.Access
import Linkage.Proofs.Cluster.Phases

/-!
# Clustering with checked accesses

The scan for the most coupled groups, the removal of the absorbed group and then the access to the
remaining one, and the look-ups of names all succeed as long as the groups are a partition of the
indexes, and each merge leaves them one.
-/

namespace Linkage
open Scale

variable {R : Type} [Scale R] {w : Weights R} {groups : List Group} {c : Candidate R} {m : Matrix}

def cohesion? (w : Weights R) (members : Group) : Option R := do
  let weights ← scan? (fun _ _ x y => w x y) members
  return mean weights.reduceOption

theorem cohesion?_eq (w : Weights R) (members : Group) :
    cohesion? w members = some (cohesion w members) := by
  have hweights : ((pairsOf members.zipIdx).map fun p => w p.1.1 p.2.1).reduceOption =
      recorded w (pairsOf members) := by
    rw [recorded, ← map_pairsOf_zipIdx members, List.filterMap_map, List.reduceOption,
      List.filterMap_map]
    rfl
  rw [cohesion?, bind_of_some (scan?_eq ..), hweights]
  rfl

def Candidate.all? (w : Weights R) (groups : List Group) : Option (List (Candidate R)) :=
  scan? (fun i j a b => ⟨i, j, a, b, average w a b⟩) groups

theorem Candidate.all?_eq (w : Weights R) (groups : List Group) :
    all? w groups = some (all w groups) := scan?_eq ..

namespace Matrix

def namesOf? (m : Matrix) (members : Group) : Option (List String) := members.mapM m.class?

theorem namesOf?_eq {members : Group} (h : ∀ i ∈ members, i < m.classCount) :
    m.namesOf? members = some (m.namesOf members) := by
  apply mapM_eq_filterMap
  intro i hi
  rw [Option.isSome_iff_exists]
  exact class?_isSome (h i hi)

/-- Removes the one group, adds its members to the other, and names both. -/
def mergeGroups? (m : Matrix) (c : Candidate R) (phase : Phase) (step : Nat)
    (groups : List Group) : Option (MergeStep R × List Group) := do
  let absorbed ← groups[c.absorbedAt]?
  let rest := groups.eraseIdx c.absorbedAt
  let into ← rest[c.intoAt]?
  let intoNames ← m.namesOf? into
  let absorbedNames ← m.namesOf? absorbed
  return (⟨step, phase, intoNames, absorbedNames, c.coupling⟩, rest.set c.intoAt (into ++ absorbed))

theorem mergeGroups?_eq (hp : Partition m.classCount groups) (hc : c.Of w groups) (phase : Phase)
    (step : Nat) : m.mergeGroups? c phase step groups =
      some (⟨step, phase, m.namesOf c.into, m.namesOf c.absorbed, c.coupling⟩, c.join groups) := by
  have hinto : (groups.eraseIdx c.absorbedAt)[c.intoAt]? = some c.into := by
    rw [List.getElem?_eraseIdx_of_lt hc.lt, hc.into_at]
  have hjoin : (groups.eraseIdx c.absorbedAt).set c.intoAt (c.into ++ c.absorbed) =
      c.join groups := by
    rw [Candidate.join, modify_eq_set_of_getElem? _ hc.into_at, List.eraseIdx_set_gt hc.lt]
  have hnames : m.namesOf? c.into = some (m.namesOf c.into) :=
    namesOf?_eq fun i => hp.lt (List.mem_of_getElem? hc.into_at)
  have hnames' : m.namesOf? c.absorbed = some (m.namesOf c.absorbed) :=
    namesOf?_eq fun i => hp.lt (List.mem_of_getElem? hc.absorbed_at)
  rw [mergeGroups?, bind_of_some hc.absorbed_at, bind_of_some hinto, bind_of_some hnames,
    bind_of_some hnames', hjoin]
  rfl

/-- The steps of a phase, numbered on from `done` earlier ones, and the last groups. -/
def mergeWhile? (m : Matrix) (w : Weights R) (goesOn : Guard R) (phase : Phase) (done fuel : Nat)
    (groups : List Group) : Option (List (MergeStep R) × List Group) :=
  match fuel with
  | 0 => some ([], groups)
  | fuel + 1 => do
    let candidates ← Candidate.all? w groups
    match Candidate.best? candidates with
    | none => return ([], groups)
    | some c =>
      if goesOn groups c.coupling then
        let merged ← m.mergeGroups? c phase (done + 1) groups
        let rest ← m.mergeWhile? w goesOn phase (done + 1) fuel merged.2
        return (merged.1 :: rest.1, rest.2)
      else return ([], groups)

theorem mergeWhile?_eq (goesOn : Guard R) (phase : Phase) (done fuel : Nat)
    (hp : Partition m.classCount groups) :
    m.mergeWhile? w goesOn phase done fuel groups =
      some (m.stepsOf phase done (mergeWhile w goesOn fuel groups).made,
        (mergeWhile w goesOn fuel groups).groups) := by
  induction fuel generalizing done groups with
  | zero => rfl
  | succ fuel ih =>
    rw [mergeWhile?, mergeWhile, bind_of_some (Candidate.all?_eq w groups), mostCoupled?]
    cases hc : Candidate.best? (Candidate.all w groups) with
    | none => rfl
    | some c =>
      have hof : c.Of w groups := mostCoupled?_of hc
      dsimp only
      by_cases hgo : goesOn groups c.coupling
      · rw [if_pos hgo, if_pos hgo, bind_of_some (mergeGroups?_eq hp hof phase (done + 1)),
          bind_of_some (ih (done + 1) (hp.join hof))]
        rfl
      · rw [if_neg hgo, if_neg hgo]
        rfl

def mergeAbove? (m : Matrix) (w : Weights R) (threshold : R) (groups : List Group) :
    Option (List (MergeStep R) × List Group) :=
  m.mergeWhile? w (fun _ coupling => !atMost coupling threshold) .threshold 0 groups.length groups

def mergeDownTo? (m : Matrix) (w : Weights R) (limit done : Nat) (groups : List Group) :
    Option (List (MergeStep R) × List Group) :=
  if limit = 0 then some ([], groups)
  else m.mergeWhile? w (fun gs _ => limit < gs.length) .cardinality done groups.length groups

theorem mergeDownTo?_eq (limit done : Nat) (hp : Partition m.classCount groups) :
    m.mergeDownTo? w limit done groups =
      some (m.stepsOf .cardinality done (mergeDownTo w limit groups).made,
        (mergeDownTo w limit groups).groups) := by
  unfold mergeDownTo? mergeDownTo
  split
  · rfl
  · exact mergeWhile?_eq _ _ _ _ hp

def clusterOf? (m : Matrix) (w : Weights R) (centralCount id : Nat) (members : Group) :
    Option (Cluster R) := do
  let id ← word? id
  let cohesion ← cohesion? w members
  let central ← m.namesOf? (central w members centralCount)
  let names ← m.namesOf? members
  return { id, members := names, size := members.length, cohesion, central }

theorem central_subset (w : Weights R) (members : Group) (n : Nat) :
    central w members n ⊆ members := by
  intro x hx
  obtain ⟨p, hp, rfl⟩ := List.mem_map.mp hx
  obtain ⟨y, hy, rfl⟩ := List.mem_map.mp ((sortBy_perm _ _).mem_iff.mp (List.mem_of_mem_take hp))
  exact hy

theorem clusterOf?_eq (centralCount : Nat) {id : Nat} {members : Group} (hid : id < 2 ^ 32)
    (h : ∀ i ∈ members, i < m.classCount) : m.clusterOf? w centralCount id members =
      some (m.clusterOf w centralCount id members) := by
  have hcentral : m.namesOf? (central w members centralCount) =
      some (m.namesOf (central w members centralCount)) :=
    namesOf?_eq fun i hi => h i (central_subset w members centralCount hi)
  rw [clusterOf?, bind_of_some (word?_eq hid), bind_of_some (cohesion?_eq w members),
    bind_of_some hcentral, bind_of_some (namesOf?_eq h)]
  rfl

def cluster? (m : Matrix) (threshold : R) (centralCount : Nat) : Option (Outcome R) := do
  let table : WeightTable R := m.weightTable
  let w : Weights R := table.get
  let maxModules := m.classCount / 2
  let count ← word? m.classCount
  let first ← m.mergeAbove? w threshold ((List.range count).map fun i => [i])
  let second ← m.mergeDownTo? w maxModules first.1.length first.2
  let clusters ← second.2.zipIdx.mapM fun (members, id) => m.clusterOf? w centralCount id members
  return {
    clusters
    steps := first.1 ++ second.1
    threshold
    classCount := m.classCount
    maxModules }

theorem cluster?_eq (h : m.classCount < 2 ^ 32) (threshold : R) (centralCount : Nat) :
    m.cluster? threshold centralCount = some (m.cluster threshold centralCount) := by
  let w : Weights R := (m.weightTable : WeightTable R).get
  let first := mergeAbove w threshold m.singletons
  let second := mergeDownTo w (m.classCount / 2) first.groups
  have hrun : MergeRun w (exceeds threshold) m.singletons first.made first.groups :=
    mergeWhile_run ..
  have hrun' : MergeRun w (outnumbers (m.classCount / 2)) first.groups second.made second.groups :=
    mergeDownTo_run ..
  have hfirst : Partition m.classCount first.groups := hrun.partition (Partition.singletons m)
  have hsecond : Partition m.classCount second.groups := hrun'.partition hfirst
  have hclusters : (second.groups.zipIdx.mapM fun (members, id) =>
      m.clusterOf? w centralCount id members) =
      some (second.groups.zipIdx.map fun (members, id) =>
        m.clusterOf w centralCount id members) := by
    apply mapM_eq_map
    intro g hg
    have hat := List.mem_zipIdx_iff_getElem?.mp hg
    have hid : g.2 < second.groups.length := (List.getElem?_eq_some_iff.mp hat).1
    have hlength := hrun.length_add
    have hlength' := hrun'.length_add
    rw [m.length_singletons] at hlength
    exact clusterOf?_eq centralCount (by omega) fun i => hsecond.lt (List.mem_of_getElem? hat)
  have habove : m.mergeAbove? w threshold m.singletons =
      some (m.stepsOf .threshold 0 first.made, first.groups) :=
    mergeWhile?_eq _ _ _ _ (Partition.singletons m)
  have hlength : (m.stepsOf .threshold 0 first.made).length = first.made.length := by
    simp [stepsOf]
  refine (bind_of_some (word?_eq h) _).trans ?_
  refine (bind_of_some habove _).trans ?_
  refine (bind_of_some (mergeDownTo?_eq _ _ hfirst) _).trans ?_
  refine (bind_of_some hclusters _).trans ?_
  rw [hlength]
  rfl

end Matrix

end Linkage
