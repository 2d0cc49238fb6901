import Linkage.Cluster.Record
import Linkage.Proofs.Json.Restored

/-!
# Results that are read back

The JSON forms of results restore what they write, as long as counts fit 64 bits and every double is
one that is written and read again as it is.
-/

namespace Linkage
open Json

theorem fits_names (names : List String) : namesShape.Fits names := fun _ _ => trivial

theorem reals_names (names : List String) : (namesShape.toJson names).reals = [] := by
  show itemReals (names.map Value.text) = []
  rw [itemReals_eq, List.flatMap_map, List.flatMap_eq_nil_iff]
  exact fun _ _ => rfl

theorem reals_nameList (names : List String) : (nameFormat.list.toJson names).reals = [] := by
  rw [Format.reals_list, List.flatMap_eq_nil_iff]
  exact fun _ _ => rfl

theorem restores_names (names : List String) :
    nameFormat.list.Restores (nameFormat.list.toJson names) names :=
  .list fun _ _ => Format.restores_ofShape rfl trivial nofun

theorem PairCoupling.reals_toJson (p : PairCoupling Float) : (format.toJson p).reals = [p.weight] :=
  rfl

theorem PairCoupling.restores {p : PairCoupling Float} (hcount : p.invocations < 2 ^ 64)
    (hweight : Kept p.weight) : format.Restores (format.toJson p) p := by
  have hpair : ClassPair.format.input.Fits (ClassPair.format.toOutput p.pair) :=
    .cons (by decide) trivial (.cons (by decide) trivial trivial)
  refine Format.restores_ofShape rfl ?_ (List.forall_mem_singleton.mpr hweight)
  exact .cons (by decide) hpair (.cons (by decide) hcount (.cons (by decide) trivial trivial))

theorem Cluster.reals_toJson (c : Cluster Float) : (format.toJson c).reals = [c.cohesion] := by
  show (namesShape.toJson c.members).reals ++
    (c.cohesion :: ((namesShape.toJson c.central).reals ++ [])) = _
  rw [reals_names, reals_names]
  rfl

theorem Cluster.restores {c : Cluster Float} (hid : c.id < 2 ^ 32) (hsize : c.size < 2 ^ 64)
    (hcohesion : Kept c.cohesion) : format.Restores (format.toJson c) c := by
  have hreals : ∀ x ∈ (format.toJson c).reals, Kept x := by
    rw [reals_toJson]
    exact List.forall_mem_singleton.mpr hcohesion
  refine Format.restores_ofShape rfl ?_ hreals
  exact .cons (by decide) hid (.cons (by decide) (fits_names _) (.cons (by decide) hsize
    (.cons (by decide) trivial (.cons (by decide) (fits_names _) trivial))))

theorem MergeStep.reals_toJson (s : MergeStep Float) : (format.toJson s).reals = [s.coupling] := by
  show (namesShape.toJson s.into).reals ++
    ((namesShape.toJson s.absorbed).reals ++ [s.coupling]) = _
  rw [reals_names, reals_names]
  rfl

theorem MergeStep.restores {s : MergeStep Float} (hstep : s.step < 2 ^ 64)
    (hcoupling : Kept s.coupling) : format.Restores (format.toJson s) s := by
  have hreals : ∀ x ∈ (format.toJson s).reals, Kept x := by
    rw [reals_toJson]
    exact List.forall_mem_singleton.mpr hcoupling
  refine Format.restores_ofShape ?_ ?_ hreals
  · cases s with
    | mk step phase into absorbed coupling => cases phase <;> rfl
  · exact .cons (by decide) hstep (.cons (by decide) (show "threshold" ≠ "cardinality" by decide)
      (.cons (by decide) (fits_names _) (.cons (by decide) (fits_names _)
        (.cons (by decide) trivial trivial))))

theorem Summary.reals_toJson (s : Summary Float) : (format.toJson s).reals =
    [s.averageSize, s.averageCohesion, s.intraWeight, s.interCoupling] := rfl

theorem Summary.restores {s : Summary Float}
    (hcounts : ∀ n ∈ [s.clusterCount, s.classCount, s.singletonCount, s.largest, s.smallest],
      n < 2 ^ 64)
    (hreals : ∀ x ∈ [s.averageSize, s.averageCohesion, s.intraWeight, s.interCoupling], Kept x) :
    format.Restores (format.toJson s) s := by
  refine Format.restores_ofShape rfl ?_ hreals
  simp only [List.forall_mem_cons] at hcounts
  obtain ⟨hclusters, hclasses, hsingletons, hlargest, hsmallest, -⟩ := hcounts
  exact .cons (by decide) hclusters (.cons (by decide) hclasses (.cons (by decide) hsingletons
    (.cons (by decide) hlargest (.cons (by decide) hsmallest (.cons (by decide) trivial
      (.cons (by decide) trivial (.cons (by decide) trivial
        (.cons (by decide) trivial trivial))))))))

end Linkage
