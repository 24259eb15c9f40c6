import Devirt.Proofs.Hierarchy.Subtyping
import Mathlib.Data.Finset.Card

/-!
Subtyping as an order. As long as nothing stands above the root, subtyping is transitive in spite of
the shortcut to the root. Without cycles it is antisymmetric as well, and each type has a rank below
those of its supertypes.
-/

namespace Devirt

open Relation

namespace Hierarchy

variable {h : Hierarchy} {a b c t : TypeName}

theorem eq_rootType_of_reaches (hroot : h.class? rootType = some Class.root)
    (hr : ReflTransGen (Leads h.supertypes) rootType b) : b = rootType := by
  rcases hr.cases_head with rfl | ⟨c, hc, -⟩
  · rfl
  · rw [Leads, supertypes_of_class? hroot] at hc
    exact absurd hc List.not_mem_nil

theorem isSubtype_trans (hroot : h.class? rootType = some Class.root)
    (hab : h.isSubtype a b = true) (hbc : h.isSubtype b c = true) : h.isSubtype a c = true := by
  rcases isSubtype_iff.1 hbc with rfl | hbc
  · exact isSubtype_rootType h a
  · rcases isSubtype_iff.1 hab with rfl | hab
    · rw [eq_rootType_of_reaches hroot hbc]
      exact isSubtype_rootType h a
    · exact isSubtype_of_reaches (hab.trans hbc)

theorem Acyclic.eq_of_reaches (ha : h.Acyclic) (hab : ReflTransGen (Leads h.supertypes) a b)
    (hba : ReflTransGen (Leads h.supertypes) b a) : a = b := by
  by_contra hne
  have hup := (reflTransGen_iff_eq_or_transGen.1 hab).resolve_left (Ne.symm hne)
  exact ha a (hup.trans_left hba)

/-- The shortcut to the root makes no cycle either. -/
theorem Acyclic.isSubtype_antisymm (ha : h.Acyclic) (hroot : h.class? rootType = some Class.root)
    (hab : h.isSubtype a b = true) (hba : h.isSubtype b a = true) : a = b := by
  rcases isSubtype_iff.1 hab with rfl | hab
  · rcases isSubtype_iff.1 hba with rfl | hba
    · rfl
    · exact eq_rootType_of_reaches hroot hba
  · rcases isSubtype_iff.1 hba with rfl | hba
    · exact (eq_rootType_of_reaches hroot hab).symm
    · exact ha.eq_of_reaches hab hba

/-- The defined types that a type is below. -/
def above (h : Hierarchy) (t : TypeName) : Finset TypeName :=
  h.definedNames.toFinset.filter (· ∈ h.ancestors t)

/-- A number that grows along the supertypes of a hierarchy. -/
def rank (h : Hierarchy) (t : TypeName) : Nat :=
  if t = rootType then h.size + 1 else h.size - (h.above t).card

theorem rank_le : h.rank t ≤ h.size + 1 := by
  rw [rank]
  split <;> omega

theorem card_above_le : (h.above t).card ≤ h.size :=
  (Finset.card_filter_le _ _).trans (List.toFinset_card_le _)

theorem rank_lt (ha : h.Acyclic) (htop : h.supertypes rootType = []) (hsub : h.isSubtype a b = true)
    (hne : a ≠ b) : h.rank a < h.rank b := by
  rcases isSubtype_iff.1 hsub with rfl | hreach
  · rw [rank, rank, if_neg hne, if_pos rfl]
    omega
  · obtain ⟨c, hac, hcb⟩ := (ReflTransGen.cases_head hreach).resolve_left hne
    have hroot : a ≠ rootType := by
      rintro rfl
      simp [Leads, htop] at hac
    by_cases hb : b = rootType
    · rw [rank, rank, if_neg hroot, if_pos hb]
      omega
    · have hcard : (h.above b).card < (h.above a).card := by
        refine Finset.card_lt_card (Finset.ssubset_iff_of_subset ?_ |>.2 ⟨a, ?_, ?_⟩)
        · intro d hd'
          simp only [above, Finset.mem_filter, mem_ancestors_iff] at hd' ⊢
          exact ⟨hd'.1, hreach.trans hd'.2⟩
        · simp only [above, Finset.mem_filter, List.mem_toFinset, mem_definedNames,
            mem_ancestors_iff]
          refine ⟨?_, .refl⟩
          by_contra hnone
          simp [Leads, supertypes, Option.not_isSome_iff_eq_none.1 hnone] at hac
        · intro hmem
          simp only [above, Finset.mem_filter, mem_ancestors_iff] at hmem
          exact ha a (.head' hac (hcb.trans hmem.2))
      have := card_above_le (h := h) (t := a)
      rw [rank, rank, if_neg hroot, if_neg hb]
      omega

end Hierarchy

end Devirt
