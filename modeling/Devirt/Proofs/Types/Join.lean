import Devirt.Proofs.Types.Order
import Mathlib.Order.Defs.Unbundled

/-!
Joins of static types. Where nothing is above itself and nothing stands above the root, the types are
partially ordered, and a join is an upper bound that does not depend on the order of its arguments:
the two walks up the superclasses, each looking for a class of the other one, stop at the same class.
-/

namespace Devirt

open Relation

namespace Hierarchy

variable {h : Hierarchy} {a b t u : TypeName}

/-! ### The nearest class above two types -/

theorem reaches_of_mem_classAncestors (hu : u ∈ h.classAncestors t) :
    ReflTransGen (Leads h.supertypes) t u := by
  unfold classAncestors at hu
  rw [List.mem_map] at hu
  obtain ⟨c, hc, rfl⟩ := hu
  exact reaches_of_mem_superclasses (List.mem_of_mem_filter hc)

/-- Later classes on the way up stand above earlier ones. -/
theorem pairwise_classAncestors (t : TypeName) :
    (h.classAncestors t).Pairwise (ReflTransGen (Leads h.supertypes)) := by
  unfold classAncestors
  apply List.Pairwise.map
  · intro c d hcd
    exact hcd
  · apply List.Pairwise.filter
    exact (pairwise_superclasses t).imp fun hcd => hcd.to_reflTransGen

/-- Every class above both types stands above the one that is found on the way up from `b`. -/
theorem reaches_of_commonClass (hua : u ∈ h.classAncestors a) (hub : u ∈ h.classAncestors b) :
    h.commonClass a b ∈ h.classAncestors a ∧ h.commonClass a b ∈ h.classAncestors b ∧
      ReflTransGen (Leads h.supertypes) (h.commonClass a b) u := by
  cases hfind : (h.classAncestors b).find? (· ∈ h.classAncestors a) with
  | none =>
    have hnot := List.find?_eq_none.1 hfind u hub
    simp [hua] at hnot
  | some x =>
    have hx : h.commonClass a b = x := by
      simp only [commonClass, hfind, Option.getD_some]
    obtain ⟨hxa, before, after, hsplit, hbefore⟩ := List.find?_eq_some_iff_append.1 hfind
    rw [decide_eq_true_eq] at hxa
    rw [hx]
    refine ⟨hxa, List.mem_of_find?_eq_some hfind, ?_⟩
    -- nothing before `x` is above `a`, so `u` is `x` or comes after it
    rw [hsplit, List.mem_append] at hub
    have hpair := pairwise_classAncestors (h := h) b
    rw [hsplit, List.pairwise_append, List.pairwise_cons] at hpair
    rcases hub with hub | hub
    · have hnot := hbefore u hub
      simp [hua] at hnot
    · rcases List.mem_cons.1 hub with rfl | hub
      · exact .refl
      · exact hpair.2.1.1 u hub

/-- Without a class above both types the root is taken. -/
theorem commonClass_eq_rootType (hnone : ∀ u ∈ h.classAncestors b, u ∉ h.classAncestors a) :
    h.commonClass a b = rootType := by
  have hfind : (h.classAncestors b).find? (· ∈ h.classAncestors a) = none := by
    rw [List.find?_eq_none]
    intro u hu
    simp [hnone u hu]
  simp only [commonClass, hfind, Option.getD_none]

/-- The two walks stop at the same class: each of the two classes found stands above the other. -/
theorem Acyclic.commonClass_comm (ha : h.Acyclic) (a b : TypeName) :
    h.commonClass a b = h.commonClass b a := by
  by_cases hcommon : ∃ u, u ∈ h.classAncestors a ∧ u ∈ h.classAncestors b
  · obtain ⟨u, hua, hub⟩ := hcommon
    obtain ⟨hxa, hxb, -⟩ := reaches_of_commonClass hua hub
    obtain ⟨hyb, hya, -⟩ := reaches_of_commonClass hub hua
    apply ha.eq_of_reaches
    · exact (reaches_of_commonClass hya hyb).2.2
    · exact (reaches_of_commonClass hxb hxa).2.2
  · have hnone : ∀ u ∈ h.classAncestors a, u ∉ h.classAncestors b := by
      intro u hua hub
      exact hcommon ⟨u, hua, hub⟩
    rw [commonClass_eq_rootType hnone, commonClass_eq_rootType fun u hub hua => hnone u hua hub]

theorem isSubtype_commonClass (a b : TypeName) :
    h.isSubtype a (h.commonClass a b) = true ∧ h.isSubtype b (h.commonClass a b) = true := by
  by_cases hcommon : ∃ u, u ∈ h.classAncestors a ∧ u ∈ h.classAncestors b
  · obtain ⟨u, hua, hub⟩ := hcommon
    obtain ⟨hxa, hxb, -⟩ := reaches_of_commonClass hua hub
    exact ⟨isSubtype_of_reaches (reaches_of_mem_classAncestors hxa),
      isSubtype_of_reaches (reaches_of_mem_classAncestors hxb)⟩
  · rw [commonClass_eq_rootType fun u hub hua => hcommon ⟨u, hua, hub⟩]
    exact ⟨isSubtype_rootType h a, isSubtype_rootType h b⟩

end Hierarchy

/-! ### Nullability -/

namespace Nullability

variable {a b : Nullability}

theorem join_comm (a b : Nullability) : a.join b = b.join a := by
  cases a <;> cases b <;> rfl

theorem le_join_left (a b : Nullability) : a.le (a.join b) = true := by
  cases a <;> cases b <;> rfl

theorem le_antisymm (hab : a.le b = true) (hba : b.le a = true) : a = b := by
  cases a <;> cases b <;> simp_all [le]

end Nullability

/-! ### References -/

namespace ReferenceType

variable {h : Hierarchy}

theorem isSubtype_name_join (h : Hierarchy) (a b : ReferenceType) :
    h.isSubtype a.name (a.join h b).name = true ∧ h.isSubtype b.name (a.join h b).name = true := by
  unfold join
  dsimp only
  split_ifs with hname hab hba
  · exact ⟨h.isSubtype_refl _, hname ▸ h.isSubtype_refl _⟩
  · exact ⟨hab, h.isSubtype_refl _⟩
  · exact ⟨h.isSubtype_refl _, hba⟩
  · exact h.isSubtype_commonClass a.name b.name

theorem name_join_comm (ha : h.Acyclic) (hroot : h.class? rootType = some Class.root)
    (a b : ReferenceType) : (a.join h b).name = (b.join h a).name := by
  unfold join
  dsimp only
  by_cases hname : a.name = b.name
  · rw [if_pos hname, if_pos hname.symm, hname]
  · rw [if_neg hname, if_neg (Ne.symm hname)]
    by_cases hab : h.isSubtype a.name b.name = true
    · have hba : ¬ h.isSubtype b.name a.name = true := by
        intro hba
        exact hname (ha.isSubtype_antisymm hroot hab hba)
      rw [if_pos hab, if_neg hba, if_pos hab]
    · by_cases hba : h.isSubtype b.name a.name = true
      · rw [if_neg hab, if_pos hba, if_pos hba]
      · rw [if_neg hab, if_neg hba, if_neg hba, if_neg hab]
        exact ha.commonClass_comm a.name b.name

theorem join_comm (ha : h.Acyclic) (hroot : h.class? rootType = some Class.root)
    (a b : ReferenceType) : a.join h b = b.join h a := by
  have hname := name_join_comm ha hroot a b
  have hnull := Nullability.join_comm a.nullability b.nullability
  have hexact : (decide (a.name = b.name) && a.exact && b.exact) =
      (decide (b.name = a.name) && b.exact && a.exact) := by
    rw [Bool.and_assoc, Bool.and_assoc, Bool.and_comm a.exact, decide_eq_decide.2 eq_comm]
  unfold join at hname ⊢
  rw [mk.injEq]
  exact ⟨hname, hnull, hexact⟩

@[simp] theorem join_self (h : Hierarchy) (a : ReferenceType) : a.join h a = a := by
  simp [join]

end ReferenceType

/-! ### Static types -/

namespace StaticType

variable {h : Hierarchy} {s t u : StaticType}

theorem le_antisymm (ha : h.Acyclic) (hroot : h.class? rootType = some Class.root)
    (hst : s.le h t = true) (hts : t.le h s = true) : s = t := by
  cases s with
  | reference a =>
    cases t with
    | reference b =>
      obtain ⟨hnull, hsub, hexact⟩ := le_reference.1 hst
      obtain ⟨hnull', hsub', hexact'⟩ := le_reference.1 hts
      have hname : a.name = b.name := ha.isSubtype_antisymm hroot hsub hsub'
      have hboth : a.exact = b.exact := by
        rw [Bool.eq_iff_iff]
        exact ⟨fun hx => (hexact' hx).1, fun hx => (hexact hx).1⟩
      cases a
      cases b
      simp only [reference.injEq, ReferenceType.mk.injEq]
      exact ⟨hname, Nullability.le_antisymm hnull hnull', hboth⟩
    | _ => simp_all [le]
  | _ => cases t <;> simp_all [le]

theorem join_comm (ha : h.Acyclic) (hroot : h.class? rootType = some Class.root)
    (t u : StaticType) : t.join h u = u.join h t := by
  cases t with
  | reference a =>
    cases u with
    | reference b =>
      show reference (a.join h b) = reference (b.join h a)
      rw [ReferenceType.join_comm ha hroot]
    | _ => rfl
  | primitive p =>
    cases u with
    | primitive q =>
      by_cases hpq : p = q
      · rw [hpq]
      · simp [join, hpq, Ne.symm hpq]
    | _ => rfl
  | _ => cases u <;> rfl

@[simp] theorem join_self (h : Hierarchy) (t : StaticType) : t.join h t = t := by
  cases t <;> simp [join]

/-- A reference stays below itself when it may also be null. -/
theorem le_reference_join_null (r : ReferenceType) :
    le h (.reference r) (.reference { r with nullability := r.nullability.join .null }) = true ∧
      le h .null (.reference { r with nullability := r.nullability.join .null }) = true := by
  constructor
  · rw [le_reference]
    exact ⟨Nullability.le_join_left _ _, h.isSubtype_refl _, fun hexact => ⟨hexact, rfl⟩⟩
  · cases hr : r.nullability <;> simp [le, Nullability.join]

/-- A join is an upper bound on whatever hierarchy. -/
theorem le_join (h : Hierarchy) (t u : StaticType) :
    t.le h (t.join h u) = true ∧ u.le h (t.join h u) = true := by
  cases t with
  | bottom => simp
  | top => cases u <;> simp [join]
  | null =>
    cases u with
    | reference r => exact (le_reference_join_null r).symm
    | _ => simp [join]
  | primitive p =>
    cases u with
    | primitive q =>
      by_cases hpq : p = q <;> simp [join, hpq]
    | _ => simp [join]
  | reference a =>
    cases u with
    | null => exact le_reference_join_null a
    | reference b =>
      obtain ⟨hsub, hsub'⟩ := a.isSubtype_name_join h b
      -- a join of references is exact only if both name the same class
      have hexact : (a.join h b).exact = true → a.name = b.name ∧ a.exact = true ∧
          b.exact = true ∧ (a.join h b).name = a.name := by
        intro hx
        simp only [ReferenceType.join, Bool.and_eq_true, decide_eq_true_eq] at hx
        exact ⟨hx.1.1, hx.1.2, hx.2, if_pos hx.1.1⟩
      constructor
      · apply le_reference.2
        refine ⟨Nullability.le_join_left _ _, hsub, fun hx => ?_⟩
        obtain ⟨-, hxa, -, hname⟩ := hexact hx
        exact ⟨hxa, hname.symm⟩
      · apply le_reference.2
        refine ⟨?_, hsub', fun hx => ?_⟩
        · show b.nullability.le (a.nullability.join b.nullability) = true
          rw [Nullability.join_comm]
          exact Nullability.le_join_left _ _
        · obtain ⟨hab, -, hxb, hname⟩ := hexact hx
          exact ⟨hxb, hab.symm.trans hname.symm⟩
    | _ => simp [join]

/-- On an acyclic hierarchy with the built-in root, static types are partially ordered, and the join of
two types is an upper bound of both that does not depend on their order and does not change a type
joined with itself. -/
theorem isPartialOrder_le_and_join (ha : h.Acyclic) (hroot : h.class? rootType = some Class.root) :
    IsPartialOrder StaticType (fun s t => s.le h t = true) ∧
      ∀ t u : StaticType, t.join h u = u.join h t ∧ t.join h t = t ∧
        t.le h (t.join h u) = true ∧ u.le h (t.join h u) = true := by
  constructor
  · exact { refl := le_refl h
            trans := fun _ _ _ hst htu => le_trans hroot hst htu
            antisymm := fun _ _ hst hts => le_antisymm ha hroot hst hts }
  · intro t u
    obtain ⟨ht, hu⟩ := le_join h t u
    exact ⟨join_comm ha hroot t u, join_self h t, ht, hu⟩

/-- Two classes below a class whose own superclass is missing, one of them by way of an interface. -/
def besideInterface : Hierarchy :=
  { defined := [
      { name := "A", superclass := some "X" },
      { name := "J", superclass := some "A", isInterface := true },
      { name := "B", superclass := some "J" },
      { name := "C", superclass := some "A" }] }

theorem le_join_besideInterface :
    besideInterface.Acyclic ∧
      besideInterface.class? rootType = some Class.root ∧
      join besideInterface (exactly "B" .notNull) (ofClass "C" .maybe) = ofClass "A" .maybe ∧
      join besideInterface (ofClass "C" .maybe) (exactly "B" .notNull) = ofClass "A" .maybe ∧
      le besideInterface (exactly "B" .notNull) (ofClass "A" .maybe) = true := by
  have ha : besideInterface.Acyclic :=
    Hierarchy.acyclic_of_rank (fun t => if t = rootType ∨ t = "X" then 3 else
      if t = "A" then 2 else if t = "J" then 1 else 0) (by decide +kernel)
  have hroot : besideInterface.class? rootType = some Class.root := by decide +kernel
  have hjoin : join besideInterface (exactly "B" .notNull) (ofClass "C" .maybe) =
      ofClass "A" .maybe := by decide +kernel
  obtain ⟨-, hlaws⟩ := isPartialOrder_le_and_join ha hroot
  obtain ⟨hcomm, -, hle, -⟩ := hlaws (exactly "B" .notNull) (ofClass "C" .maybe)
  rw [hjoin] at hcomm hle
  exact ⟨ha, hroot, hjoin, hcomm.symm, hle⟩

end StaticType

end Devirt
