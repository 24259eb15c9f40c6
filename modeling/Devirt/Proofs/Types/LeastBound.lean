import Devirt.Proofs.Types.Grouping

/-!
Joins as least upper bounds. Subtyping also goes through interfaces, a join along superclasses only.
Where interfaces lead to interfaces and to the root alone, no class other than the root is reached
through them, so every class above two types stands on both of their superclass chains. The join of
two types is then below every class type above both of them.
-/

namespace Devirt

open Relation

namespace Hierarchy

variable {h : Hierarchy} {a b c t u : TypeName}

/-- No interface has a superclass other than the root. -/
def InterfacesBelowRoot (h : Hierarchy) : Prop :=
  ∀ c ∈ h.classes, c.isInterface = true → ∀ t ∈ c.superclass, t = rootType

instance (h : Hierarchy) : Decidable h.InterfacesBelowRoot :=
  inferInstanceAs (Decidable (∀ c ∈ h.classes, _ → ∀ t ∈ c.superclass, _))

section Orderly

variable (hroot : h.class? rootType = some Class.root) (hn : h.ImplementsNoClass)
  (hi : h.InterfacesBelowRoot)
include hn

theorem ImplementsNoClass.isClass_of_mem_interfaces (hu : u ∈ h.interfaces t) :
    h.isClass u = false := by
  obtain ⟨c, hc, huc⟩ := mem_interfaces_iff.1 hu
  exact hn c (mem_classes_of_class? hc) u huc

include hroot hi

/-- From what is no class, no class but the root is reached. -/
theorem eq_rootType_of_isClass (ht : h.isClass t = false)
    (htu : ReflTransGen (Leads h.supertypes) t u) (hu : h.isClass u = true) : u = rootType := by
  induction htu using ReflTransGen.head_induction_on with
  | refl => rw [ht] at hu; cases hu
  | @head t s hts hsu ih =>
    rcases leads_supertypes_iff.1 hts with hextends | hmem
    · -- a type without a superclass entry leads nowhere, so this one is an interface
      obtain ⟨c, hc, hsuper⟩ := Option.bind_eq_some_iff.1 hextends
      have hinterface : c.isInterface = true := by simpa [isClass, hc] using ht
      obtain rfl := hi c (mem_classes_of_class? hc) hinterface s hsuper
      exact eq_rootType_of_reaches hroot hsu
    · exact ih (hn.isClass_of_mem_interfaces hmem)

/-- A class that a type is below is one of its superclasses, unless it is the root. -/
theorem extends_of_isSubtype (hc : h.isClass c = true) (hne : c ≠ rootType)
    (hac : h.isSubtype a c = true) : ReflTransGen h.Extends a c := by
  have hreach := (isSubtype_iff.1 hac).resolve_left hne
  clear hac
  induction hreach using ReflTransGen.head_induction_on with
  | refl => exact .refl
  | head hab hbc ih =>
    rcases leads_supertypes_iff.1 hab with hextends | hmem
    · exact .head hextends ih
    · have hnot := hn.isClass_of_mem_interfaces hmem
      exact absurd (eq_rootType_of_isClass hroot hn hi hnot hbc hc) hne

/-- A class above two types is above what their join names. -/
theorem isSubtype_joinName_of_isClass (ha : h.Acyclic) (hc : h.isClass c = true)
    (hac : h.isSubtype a c = true) (hbc : h.isSubtype b c = true) :
    h.isSubtype (h.joinName a b) c = true := by
  by_cases hab : h.isSubtype a b = true
  · rwa [joinName_of_isSubtype hab]
  by_cases hba : h.isSubtype b a = true
  · rwa [joinName_of_isSubtype_left ha hroot hba]
  rw [joinName_of_unrelated hab hba]
  by_cases hne : c = rootType
  · rw [hne]
    exact isSubtype_rootType h _
  · have hca : c ∈ h.classAncestors a :=
      mem_classAncestors_iff.2 ⟨hc, extends_of_isSubtype hroot hn hi hc hne hac⟩
    have hcb : c ∈ h.classAncestors b :=
      mem_classAncestors_iff.2 ⟨hc, extends_of_isSubtype hroot hn hi hc hne hbc⟩
    exact isSubtype_of_reaches (reaches_of_commonClass hca hcb).2.2

end Orderly

end Hierarchy

theorem Nullability.join_le {a b c : Nullability} (hac : a.le c = true) (hbc : b.le c = true) :
    (a.join b).le c = true := by
  revert hac hbc
  cases a <;> cases b <;> cases c <;> decide

namespace StaticType

variable {h : Hierarchy} {a b c : ReferenceType}

/-- What is above null and a reference is above the reference that may be null as well. -/
theorem reference_orNull_le (hn : le h .null (.reference c) = true)
    (hac : le h (.reference a) (.reference c) = true) :
    le h (.reference a.orNull) (.reference c) = true := by
  obtain ⟨hnull, hsub, hexact⟩ := le_reference.1 hac
  have hnull' : Nullability.null.le c.nullability = true := by
    revert hn
    cases hc : c.nullability <;> simp [le, hc, Nullability.le]
  exact le_reference.2 ⟨Nullability.join_le hnull hnull', hsub, hexact⟩

/-- On names the join has to be below the third; all else follows from the order. -/
theorem reference_join_le (hac : le h (.reference a) (.reference c) = true)
    (hbc : le h (.reference b) (.reference c) = true)
    (hname : h.isSubtype (h.joinName a.name b.name) c.name = true) :
    le h (.reference (a.join h b)) (.reference c) = true := by
  obtain ⟨hnull, -, hexact⟩ := le_reference.1 hac
  obtain ⟨hnull', -, hexact'⟩ := le_reference.1 hbc
  apply le_reference.2
  refine ⟨Nullability.join_le hnull hnull', hname, fun hc => ?_⟩
  -- above an exact type there is only the same class, so both references name it
  obtain ⟨hxa, hca⟩ := hexact hc
  obtain ⟨hxb, hcb⟩ := hexact' hc
  have hab : a.name = b.name := hca.trans hcb.symm
  refine ⟨(ReferenceType.exact_join_iff h a b).2 ⟨hab, hxa, hxb⟩, ?_⟩
  rw [h.name_join, ← hab, h.joinName_self, hca]

/-- On an acyclic hierarchy with the built-in root, where interfaces have no other superclass and
implements lists name no classes, the join of two types is below a type exactly if both are, provided
that the type, if it is a reference, names a class. -/
theorem join_le_iff_of_isClass (ha : h.Acyclic) (hroot : h.class? rootType = some Class.root)
    (hi : h.InterfacesBelowRoot) (hn : h.ImplementsNoClass) (t u w : StaticType)
    (hw : ∀ r, w = .reference r → h.isClass r.name = true) :
    (t.join h u).le h w = true ↔ t.le h w = true ∧ u.le h w = true := by
  constructor
  · intro hle
    obtain ⟨ht, hu⟩ := le_join h t u
    exact ⟨le_trans hroot ht hle, le_trans hroot hu hle⟩
  · rintro ⟨ht, hu⟩
    cases t with
    | bottom => simpa using hu
    | top => cases w <;> simp_all [le]
    | primitive p =>
      -- the bound is the primitive itself or the top
      cases w with
      | top => exact le_top h _
      | primitive q => cases u <;> simp_all [le, join]
      | _ => simp [le] at ht
    | null =>
      cases u with
      | reference b =>
        cases w with
        | reference c => exact reference_orNull_le ht hu
        | _ => simp_all [le]
      | _ => cases w <;> simp_all [le]
    | reference a =>
      cases u with
      | null =>
        cases w with
        | reference c => exact reference_orNull_le hu ht
        | _ => simp_all [le]
      | reference b =>
        cases w with
        | reference c =>
          apply reference_join_le ht hu
          exact Hierarchy.isSubtype_joinName_of_isClass hroot hn hi ha (hw c rfl)
            (le_reference.1 ht).2.1 (le_reference.1 hu).2.1
        | _ => simp_all [le]
      | _ => cases w <;> simp_all [le]

/-- Two classes that share a superclass and an interface, with a further class between one of them
and the superclass. -/
def sharedSuperclass : Hierarchy :=
  { defined := [
      { name := "I", isInterface := true },
      { name := "J", interfaces := ["I"], isInterface := true },
      { name := "P", interfaces := ["I"] },
      { name := "Q", superclass := some "P" },
      { name := "A", superclass := some "Q", interfaces := ["J"] },
      { name := "B", superclass := some "P", interfaces := ["J"] }] }

theorem join_le_sharedSuperclass :
    sharedSuperclass.Acyclic ∧
      sharedSuperclass.class? rootType = some Class.root ∧
      sharedSuperclass.InterfacesBelowRoot ∧ sharedSuperclass.ImplementsNoClass ∧
      sharedSuperclass.isClass "P" = true ∧
      le sharedSuperclass (exactly "A" .notNull) (ofClass "P" .maybe) = true ∧
      le sharedSuperclass (ofClass "B" .null) (ofClass "P" .maybe) = true ∧
      le sharedSuperclass (join sharedSuperclass (exactly "A" .notNull) (ofClass "B" .null))
        (ofClass "P" .maybe) = true := by
  have ha : sharedSuperclass.Acyclic :=
    Hierarchy.acyclic_of_rank (fun t => if t = rootType then 4 else if t = "I" then 3 else
      if t = "J" ∨ t = "P" then 2 else if t = "Q" then 1 else 0) (by decide +kernel)
  have hroot : sharedSuperclass.class? rootType = some Class.root := by decide +kernel
  have hi : sharedSuperclass.InterfacesBelowRoot := by decide +kernel
  have hn : sharedSuperclass.ImplementsNoClass := by decide +kernel
  have hp : sharedSuperclass.isClass "P" = true := by decide +kernel
  have ht : le sharedSuperclass (exactly "A" .notNull) (ofClass "P" .maybe) = true := by
    decide +kernel
  have hu : le sharedSuperclass (ofClass "B" .null) (ofClass "P" .maybe) = true := by
    decide +kernel
  refine ⟨ha, hroot, hi, hn, hp, ht, hu, ?_⟩
  apply (join_le_iff_of_isClass ha hroot hi hn _ _ _ _).2 ⟨ht, hu⟩
  intro r hr
  rw [← reference.inj hr]
  exact hp

end StaticType

end Devirt
