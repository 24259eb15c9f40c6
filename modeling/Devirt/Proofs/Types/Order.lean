import Devirt.Proofs.Hierarchy.Order
import Devirt.Types.Lattice

/-!
The order of static types, which is transitive as subtyping is. A type fits a class if its references
may be used as references to the class.
-/

namespace Devirt

theorem Nullability.le_trans {a b c : Nullability} (hab : a.le b = true) (hbc : b.le c = true) :
    a.le c = true := by
  cases a <;> cases b <;> cases c <;> simp_all [le]

namespace StaticType

variable {h : Hierarchy} {s t u : StaticType} {a b : TypeName}

@[simp] theorem le_refl (h : Hierarchy) (t : StaticType) : t.le h t = true := by
  cases t with
  | reference r => cases hr : r.exact <;> simp [le, hr]
  | _ => simp [le]

theorem le_reference {a b : ReferenceType} :
    le h (.reference a) (.reference b) = true ↔
      a.nullability.le b.nullability = true ∧ h.isSubtype a.name b.name = true ∧
        (b.exact = true → a.exact = true ∧ a.name = b.name) := by
  cases hb : b.exact <;> simp [le, hb, and_assoc]

theorem le_trans (hroot : h.class? rootType = some Class.root) (hst : s.le h t = true)
    (htu : t.le h u = true) : s.le h u = true := by
  cases s with
  | bottom => exact bottom_le h u
  | primitive p => cases t <;> cases u <;> simp_all [le]
  | null =>
    cases t with
    | reference b =>
      cases u with
      | reference c =>
        have hbc := (le_reference.1 htu).1
        simp only [le, decide_eq_true_eq] at hst ⊢
        intro hc
        rw [hc] at hbc
        cases hb : b.nullability <;> simp_all [Nullability.le]
      | _ => simp_all [le]
    | _ => cases u <;> simp_all [le]
  | reference a =>
    cases t with
    | reference b =>
      cases u with
      | reference c =>
        obtain ⟨hn, hsub, hexact⟩ := le_reference.1 hst
        obtain ⟨hn', hsub', hexact'⟩ := le_reference.1 htu
        refine le_reference.2
          ⟨Nullability.le_trans hn hn', h.isSubtype_trans hroot hsub hsub', fun hc => ?_⟩
        obtain ⟨hb, hname'⟩ := hexact' hc
        obtain ⟨ha, hname⟩ := hexact hb
        exact ⟨ha, hname.trans hname'⟩
      | _ => simp_all [le]
    | _ => cases u <;> simp_all [le]
  | top => cases t <;> cases u <;> simp_all [le]

/-- References of this type may be used as references to the class. -/
def fits (h : Hierarchy) (name : TypeName) (t : StaticType) : Bool :=
  t.le h (.ofClass name t.nullability)

theorem fits_reference {r : ReferenceType} :
    (reference r).fits h a = true ↔ h.isSubtype r.name a = true := by
  simp [fits, ofClass, nullability, le_reference]

theorem fits_ofClass (h : Hierarchy) (a : TypeName) (n : Nullability) :
    (ofClass a n).fits h a = true := fits_reference.2 (h.isSubtype_refl a)

/-- More precise types fit as well. -/
theorem fits_of_le (hroot : h.class? rootType = some Class.root) (hst : s.le h t = true)
    (ht : t.fits h a = true) : s.fits h a = true := by
  cases s with
  | reference r =>
    cases t with
    | reference r' =>
      exact fits_reference.2 (h.isSubtype_trans hroot (le_reference.1 hst).2.1 (fits_reference.1 ht))
    | _ => simp_all [fits, le, ofClass]
  | primitive p => cases t <;> simp_all [fits, le, ofClass]
  | top => cases t <;> simp_all [fits, le, ofClass]
  | _ => simp [fits, le, ofClass, nullability]

theorem fits_of_isSubtype (hroot : h.class? rootType = some Class.root)
    (hab : h.isSubtype a b = true) (ht : t.fits h a = true) : t.fits h b = true := by
  cases t with
  | reference r => exact fits_reference.2 (h.isSubtype_trans hroot (fits_reference.1 ht) hab)
  | primitive p => simp [fits, le, ofClass] at ht
  | top => simp [fits, le, ofClass] at ht
  | _ => simp [fits, le, ofClass, nullability]

end StaticType

end Devirt
