import Devirt.Proofs.Dispatch.Resolution

/-!
Receivers of which only a bound is known. The method collected for all of them together is looked up
again and tested for interfaces and access once; asked class by class, every answer is tested on its
own. Both ways give one method in the same cases.
-/

namespace Devirt

namespace Hierarchy

variable {h : Hierarchy} {m t : MethodRef} {B C context : TypeName} {kind : DispatchKind}

theorem isClass_of_isInstantiated (hi : h.isInstantiated C = true) : h.isClass C = true := by
  obtain ⟨c, hc, hexists⟩ := (Option.any_eq_true _ _).1 hi
  rw [Bool.and_eq_true] at hexists
  have hinterface : c.isInterface = false := by
    cases hci : c.isInterface with
    | false => rfl
    | true => simp [Class.isConcrete, Class.isAbstract, hci] at hexists
  unfold isClass
  rw [hc, Option.any_some, hinterface]
  rfl

theorem resolved_reference {c : ReferenceType} (hc : h.isClass c.name = true) :
    h.resolved kind m (.reference c) context = h.answer kind m c context := by
  unfold resolved
  rw [StaticType.classReference?_eq_some.2 ⟨rfl, hc⟩]

/-- One answer of a dispatched call: what the receivers run, with the tests on interfaces and
access. -/
theorem dispatched_eq_single_iff (hkind : kind ≠ .super) {c : ReferenceType} :
    h.answer kind m c context = .single t ↔
      ∃ r d, h.find? m = some r ∧
        (if c.exact then h.dispatchFrom c.name r else h.dispatchBelow c.name r) = .single d ∧
        (d.holder.isInterface = true → kind = .interface) ∧
        h.declarationAccessible d context = true ∧ t = d.ref := by
  rw [answer_eq_single_iff]
  cases kind with
  | super => exact absurd rfl hkind
  | virtual => exact Iff.rfl
  | interface => exact Iff.rfl

/-- The answer below a bound is the answer of every class there that may exist. -/
theorem answer_bounded_iff_exact (hkind : kind ≠ .super) (n n' : Nullability) :
    h.answer kind m ⟨B, n, false⟩ context = .single t ↔ h.isProgramClass B = true ∧
      (∃ C ∈ h.subtypes B, h.isInstantiated C = true) ∧
      ∀ C ∈ h.subtypes B, h.isInstantiated C = true →
        h.answer kind m ⟨C, n', true⟩ context = .single t := by
  rw [dispatched_eq_single_iff hkind]
  constructor
  · rintro ⟨r, d, hr, hbelow, hinterface, haccess, rfl⟩
    obtain ⟨hprogram, hsome, hrun⟩ :=
      (dispatchBelow_eq_single_iff (declares_of_find? hr)).1 hbelow
    refine ⟨hprogram, hsome, fun C hC hi => ?_⟩
    apply (dispatched_eq_single_iff hkind).2
    exact ⟨r, d, hr, hrun C hC hi, hinterface, haccess, rfl⟩
  · rintro ⟨hprogram, ⟨C, hC, hi⟩, hanswer⟩
    obtain ⟨r, d, hr, hd, hinterface, haccess, rfl⟩ :=
      (dispatched_eq_single_iff hkind).1 (hanswer C hC hi)
    have hdecl := declares_of_find? hr
    refine ⟨r, d, hr, ?_, hinterface, haccess, rfl⟩
    apply (dispatchBelow_eq_single_iff hdecl).2
    refine ⟨hprogram, ⟨C, hC, hi⟩, fun D hD hiD => ?_⟩
    -- equal references stand for one declaration, so each class runs the same one
    obtain ⟨r', e, hr', he, -, -, href⟩ :=
      (dispatched_eq_single_iff hkind).1 (hanswer D hD hiD)
    obtain rfl := Option.some.inj (hr.symm.trans hr')
    rw [if_pos rfl] at hd he
    have hsame : e = d := (declares_of_dispatchFrom hdecl.signature he).1.eq_of_ref
      (declares_of_dispatchFrom hdecl.signature hd).1 href.symm
    rw [he, hsame]

end Hierarchy

namespace Resolver

variable {h : Hierarchy} {m t : MethodRef} {B context : TypeName} {kind : DispatchKind}

/-- Where every name has one definition, a dispatched call on a receiver bounded by a class resolves
to a method exactly if the class belongs to the program, some class below it is instantiated, and the
call resolves to that method on every instantiated class below it. -/
theorem resolve_ofClass_eq_single_iff (hd : h.DefinedOnce) (hkind : kind ≠ .super)
    (hB : h.isClass B = true) (r r' : Resolver h) (n n' : Nullability) :
    (r.resolve kind m (.ofClass B n) context).1 = .single t ↔ h.isProgramClass B = true ∧
      (∃ C, h.isInstantiated C = true ∧ h.isSubtype C B = true) ∧
      ∀ C, h.isInstantiated C = true → h.isSubtype C B = true →
        (r'.resolve kind m (.exactly C n') context).1 = .single t := by
  have hbounded : h.resolved kind m (.ofClass B n) context =
      h.answer kind m ⟨B, n, false⟩ context := h.resolved_reference hB
  have hexact : ∀ C, h.isInstantiated C = true → h.resolved kind m (.exactly C n') context =
      h.answer kind m ⟨C, n', true⟩ context := by
    intro C hi
    exact h.resolved_reference (h.isClass_of_isInstantiated hi)
  rw [h.resolve_fst, hbounded, h.answer_bounded_iff_exact hkind n n']
  apply and_congr_right
  intro hprogram
  simp only [hd.mem_subtypes_iff_of_isProgramClass hprogram, h.resolve_fst]
  constructor
  · rintro ⟨⟨C, hC, hi⟩, hanswer⟩
    refine ⟨⟨C, hi, hC⟩, fun D hi hD => ?_⟩
    rw [hexact D hi]
    exact hanswer D hD hi
  · rintro ⟨⟨C, hi, hC⟩, hanswer⟩
    refine ⟨⟨C, hC, hi⟩, fun D hD hi => ?_⟩
    rw [← hexact D hi]
    exact hanswer D hi hD

/-- Two classes below an abstract one share the default of an interface; a third one overrides it,
but is never created. The superclasses of the abstract class form a cycle, and an interface on it is
undefined. -/
def sharedDefault : Hierarchy :=
  { defined := [
      { name := "I", isInterface := true, methods := [{ signature := { name := "f" } }] },
      { name := "B", declaredAbstract := true, superclass := some "D", interfaces := ["I"] },
      { name := "C", superclass := some "B" },
      { name := "D", superclass := some "B", interfaces := ["X"] },
      { name := "E", superclass := some "C", methods := [{ signature := { name := "f" } }] }],
    instantiated := ["C", "D"] }

theorem resolve_sharedDefault :
    sharedDefault.DefinedOnce ∧ sharedDefault.isClass "B" = true ∧
      sharedDefault.isInstantiated "D" = true ∧ sharedDefault.isSubtype "D" "B" = true ∧
      ((∅ : Resolver sharedDefault).resolve .interface (.plain "I" "f") (.exactly "D" .notNull)
        "C").1 = .single (.plain "I" "f") := by
  have hd : sharedDefault.DefinedOnce := by decide +kernel
  have hB : sharedDefault.isClass "B" = true := by decide +kernel
  have hi : sharedDefault.isInstantiated "D" = true := by decide +kernel
  have hsub : sharedDefault.isSubtype "D" "B" = true := by decide +kernel
  have hbounded : ((∅ : Resolver sharedDefault).resolve .interface (.plain "I" "f")
      (.ofClass "B" .maybe) "C").1 = .single (.plain "I" "f") := by decide +kernel
  obtain ⟨-, -, hanswer⟩ :=
    (resolve_ofClass_eq_single_iff hd (by decide) hB ∅ ∅ .maybe .notNull).1 hbounded
  exact ⟨hd, hB, hi, hsub, hanswer "D" hi hsub⟩

end Resolver

end Devirt
