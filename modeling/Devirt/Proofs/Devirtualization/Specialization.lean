import Devirt.Proofs.Devirtualization.Retargeting
import Devirt.Proofs.Dispatch.Agreement
import Devirt.Proofs.Dispatch.Overriding

/-!
When a virtual call that names a more specific declaration still dispatches as before. It does as
long as both declarations agree on being package members. If only one of them is, dispatch differs
for those classes whose nearest declaration lies in another package.
-/

namespace Devirt

namespace Hierarchy

variable {h : Hierarchy} {s : Signature} {e r f : Declaration} {C context : TypeName}
  {m t : MethodRef} {receiver : StaticType}

/-- The nearest declaration on the way up that is not private, as far as the first interface. -/
def nearestVirtual? (h : Hierarchy) (C : TypeName) (s : Signature) : Option Declaration :=
  h.firstDeclared? C s (·.method.isVirtual)

/-- A method that is overridden everywhere has the nearest declaration as its first override. -/
theorem firstOverride?_eq_nearestVirtual? (hr : h.Declares s r) (hv : r.method.isVirtual = true)
    (hvis : r.method.visibility ≠ .package) :
    h.firstOverride? C r = h.nearestVirtual? C s := by
  rw [firstOverride?_eq_firstDeclared? hr.signature, nearestVirtual?]
  refine firstDeclared?_congr fun e he => ?_
  simp [he.overrides_iff hr hv, hvis]

/-- Two methods that are not private are dispatched alike if both are members of one package or
neither is a package member. -/
theorem dispatchFrom_eq_of_agree (hr : h.Declares s r) (hf : h.Declares s f)
    (hrv : r.method.isVirtual = true) (hfv : f.method.isVirtual = true)
    (hagree : r.method.visibility = .package ↔ f.method.visibility = .package)
    (hpackage : r.method.visibility = .package → r.holder.package = f.holder.package) :
    h.dispatchFrom C f = h.dispatchFrom C r := by
  refine dispatchFrom_congr hf.signature hr.signature fun e he => ?_
  rw [he.overrides_iff hf hfv, he.overrides_iff hr hrv, hagree]
  refine and_congr_right fun _ => forall_congr' fun hvis => ?_
  rw [hpackage (hagree.2 hvis)]

/-- A package member and a method that is overridden everywhere are dispatched alike exactly on the
classes whose nearest declaration lies in the package, and on those that run nothing or the default
method. -/
theorem dispatchFrom_eq_iff_of_package (hr : h.Declares s r) (hf : h.Declares s f)
    (hrvis : r.method.visibility = .package) (hfv : f.method.isVirtual = true)
    (hfvis : f.method.visibility ≠ .package) :
    h.dispatchFrom C f = h.dispatchFrom C r ↔
      (∀ e, h.nearestVirtual? C s = some e → e.holder.package = r.holder.package) ∨
        ∃ x, (x = .noTarget ∨ x = h.defaultMethod C s) ∧ h.dispatchFrom C f = x ∧
          h.dispatchFrom C r = x := by
  have hrv : r.method.isVirtual = true := by simp [Method.isVirtual, hrvis]
  have himp : ∀ e, h.Declares s e → overrides e r = true → e.method.isVirtual = true :=
    fun e he hov => ((he.overrides_iff hr hrv).1 hov).1
  have hwide := firstOverride?_eq_nearestVirtual? (C := C) hf hfv hfvis
  have hnarrow := firstOverride?_eq_firstDeclared? (h := h) (C := C) hr.signature
  constructor
  · intro heq
    by_contra hnot
    rw [not_or, not_forall] at hnot
    obtain ⟨⟨e, hnear⟩, hruns⟩ := hnot
    obtain ⟨he, hpackage⟩ := Classical.not_imp.1 hnear
    have hdecl := (firstDeclared?_eq_some_iff.1 he).1
    have hdispatch : h.dispatchFrom C f =
        if e.method.isAbstract then .noTarget else .single e := by
      simp only [dispatchFrom, hwide, he]
    by_cases ha : e.method.isAbstract = true
    · rw [if_pos ha] at hdispatch
      exact hruns ⟨_, .inl rfl, hdispatch, heq.symm.trans hdispatch⟩
    · rw [if_neg ha] at hdispatch
      rcases dispatchFrom_eq_single.1 (heq.symm.trans hdispatch) with ⟨hfirst, -⟩ | ⟨-, hdefault⟩
      · have hov := (declares_of_firstOverride? hr.signature hfirst).2.2.2
        exact hpackage (((hdecl.overrides_iff hr hrv).1 hov).2 hrvis)
      · rw [hr.signature] at hdefault
        exact hruns ⟨_, .inr rfl, hdispatch.trans hdefault.symm,
          (heq.symm.trans hdispatch).trans hdefault.symm⟩
  · rintro (hnear | ⟨x, -, hf, hr⟩)
    · have hsame : h.firstOverride? C r = h.firstOverride? C f := by
        rw [hwide, hnarrow]
        cases he : h.nearestVirtual? C s with
        | none => exact firstDeclared?_eq_none_of_imp he himp
        | some e =>
          obtain ⟨hdecl, hv, -⟩ := firstDeclared?_eq_some_iff.1 he
          exact firstDeclared?_of_imp he
            ((hdecl.overrides_iff hr hrv).2 ⟨hv, fun _ => hnear e he⟩) himp
      simp only [dispatchFrom, hsame, hr.signature, hf.signature]
    · rw [hf, hr]

/-! ### More specific declarations -/

theorem samePackage_of_dispatchable (hr : h.dispatchable r context = true)
    (hvis : r.method.visibility = .package) :
    h.samePackage r.holder.name context = true := by
  simp only [dispatchable, declarationAccessible, memberAccessible, hvis, Bool.and_eq_true] at hr
  exact hr.2.2

theorem Declares.samePackage_iff (he : h.Declares s e) (hr : h.Declares s r)
    (hsame : h.samePackage r.holder.name context = true) :
    h.samePackage e.holder.name context = true ↔ e.holder.package = r.holder.package := by
  simp only [samePackage, he.holder, hr.holder] at hsame ⊢
  cases hc : h.class? context with
  | none => simp [hc] at hsame
  | some c =>
    simp only [hc, decide_eq_true_eq] at hsame ⊢
    rw [hsame]

/-- When two methods that the calling class may name are dispatched alike. -/
theorem dispatchFrom_eq_iff_of_dispatchable (hr : h.Declares s r)
    (hf : h.Declares s f) (hrd : h.dispatchable r context = true)
    (hfd : h.dispatchable f context = true) :
    h.dispatchFrom C f = h.dispatchFrom C r ↔
      (r.method.visibility = .package ↔ f.method.visibility = .package) ∨
      (∀ e, h.nearestVirtual? C s = some e → h.samePackage e.holder.name context = true) ∨
      ∃ x, (x = .noTarget ∨ x = h.defaultMethod C s) ∧ h.dispatchFrom C f = x ∧
        h.dispatchFrom C r = x := by
  have hvirtual : ∀ {d}, h.dispatchable d context = true → d.method.isVirtual = true := by
    intro d hd
    simp only [dispatchable, Bool.and_eq_true] at hd
    exact hd.1
  have hnear : ∀ {d}, h.Declares s d → h.samePackage d.holder.name context = true →
      ((∀ e, h.nearestVirtual? C s = some e → h.samePackage e.holder.name context = true) ↔
        ∀ e, h.nearestVirtual? C s = some e → e.holder.package = d.holder.package) := by
    intro d hd hsame
    refine forall_congr' fun e => forall_congr' fun he => ?_
    exact (firstDeclared?_eq_some_iff.1 he).1.samePackage_iff hd hsame
  by_cases hagree : r.method.visibility = .package ↔ f.method.visibility = .package
  · refine iff_of_true ?_ (.inl hagree)
    refine dispatchFrom_eq_of_agree hr hf (hvirtual hrd) (hvirtual hfd) hagree fun hvis => ?_
    exact (hr.samePackage_iff hf (samePackage_of_dispatchable hfd (hagree.1 hvis))).1
      (samePackage_of_dispatchable hrd hvis)
  · rw [or_iff_right hagree]
    by_cases hvis : r.method.visibility = .package
    · rw [hnear hr (samePackage_of_dispatchable hrd hvis)]
      refine dispatchFrom_eq_iff_of_package hr hf hvis (hvirtual hfd) fun hvis' => ?_
      exact hagree (iff_of_true hvis hvis')
    · have hvis' : f.method.visibility = .package := by
        by_contra hvis'
        exact hagree (iff_of_false hvis hvis')
      rw [hnear hf (samePackage_of_dispatchable hfd hvis'), eq_comm,
        dispatchFrom_eq_iff_of_package hf hr hvis' (hvirtual hrd) hvis]
      simp only [and_comm (a := h.dispatchFrom C r = _)]

end Hierarchy

namespace Devirtualizing

variable {h : Hierarchy} {s s' : Devirtualization.State h} {i : InstrId} {call call' : Call}
  {options : Options} {C : TypeName}

/-- A virtual call that has been given a more specific method is dispatched on a class as before
exactly in three cases: the old and the new declaration agree on being package members; the nearest
declaration that is not private lies in the package of the calling class; or nothing, or the default
method, runs either way. -/
theorem dispatchFrom_eq_iff_of_specialize
    (hcall : s.body.call? i = .ok (some call)) (hkind : call.kind = .virtual)
    (hrun : (specialize options i).run s = .ok ((), s'))
    (hcall' : s'.body.call? i = .ok (some call')) (hchanged : call'.method ≠ call.method) :
    ∃ r f, h.find? call.method = some r ∧ h.find? call'.method = some f ∧
      (h.dispatchFrom C f = h.dispatchFrom C r ↔
        (r.method.visibility = .package ↔ f.method.visibility = .package) ∨
        (∀ e, h.nearestVirtual? C call.method.signature = some e →
          h.samePackage e.holder.name s.body.context = true) ∨
        ∃ x, (x = .noTarget ∨ x = h.defaultMethod C call.method.signature) ∧
          h.dispatchFrom C f = x ∧ h.dispatchFrom C r = x) := by
  have hop := Body.call?_eq_ok_some.1 hcall
  rcases run_specialize hop hkind hrun with ⟨hidle, -⟩ | ⟨-, t, hturn, hbody, -⟩
  · rw [hidle.body, hcall] at hcall'
    exact absurd (congrArg Call.method (Option.some.inj (Except.ok.inj hcall'))).symm hchanged
  obtain rfl : t = call'.method := by
    rw [hbody, Body.call?_eq_ok_some.2 (Body.operation_retargeted hop)] at hcall'
    exact congrArg Call.method (Option.some.inj (Except.ok.inj hcall'))
  cases hturn with
  | super hsuper => exact absurd (hkind.symm.trans hsuper) (by simp)
  | interface hinterface => exact absurd (hkind.symm.trans hinterface) (by simp)
  | specialize _ _ _ htarget =>
    obtain ⟨c, r, f, -, hr, hf, hrd, hfd, hi, href, -⟩ := moreSpecific?_eq_some htarget
    have hrdecl := h.declares_of_find? hr
    have hfdecl := h.declares_of_findOnClass? hf
    refine ⟨r, f, hr, href ▸ hfdecl.find? hi, ?_⟩
    exact h.dispatchFrom_eq_iff_of_dispatchable hrdecl hfdecl hrd hfd

/-- A call of a public method may name its override in another package. -/
theorem dispatchFrom_specialize_public :
    ∃ s' r f, (specialize {} ⟨1⟩).run (.initial Hierarchy.acrossPackages (.singleCall
        (.plain "p.A" "h") .virtual (.plain "p.A" "g") (.ofClass "q.B" .maybe))) = .ok ((), s') ∧
      s'.body.call? ⟨1⟩ = .ok (some
        { kind := .virtual, method := .plain "q.B" "g", arguments := [⟨0⟩] }) ∧
      Hierarchy.acrossPackages.find? (.plain "p.A" "g") = some r ∧
      Hierarchy.acrossPackages.find? (.plain "q.B" "g") = some f ∧
      Hierarchy.acrossPackages.dispatchFrom "p.C" f =
        Hierarchy.acrossPackages.dispatchFrom "p.C" r := by
  let s : Devirtualization.State Hierarchy.acrossPackages := .initial _ (.singleCall
    (.plain "p.A" "h") .virtual (.plain "p.A" "g") (.ofClass "q.B" .maybe))
  obtain ⟨s', hrun, hcall'⟩ : ∃ s', (specialize {} ⟨1⟩).run s = .ok ((), s') ∧
      s'.body.call? ⟨1⟩ = .ok (some
        { kind := .virtual, method := .plain "q.B" "g", arguments := [⟨0⟩] }) := by
    decide +kernel
  have hcall : s.body.call? ⟨1⟩ = .ok (some
      { kind := .virtual, method := .plain "p.A" "g", arguments := [⟨0⟩] }) := rfl
  obtain ⟨r, f, hr, hf, hiff⟩ := dispatchFrom_eq_iff_of_specialize (s := s) (C := "p.C")
    hcall rfl hrun hcall' (by decide)
  have hpublic : ∀ m ∈ [MethodRef.plain "p.A" "g", .plain "q.B" "g"], ∀ e,
      Hierarchy.acrossPackages.find? m = some e → e.method.visibility ≠ .package := by
    decide +kernel
  refine ⟨s', r, f, hrun, hcall', hr, hf, hiff.2 (.inl (iff_of_false ?_ ?_))⟩
  · exact hpublic _ (by simp) r hr
  · exact hpublic _ (by simp) f hf

/-- A call of a package member is given a method of another package that does not override it. -/
theorem dispatchFrom_specialize_acrossPackages :
    Hierarchy.acrossPackages.Acyclic ∧ Hierarchy.acrossPackages.DefinedOnce ∧
      Hierarchy.acrossPackages.isInstantiated "q.B" = true ∧
      ∃ s' r f, (specialize {} ⟨1⟩).run (.initial Hierarchy.acrossPackages (.singleCall
          (.plain "p.A" "h") .virtual (.plain "p.A" "f") (.ofClass "q.B" .maybe))) = .ok ((), s') ∧
        s'.body.call? ⟨1⟩ = .ok (some
          { kind := .virtual, method := .plain "q.B" "f", arguments := [⟨0⟩] }) ∧
        Hierarchy.acrossPackages.find? (.plain "p.A" "f") = some r ∧
        Hierarchy.acrossPackages.find? (.plain "q.B" "f") = some f ∧
        Hierarchy.acrossPackages.dispatchFrom "q.B" f ≠
          Hierarchy.acrossPackages.dispatchFrom "q.B" r := by
  refine ⟨Hierarchy.acyclic_of_rank (fun t => if t = rootType then 3 else if t = "p.A" then 2 else
    if t = "q.B" then 1 else 0) (by decide +kernel), by decide +kernel, by decide +kernel, ?_⟩
  obtain ⟨s', hrun, hcall⟩ : ∃ s', (specialize {} ⟨1⟩).run (.initial Hierarchy.acrossPackages
      (.singleCall (.plain "p.A" "h") .virtual (.plain "p.A" "f") (.ofClass "q.B" .maybe))) =
        .ok ((), s') ∧ s'.body.call? ⟨1⟩ = .ok (some
          { kind := .virtual, method := .plain "q.B" "f", arguments := [⟨0⟩] }) := by
    decide +kernel
  have hdiffer : ∃ r ∈ Hierarchy.acrossPackages.find? (.plain "p.A" "f"),
      ∃ f ∈ Hierarchy.acrossPackages.find? (.plain "q.B" "f"),
        Hierarchy.acrossPackages.dispatchFrom "q.B" f ≠
          Hierarchy.acrossPackages.dispatchFrom "q.B" r := by
    decide +kernel
  obtain ⟨r, hr, f, hf, hne⟩ := hdiffer
  exact ⟨s', r, f, hrun, hcall, hr, hf, hne⟩

end Devirtualizing

end Devirt
