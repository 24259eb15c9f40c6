import Devirt.Execution.Machine
import Devirt.Proofs.Devirtualization.Retargeting
import Devirt.Proofs.Dispatch.Overriding

/-!
An interface call that has been made virtual reaches what it reached before, and no cast to the
class of its new target fails.
-/

namespace Devirt

namespace Devirtualizing

variable {h : Hierarchy} {s s' : Devirtualization.State h} {i : InstrId} {index : Nat}
  {moved : Moved} {call call' : Call} {receiver : ValueId} {x : Value} {r : Declaration}
  {C : TypeName}

/-- An interface call becomes virtual only by being given a target. -/
theorem exists_retargets_of_interfaceToVirtual
    (hcall : s.body.call? i = .ok (some call)) (hkind : call.kind = .interface)
    (hrun : (interfaceToVirtual i index).run s = .ok (moved, s'))
    (hcall' : s'.body.call? i = .ok (some call')) (hkind' : call'.kind = .virtual) :
    s.body.Retargets h call call'.method := by
  have hop := Body.call?_eq_ok_some.1 hcall
  rcases run_interfaceToVirtual hop hkind hrun with
    ⟨hidle, -⟩ | ⟨target, s₁, hturns, hfits⟩
  · rw [hidle.body, hcall] at hcall'
    obtain rfl := Option.some.inj (Except.ok.inj hcall')
    rw [hkind] at hkind'
    exact DispatchKind.noConfusion hkind'
  · obtain ⟨arguments, hop₁⟩ := hfits.exists_call (hturns.operation hop)
    rw [Body.call?_eq_ok_some.2 hop₁] at hcall'
    obtain rfl := Option.some.inj (Except.ok.inj hcall')
    exact hturns.retargets

/-- Where every name has one definition, an interface call that resolves to a public method and is
made virtual reaches its new target on every object the receiver may be, through the old method as
well as through the new one, and the object passes every cast to the class of the target. -/
theorem dispatchFrom_of_interfaceToVirtual (hd : h.DefinedOnce)
    (hcall : s.body.call? i = .ok (some call)) (hkind : call.kind = .interface)
    (hreceiver : call.receiver? = some receiver) (hx : s.body.value receiver = .ok x)
    (hr : h.find? call.method = some r) (hpublic : r.method.visibility = .everywhere)
    (hrun : (interfaceToVirtual i index).run s = .ok (moved, s'))
    (hcall' : s'.body.call? i = .ok (some call')) (hkind' : call'.kind = .virtual)
    (hadmits : x.bestType.Admits h C) (hC : h.isInstantiated C = true) :
    ∃ d, d.ref = call'.method ∧ h.find? call'.method = some d ∧
      h.dispatchFrom C r = .single d ∧ h.dispatchFrom C d = .single d ∧
      h.isSubtype C call'.method.holder = true ∧
      ∀ (p : Program) (m : Machine) (f : Frame) (out object : ValueId), p.hierarchy = h →
        f.read object = .ok (.object C) →
          m.execute p f (.cast out object call'.method.holder) =
            m.continueWith (f.write out (.object C)) := by
  have hturn := exists_retargets_of_interfaceToVirtual hcall hkind hrun hcall' hkind'
  cases hturn with
  | super hsuper => exact absurd (hkind.symm.trans hsuper) (by simp)
  | specialize hvirtual => exact absurd (hkind.symm.trans hvirtual) (by simp)
  | interface _ hreceiver' hy hsole hclass _ =>
    obtain rfl := Option.some.inj (hreceiver.symm.trans hreceiver')
    obtain rfl := Except.ok.inj (hx.symm.trans hy)
    obtain ⟨r', d, hr', hdispatch, href, -⟩ := hd.exists_dispatchFrom (by simp) hsole hadmits hC
    obtain rfl := Option.some.inj (hr.symm.trans hr')
    have hrdecl := h.declares_of_find? hr
    have hddecl := (h.declares_of_dispatchFrom hrdecl.signature hdispatch).1
    have hvirtual : r.method.isVirtual = true := by simp [Method.isVirtual, hpublic]
    have hvirtual' := h.isVirtual_of_dispatchFrom hrdecl hvirtual hdispatch
    have hholder : call'.method.holder = d.holder.name := by rw [← href, hddecl.ref]
    have hsub : h.isSubtype C call'.method.holder = true := by
      rw [hholder]
      exact h.isSubtype_of_reaches (h.reaches_of_dispatchFrom hrdecl hdispatch)
    refine ⟨d, href, ?_, hdispatch, ?_, hsub, ?_⟩
    · rw [← href]
      refine hddecl.find? ?_
      simpa [Hierarchy.isClass, hholder, hddecl.holder] using hclass
    · -- a public method is overridden by all that overrides another one
      refine h.dispatchFrom_self hrdecl hdispatch fun e he hov => ?_
      rw [he.overrides_iff hddecl hvirtual'] at hov
      exact (he.overrides_iff hrdecl hvirtual).2 ⟨hov.1, by simp [hpublic]⟩
    · rintro p m f out object rfl hread
      simp [Machine.execute, hread, hsub]

/-- A call through the interface on a value known to be below the class gets a cast to it. On an
object of the class that extends it, both methods reach the same one. -/
theorem dispatchFrom_implementedOnce :
    ∃ s', (interfaceToVirtual ⟨1⟩ 1).run (.initial implementedOnce (.singleCall (.plain "B" "g")
        .interface (.plain "I" "f") (.ofClass "I" .maybe) (some { name := "A" }))) =
          .ok (.shifted, s') ∧
      s'.body.operation ⟨3⟩ = .ok (.cast ⟨1⟩ ⟨0⟩ "A") ∧
      ∃ d, d.ref = .plain "A" "f" ∧ implementedOnce.find? (.plain "A" "f") = some d ∧
        implementedOnce.dispatchFrom "B" d = .single d ∧
        implementedOnce.isSubtype "B" "A" = true := by
  let s : Devirtualization.State implementedOnce := .initial _ (.singleCall (.plain "B" "g")
    .interface (.plain "I" "f") (.ofClass "I" .maybe) (some { name := "A" }))
  let x : Value :=
    { type := .ofClass "I" .maybe, dynamic := some { name := "A" }
      definition := .instruction ⟨0⟩, users := .ofList [⟨1⟩] }
  obtain ⟨s', hrun, hcast, hcall'⟩ : ∃ s', (interfaceToVirtual ⟨1⟩ 1).run s = .ok (.shifted, s') ∧
      s'.body.operation ⟨3⟩ = .ok (.cast ⟨1⟩ ⟨0⟩ "A") ∧ s'.body.call? ⟨1⟩ = .ok (some
        { kind := .virtual, method := .plain "A" "f", arguments := [⟨1⟩] }) := by
    decide +kernel
  have hcall : s.body.call? ⟨1⟩ = .ok (some
      { kind := .interface, method := .plain "I" "f", arguments := [⟨0⟩] }) := rfl
  have hr : implementedOnce.find? (.plain "I" "f") = some
      ⟨{ name := "I", isInterface := true
         methods := [{ signature := { name := "f" }, isAbstract := true }] },
        { signature := { name := "f" }, isAbstract := true }⟩ := by decide +kernel
  have hadmits : x.bestType.Admits implementedOnce "B" := ⟨_, rfl, by decide +kernel⟩
  obtain ⟨d, href, hfind, -, hself, hsub, -⟩ := dispatchFrom_of_interfaceToVirtual (s := s) (x := x)
    (by decide +kernel) hcall rfl rfl rfl hr rfl hrun hcall' rfl hadmits (by decide +kernel)
  exact ⟨s', hrun, hcast, d, href, hfind, hself, hsub⟩

end Devirtualizing

end Devirt
