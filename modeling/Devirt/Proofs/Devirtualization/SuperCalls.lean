import Devirt.Proofs.Devirtualization.Retargeting
import Devirt.Proofs.Dispatch.Agreement
import Devirt.Proofs.Dispatch.Overriding

/-!
When a super call that has been made virtual still runs what it ran before. At run time a package
member answers only calls that name a type of its package. So the super call may pass over its
target, and the virtual call may be answered before it reaches the target; in every other case both
run the target.
-/

namespace Devirt

open Relation

/-- Whether the method can be overridden in other packages. -/
def Method.isExported (m : Method) : Bool := m.visibility = .everywhere || m.visibility = .subclasses

namespace Hierarchy

variable {h : Hierarchy} {m t : MethodRef} {d r : Declaration} {C K S : TypeName}
  {before after : List Class}

/-! ### What selection does not return -/

/-- A selection that fails says which method was called. -/
theorem selectFrom_eq_error {e : RunError} (he : h.selectFrom C m = .error e) :
    e = .noImplementation m ∨ e = .conflictingDefaults m := by
  simp only [selectFrom] at he
  split at he
  · split at he
    · exact .inl (Except.error.inj he).symm
    · simp at he
  · simp only [selectDefault] at he
    split at he
    · split at he
      · simp at he
      · exact .inr (Except.error.inj he).symm
    · exact .inl (Except.error.inj he).symm
    · exact .inr (Except.error.inj he).symm

/-- A class that declares the signature first but does not answer is passed over. -/
theorem above_of_selectFrom (hsplit : h.superclasses S = before ++ d.holder :: after)
    (hbefore : ∀ c ∈ before, c.declared? m.signature = none)
    (hans : h.answering m d.holder = false) (hok : h.selectFrom S m = .ok t) :
    (∃ c ∈ after, c.name = t.holder) ∨ t.holder ∈ h.superinterfaces S := by
  rcases selectFrom_eq_ok hok with ⟨e, before', after', he, rfl, hsplit', -, hans'⟩ | ⟨-, hdefault⟩
  · left
    have hmem : e.holder ∈ before ++ d.holder :: after := by
      rw [← hsplit, hsplit']
      simp
    rw [List.mem_append, List.mem_cons] at hmem
    rcases hmem with hmem | hmem | hmem
    · have := hbefore _ hmem
      simp [he.method] at this
    · rw [hmem, hans] at hans'
      exact Bool.noConfusion hans'
    · exact ⟨e.holder, hmem, by rw [he.ref]⟩
  · exact .inr (mem_superinterfaces_of_selectDefault hdefault).1

/-- Where a class answers before the given one is met, selection ends there. -/
theorem below_of_selectFrom (hsplit : h.superclasses C = before ++ d.holder :: after)
    (hans : ∃ c ∈ before, h.answering m c = true) (hok : h.selectFrom C m = .ok t) :
    ∃ c ∈ before, c.name = t.holder := by
  obtain ⟨c, hc, hans⟩ := hans
  rcases selectFrom_eq_ok hok with ⟨e, before', after', he, rfl, hsplit', hbefore, -⟩ | ⟨hnone, -⟩
  · refine ⟨e.holder, ?_, by rw [he.ref]⟩
    have hnot : c ∉ before' := fun hc' => by simp [hbefore c hc'] at hans
    rw [hsplit] at hsplit'
    rcases List.append_eq_append_iff.1 hsplit' with ⟨l, rfl, -⟩ | ⟨l, rfl, hl⟩
    · exact absurd (List.mem_append_left _ hc) hnot
    · cases l with
      | nil => exact absurd (by simpa using hc) hnot
      | cons a l =>
        obtain ⟨rfl, -⟩ := List.cons.inj hl
        simp
  · have := hnone c (by rw [hsplit]; exact List.mem_append_left _ hc)
    rw [this] at hans
    exact Bool.noConfusion hans

/-! ### The two selections -/

/-- What is passed over on the way to an override answers a call of the override only from another
package, where the resolved method is a package member. -/
theorem answering_ref_iff {e : Declaration} (he : h.Declares m.signature e)
    (hd : h.Declares m.signature d) (hr : h.Declares m.signature r)
    (hv : r.method.isVirtual = true) (hdr : overrides d r = true) (her : overrides e r = false) :
    h.answering d.ref e.holder = true ↔ r.method.visibility = .package ∧
      e.holder.package ≠ r.holder.package ∧ e.method.isExported = true := by
  have hne : e.holder.name ≠ d.holder.name := by
    intro hname
    rw [he.eq_of_name hd hname, hdr] at her
    exact Bool.noConfusion her
  have hans : h.answering d.ref e.holder = true ↔ e.method.isVirtual = true ∧
      (e.method.visibility = .package → d.holder.package = e.holder.package) := by
    have he' : h.Declares d.ref.signature e := by rwa [hd.ref]
    rw [he'.answering]
    simp only [answersCall, hd.ref, hne, hd.holder, Bool.and_eq_true, Bool.or_eq_true, or_false,
      decide_eq_true_eq, Option.any_some, Decidable.imp_iff_not_or, ne_eq]
  rw [hd.overrides_iff hr hv] at hdr
  rw [Bool.eq_false_iff, ne_eq, he.overrides_iff hr hv, not_and] at her
  rw [hans]
  constructor
  · rintro ⟨hev, hpackage⟩
    obtain ⟨hvis, hne⟩ := Classical.not_imp.1 (her hev)
    refine ⟨hvis, hne, ?_⟩
    cases hvis' : e.method.visibility with
    | package => exact absurd ((hpackage hvis').symm.trans (hdr.2 hvis)) hne
    | holder => simp [Method.isVirtual, hvis'] at hev
    | _ => simp [Method.isExported, hvis']
  · rintro ⟨-, -, hexported⟩
    simp only [Method.isExported, Bool.or_eq_true, decide_eq_true_eq] at hexported
    rcases hexported with hvis | hvis <;> simp [Method.isVirtual, hvis]

/-- A method above a class that the class may name is not private. -/
theorem Acyclic.isVirtual_of_accessible (ha : h.Acyclic) (hS : h.superclass? K = some S)
    (hd : d.holder ∈ h.superclasses S) (haccess : h.declarationAccessible d K = true) :
    d.method.isVirtual = true := by
  by_contra hnot
  have hvis : d.method.visibility = .holder := by simpa [Method.isVirtual] using hnot
  have hname : d.holder.name = K := by
    simp only [declarationAccessible, memberAccessible, hvis, Bool.and_eq_true,
      decide_eq_true_eq] at haccess
    exact haccess.2
  have hstep : Leads h.supertypes K S := Extends.leads hS
  have hback := reaches_of_mem_superclasses hd
  rw [hname] at hback
  exact ha K (TransGen.head' hstep hback)

theorem pairwise_of_split (hsplit : h.superclasses C = before ++ d.holder :: after) :
    (∀ c ∈ before, TransGen (Leads h.supertypes) c.name d.holder.name) ∧
      ∀ c ∈ after, TransGen (Leads h.supertypes) d.holder.name c.name := by
  have hpair := h.pairwise_superclasses C
  rw [hsplit, List.pairwise_append] at hpair
  exact ⟨fun c hc => hpair.2.2 c hc _ (List.mem_cons_self ..), (List.pairwise_cons.1 hpair.2.1).1⟩

theorem not_mem_superinterfaces (hn : h.ImplementsNoClass) {c : Class} {t : TypeName}
    (hc : h.class? c.name = some c) (hi : c.isInterface = false) :
    c.name ∉ h.superinterfaces t := by
  intro hmem
  have := hn.isClass_of_mem_superinterfaces hmem
  simp [isClass, hc, hi] at this

section Target

variable {passed above below : List Class} (ha : h.Acyclic) (hn : h.ImplementsNoClass)
  (hd : h.Declares m.signature d) (hdv : d.method.isVirtual = true)
  (hda : d.method.isAbstract = false) (hi : d.holder.isInterface = false)

include ha hn hd hda hi in
/-- The super call runs its target unless the target does not answer. -/
theorem selectFrom_super_iff (hup : h.superclasses S = passed ++ d.holder :: above)
    (hpassed : ∀ c ∈ passed, c.declared? m.signature = none) :
    h.selectFrom S m = .ok d.ref ↔ h.answering m d.holder = true := by
  constructor
  · intro hok
    by_contra hans
    rcases above_of_selectFrom hup hpassed (by simpa using hans) hok with ⟨c, hc, hname⟩ | hmem
    · rw [hd.ref] at hname
      exact ha _ (hname ▸ (pairwise_of_split hup).2 c hc)
    · rw [hd.ref] at hmem
      exact not_mem_superinterfaces hn hd.holder hi hmem
  · intro hans
    refine selectFrom_of_answering hd hup (fun c hc => ?_) hans hda
    simp [answering, hpassed c hc]

include ha hd hdv hda in
/-- The virtual call runs its target unless something answers before. -/
theorem selectFrom_virtual_iff (hdown : h.superclasses C = below ++ d.holder :: above) :
    h.selectFrom C d.ref = .ok d.ref ↔ ∀ c ∈ below, h.answering d.ref c = false := by
  have hd' : h.Declares d.ref.signature d := by rwa [hd.ref]
  constructor
  · intro hok c hc
    by_contra hans
    obtain ⟨c', hc', hname⟩ := below_of_selectFrom hdown ⟨c, hc, by simpa using hans⟩ hok
    rw [hd.ref] at hname
    exact ha _ (hname ▸ (pairwise_of_split hdown).1 c' hc')
  · intro hans
    refine selectFrom_of_answering hd' hdown hans ?_ hda
    rw [hd'.answering]
    simp [answersCall, hdv, hd.ref]

include ha hn hd hdv hda hi in
/-- A super call and a virtual call of its target run the same only if both run the target. -/
theorem selectFrom_eq_selectFrom_iff (hup : h.superclasses S = passed ++ d.holder :: above)
    (hpassed : ∀ c ∈ passed, c.declared? m.signature = none)
    (hdown : h.superclasses C = below ++ d.holder :: after)
    (hbelow : ∀ c ∈ below, c.isInterface = false) :
    h.selectFrom S m = h.selectFrom C d.ref ↔
      h.selectFrom S m = .ok d.ref ∧ h.selectFrom C d.ref = .ok d.ref := by
  refine ⟨fun heq => ?_, fun ⟨hsuper, hvirtual⟩ => hsuper.trans hvirtual.symm⟩
  rw [heq, and_self]
  by_contra hvirtual
  have hpassedOver : h.answering m d.holder = false := by
    rw [Bool.eq_false_iff, ne_eq, ← selectFrom_super_iff ha hn hd hda hi hup hpassed, heq]
    exact hvirtual
  have hanswered : ∃ c ∈ below, h.answering d.ref c = true := by
    rw [selectFrom_virtual_iff ha hd hdv hda hdown] at hvirtual
    simpa using hvirtual
  cases hsuper : h.selectFrom S m with
  | ok t =>
    -- one method stands above the target or on an interface, the other one below it on a class
    obtain ⟨c, hc, hname⟩ := below_of_selectFrom hdown hanswered (heq.symm.trans hsuper)
    have hclass := class?_of_mem_superclasses (hdown ▸ List.mem_append_left _ hc)
    rcases above_of_selectFrom hup hpassed hpassedOver hsuper with ⟨c', hc', hname'⟩ | hmem
    · have hdown := (pairwise_of_split hdown).1 c hc
      rw [hname, ← hname'] at hdown
      exact ha _ (hdown.trans ((pairwise_of_split hup).2 c' hc'))
    · exact not_mem_superinterfaces hn hclass (hbelow c hc) (hname ▸ hmem)
  | error e =>
    -- the errors tell which method was called
    have hm : m = d.ref := by
      rcases selectFrom_eq_error hsuper with rfl | rfl <;>
        rcases selectFrom_eq_error (heq.symm.trans hsuper) with he | he <;> simp_all
    have hname : m.holder = d.holder.name := congrArg MethodRef.holder hm
    have hans : h.answering m d.holder = true := by
      rw [hd.answering]
      simp [answersCall, hdv, hname]
    rw [hans] at hpassedOver
    exact Bool.noConfusion hpassedOver

end Target

/-- Where a super call and virtual dispatch agree on a target, calling it in either way runs the same
under an exact condition. If the target is a package member, the super call must have named a type of
its package. If the resolved method is a package member, no class of another package may redeclare it
for other packages on the way up to the target. -/
theorem selectFrom_eq_iff (ha : h.Acyclic) (hn : h.ImplementsNoClass)
    (hfind : h.find? m = some r) (hdispatch : h.dispatchFrom C r = .single d)
    (hsuper : h.dispatchSuper m K = .single d) (hi : d.holder.isInterface = false)
    (haccess : h.declarationAccessible d K = true) (hS : h.superclass? K = some S) :
    h.selectFrom S m = h.selectFrom C d.ref ↔
      (d.method.visibility = .package → h.samePackage d.holder.name m.holder = true) ∧
        (r.method.visibility = .package →
          ∀ c ∈ (h.superclasses C).takeWhile (·.name ≠ d.holder.name),
            c.package ≠ r.holder.package →
              (c.declared? m.signature).any Method.isExported = false) := by
  have hr := declares_of_find? hfind
  have hd := (declares_of_dispatchFrom hr.signature hdispatch).1
  -- no default method is meant, since the target stands on a class
  have hnot : ∀ t, h.defaultMethod t m.signature ≠ .single d := fun t hdefault =>
    not_mem_superinterfaces hn hd.holder hi (declares_of_defaultMethod hdefault).1
  obtain ⟨S', hS', hda, hsuper⟩ := dispatchSuper_eq_single hsuper
  obtain rfl := Option.some.inj (hS.symm.trans hS')
  obtain ⟨-, passed, above, hup, hpassed⟩ := hsuper.resolve_right (hnot S)
  have hf : h.firstOverride? C r = some d := by
    rcases dispatchFrom_eq_single.1 hdispatch with ⟨hf, -⟩ | ⟨-, hdefault⟩
    · exact hf
    · rw [hr.signature] at hdefault
      exact absurd hdefault (hnot C)
  have hov := (declares_of_firstOverride? hr.signature hf).2.2.2
  obtain ⟨below, after, hdown, hbelow, hnov, hway⟩ := exists_way_of_firstOverride? hr hf
  have hdv := ha.isVirtual_of_accessible hS (by rw [hup]; simp) haccess
  have hrv := isVirtual_of_overrides hd hr hov hdv
  rw [selectFrom_eq_selectFrom_iff ha hn hd hdv hda hi hup hpassed hdown hbelow,
    selectFrom_super_iff ha hn hd hda hi hup hpassed, answering_iff_samePackage hd hdv hfind,
    selectFrom_virtual_iff ha hd hdv hda hdown, hway]
  refine and_congr_right fun _ => ?_
  have hclass : ∀ c ∈ below, h.class? c.name = some c := fun c hc =>
    class?_of_mem_superclasses (hdown ▸ List.mem_append_left _ hc)
  constructor
  · intro hsilent hvis c hc hpackage
    cases hx : c.declared? m.signature with
    | none => rfl
    | some x =>
      have he : h.Declares m.signature ⟨c, x⟩ := ⟨hclass c hc, hx⟩
      rw [Option.any_some, Bool.eq_false_iff]
      intro hexported
      have := (answering_ref_iff he hd hr hrv hov (hnov _ he hc)).2 ⟨hvis, hpackage, hexported⟩
      simp [hsilent c hc] at this
  · intro hhidden c hc
    rw [Bool.eq_false_iff]
    intro hans
    obtain ⟨e, he, rfl⟩ := exists_declares_of_answering (hclass c hc) hans
    have he : h.Declares m.signature e := by rwa [hd.ref] at he
    obtain ⟨hvis, hpackage, hexported⟩ :=
      (answering_ref_iff he hd hr hrv hov (hnov e he hc)).1 hans
    have := hhidden hvis e.holder hc hpackage
    simp [he.method, hexported] at this

/-- A super call and the virtual call of its only target, on an object that the receiver may be. -/
theorem selectTarget_super_eq_iff {receiver : StaticType} (ha : h.Acyclic) (hd : h.DefinedOnce)
    (hn : h.ImplementsNoClass) (hsuper : h.resolved .super m receiver K = .single t)
    (hvirtual : h.resolved .virtual m receiver K = .single t) (hadmits : receiver.Admits h C)
    (hC : h.isInstantiated C = true) (arguments : List RuntimeValue) :
    ∃ r d, h.find? m = some r ∧ h.find? t = some d ∧
      (h.selectTarget K .super m (.object C :: arguments) =
          h.selectTarget K .virtual t (.object C :: arguments) ↔
        (d.method.visibility = .package → h.samePackage d.holder.name m.holder = true) ∧
        (r.method.visibility = .package →
          ∀ c ∈ (h.superclasses C).takeWhile (·.name ≠ d.holder.name),
            c.package ≠ r.holder.package →
              (c.declared? m.signature).any Method.isExported = false)) := by
  obtain ⟨r, d, hr, hdispatch, rfl, hinterface, haccess⟩ :=
    hd.exists_dispatchFrom (by simp) hvirtual hadmits hC
  have hddecl := (h.declares_of_dispatchFrom (h.declares_of_find? hr).signature hdispatch).1
  have hi : d.holder.isInterface = false := by simpa using hinterface
  obtain ⟨_, -, -, hsuper⟩ := h.resolved_eq_single hsuper
  obtain ⟨_, d', -, hsuper, -, -, href⟩ := h.answer_eq_single hsuper
  obtain rfl := hddecl.eq_of_ref (h.declares_of_dispatchSuper hsuper) href
  obtain ⟨S, hS, -⟩ := h.dispatchSuper_eq_single hsuper
  refine ⟨r, d, hr, hddecl.find? hi, ?_⟩
  simp only [Hierarchy.selectTarget, List.head?_cons, hS]
  exact h.selectFrom_eq_iff ha hn hr hdispatch hsuper hi haccess hS

end Hierarchy

namespace Devirtualizing

variable {h : Hierarchy} {s s' : Devirtualization.State h} {i : InstrId} {call : Call}
  {receiver : ValueId} {x : Value} {C : TypeName}

/-- On an acyclic hierarchy in which every name has one definition and no implements list names a
class, a super call that is made virtual runs the same as before on an object of the class `C`, which
the receiver may be, exactly if two things hold. If the new target is a package member, the super
call has named a type of its package. If the method the call resolved to is a package member, no
class of another package redeclares it for other packages between `C` and the new target. -/
theorem selectTarget_eq_iff_of_superToVirtual (ha : h.Acyclic) (hd : h.DefinedOnce)
    (hn : h.ImplementsNoClass) (hcall : s.body.call? i = .ok (some call))
    (hkind : call.kind = .super) (hreceiver : call.receiver? = some receiver)
    (hx : s.body.value receiver = .ok x) (hrun : (superToVirtual i).run s = .ok (true, s'))
    (hadmits : x.bestType.Admits h C) (hC : h.isInstantiated C = true)
    (arguments : List RuntimeValue) :
    ∃ t r d, s'.body.call? i = .ok (some { call with kind := .virtual, method := t }) ∧
      h.find? call.method = some r ∧ h.find? t = some d ∧
      (h.selectTarget s.body.context .super call.method (.object C :: arguments) =
          h.selectTarget s'.body.context .virtual t (.object C :: arguments) ↔
        (d.method.visibility = .package →
          h.samePackage d.holder.name call.method.holder = true) ∧
        (r.method.visibility = .package →
          ∀ c ∈ (h.superclasses C).takeWhile (·.name ≠ d.holder.name),
            c.package ≠ r.holder.package →
              (c.declared? call.method.signature).any Method.isExported = false)) := by
  have hop := Body.call?_eq_ok_some.1 hcall
  obtain ⟨hfalse, -⟩ | ⟨-, t, hturn, hbody, -⟩ := run_superToVirtual hop hkind hrun
  · exact Bool.noConfusion hfalse
  cases hturn with
  | specialize hvirtual => exact absurd (hkind.symm.trans hvirtual) (by simp)
  | interface hinterface => exact absurd (hkind.symm.trans hinterface) (by simp)
  | super _ hreceiver' hy hsuper hvirtual =>
    obtain rfl := Option.some.inj (hreceiver.symm.trans hreceiver')
    obtain rfl := Except.ok.inj (hx.symm.trans hy)
    obtain ⟨r, d, hr, hd, hiff⟩ :=
      h.selectTarget_super_eq_iff ha hd hn hsuper hvirtual hadmits hC arguments
    have hcontext : s'.body.context = s.body.context := by
      rw [hbody]
      rfl
    refine ⟨t, r, d, ?_, hr, hd, hcontext ▸ hiff⟩
    rw [hbody]
    exact Body.call?_eq_ok_some.2 (Body.operation_retargeted hop)

/-- A class overrides a method of another package by a package member and is extended in its own
package; the overridden class is extended as well. -/
def hiddenOverride : Hierarchy :=
  { defined := [
      { name := "q.X", methods := [{ signature := { name := "f" } }] },
      { name := "p.S", superclass := some "q.X"
        methods := [{ signature := { name := "f" }, visibility := .package }] },
      { name := "p.K", superclass := some "p.S" },
      { name := "q.L", superclass := some "q.X" }] }

theorem acyclic_hiddenOverride : hiddenOverride.Acyclic :=
  Hierarchy.acyclic_of_rank
    (fun t => if t = rootType then 3 else if t = "q.X" then 2 else if t = "p.S" then 1 else 0)
    (by decide +kernel)

/-- A super call in the class of the same package as the overridden one runs the same after it has
been made virtual. -/
theorem selectTarget_superToVirtual_inherited :
    ∃ s', (superToVirtual ⟨1⟩).run (.initial hiddenOverride (.singleCall (.plain "q.L" "g") .super
        (.plain "q.X" "f") (.exactly "q.L" .notNull))) = .ok (true, s') ∧
      s'.body.call? ⟨1⟩ = .ok (some
        { kind := .virtual, method := .plain "q.X" "f", arguments := [⟨0⟩] }) ∧
      hiddenOverride.selectTarget "q.L" .super (.plain "q.X" "f") [.object "q.L"] =
        hiddenOverride.selectTarget s'.body.context .virtual (.plain "q.X" "f") [.object "q.L"] := by
  let s : Devirtualization.State hiddenOverride := .initial _ (.singleCall (.plain "q.L" "g") .super
    (.plain "q.X" "f") (.exactly "q.L" .notNull))
  let x : Value :=
    { type := .exactly "q.L" .notNull, definition := .instruction ⟨0⟩, users := .ofList [⟨1⟩] }
  obtain ⟨s', hrun, hcall'⟩ : ∃ s', (superToVirtual ⟨1⟩).run s = .ok (true, s') ∧
      s'.body.call? ⟨1⟩ = .ok (some
        { kind := .virtual, method := .plain "q.X" "f", arguments := [⟨0⟩] }) := by
    decide +kernel
  have hcall : s.body.call? ⟨1⟩ = .ok (some
      { kind := .super, method := .plain "q.X" "f", arguments := [⟨0⟩] }) := rfl
  have hadmits : x.bestType.Admits hiddenOverride "q.L" := ⟨_, rfl, by decide +kernel⟩
  obtain ⟨t, r, d, hcall'', hr, hd, hiff⟩ := selectTarget_eq_iff_of_superToVirtual (s := s) (x := x)
    acyclic_hiddenOverride (by decide +kernel) (by decide +kernel) hcall rfl rfl rfl hrun hadmits
    (by decide +kernel) []
  obtain rfl : .plain "q.X" "f" = t :=
    congrArg Call.method (Option.some.inj (Except.ok.inj (hcall'.symm.trans hcall'')))
  have hpublic : ∀ e, hiddenOverride.find? (.plain "q.X" "f") = some e →
      e.method.visibility ≠ .package := by
    decide +kernel
  exact ⟨s', hrun, hcall', hiff.2
    ⟨fun hvis => absurd hvis (hpublic d hd), fun hvis => absurd hvis (hpublic r hr)⟩⟩

/-- A class makes a package member public within the package, and below it a class of another package
declares the method anew. -/
def publishedOverride : Hierarchy :=
  { defined := [
      { name := "p.A", methods := [{ signature := { name := "f" }, visibility := .package }] },
      { name := "p.B", superclass := some "p.A", methods := [{ signature := { name := "f" } }] },
      { name := "p.K", superclass := some "p.B", methods := [{ signature := { name := "g" } }] },
      { name := "q.D", superclass := some "p.K", methods := [{ signature := { name := "f" } }] }] }

theorem acyclic_publishedOverride : publishedOverride.Acyclic :=
  Hierarchy.acyclic_of_rank
    (fun t => if t = rootType then 4 else if t = "p.A" then 3 else if t = "p.B" then 2 else
      if t = "p.K" then 1 else 0)
    (by decide +kernel)

/-- A super call in the class `K` is made virtual for what is known of its receiver, and then selects
something else on an object of the class `C`, a subclass that the receiver may be of. -/
def Diverts (h : Hierarchy) (called : MethodRef) (K C : TypeName) (receiver : StaticType) : Prop :=
  h.Acyclic ∧ h.DefinedOnce ∧ receiver.Admits h C ∧ h.isInstantiated C = true ∧
    h.isSubtype C K = true ∧
    ∃ s', (superToVirtual ⟨1⟩).run (.initial h
        (.singleCall (.plain K "g") .super called receiver)) = .ok (true, s') ∧
      ∃ call, s'.body.call? ⟨1⟩ = .ok (some call) ∧ call.kind = .virtual ∧
        h.selectTarget K .super called [.object C] ≠
          h.selectTarget K .virtual call.method [.object C]

/-- Three ways in which the virtual call selects something else. Where the target is public but the
method named by the call is a package member, a class of another package overrides the target and not
that method. In the class of another package the super call passes over an override that the virtual
call runs. Below a class that stands among the superinterfaces, the virtual call meets the
declarations of all of them. -/
theorem superToVirtual_diverts :
    (publishedOverride.ImplementsNoClass ∧ Diverts publishedOverride (.plain "p.A" "f") "p.K" "q.D"
        (.ofClass "p.K" .notNull)) ∧
      (hiddenOverride.ImplementsNoClass ∧ Diverts hiddenOverride (.plain "q.X" "f") "p.K" "p.K"
        (.exactly "p.K" .notNull)) ∧
      Diverts Hierarchy.implementedClass (.plain "D" "f") "K" "C" (.exactly "C" .notNull) := by
  refine ⟨⟨by decide +kernel, acyclic_publishedOverride, by decide +kernel, ?_, by decide +kernel⟩,
    ⟨by decide +kernel, acyclic_hiddenOverride, by decide +kernel, ?_, by decide +kernel⟩,
    Hierarchy.acyclic_implementedClass, by decide +kernel, ?_, by decide +kernel⟩
  all_goals exact ⟨_, rfl, by decide +kernel⟩

end Devirtualizing

end Devirt
