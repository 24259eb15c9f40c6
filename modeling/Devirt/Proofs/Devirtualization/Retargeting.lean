import Devirt.Proofs.Devirtualization.Effects

/-!
The targets that calls are given. The reason for a target lies in what is known of the receiver. A
visit either changes nothing, because there is no such reason, or gives the call a target, makes the
receiver fit it and lets the call name the nearest declaration.
-/

namespace Devirt

/-- Why a call may be made virtual and name another method. -/
inductive Body.Retargets (h : Hierarchy) (c : Body) (call : Call) : MethodRef → Prop
  | super {r : ValueId} {y : Value} {target : MethodRef} (hkind : call.kind = .super)
      (hr : call.receiver? = some r) (hy : c.value r = .ok y)
      (hsuper : h.resolved .super call.method y.bestType c.context = .single target)
      (hvirtual : h.resolved .virtual call.method y.bestType c.context = .single target) :
      Retargets h c call target
  | specialize {r : ValueId} {y : Value} {target : MethodRef} (hkind : call.kind = .virtual)
      (hr : call.receiver? = some r) (hy : c.value r = .ok y)
      (htarget : Devirtualizing.moreSpecific? h call.method y.type c.context = some target) :
      Retargets h c call target
  | interface {r : ValueId} {y : Value} {target : MethodRef} (hkind : call.kind = .interface)
      (hr : call.receiver? = some r) (hy : c.value r = .ok y)
      (hsole : h.resolved .interface call.method y.bestType c.context = .single target)
      (hclass : h.isClass target.holder = true)
      (haccess : h.classAccessible target.holder c.context = true) :
      Retargets h c call target

/-- Whether calls of a kind are treated. -/
def Options.treats (options : Options) : DispatchKind → Bool
  | .super => options.superToVirtual
  | .virtual => options.specializeVirtual
  | .interface => options.interfaceToVirtual

namespace CallStats

/-- The numbers when one more call of the kind has been given a target. -/
def turned (s : CallStats) : DispatchKind → CallStats
  | .super => { s with superToVirtual := s.superToVirtual + 1 }
  | .virtual => { s with specialized := s.specialized + 1 }
  | .interface => { s with interfaceToVirtual := s.interfaceToVirtual + 1 }

theorem total_turned (s : CallStats) (kind : DispatchKind) :
    (s.turned kind).total = s.total + 1 := by
  cases kind <;> simp only [turned, total] <;> omega

end CallStats

namespace Body

variable {h : Hierarchy} {c d : Body} {call call' : Call} {target : MethodRef} {r : ValueId}
  {y : Value}

namespace Retargets

theorem of_super (ht : c.Retargets h call target) (hkind : call.kind = .super)
    (hr : call.receiver? = some r) (hy : c.value r = .ok y) :
    h.resolved .super call.method y.bestType c.context = .single target ∧
      h.resolved .virtual call.method y.bestType c.context = .single target := by
  cases ht with
  | super _ hr' hy' hsuper hvirtual =>
    obtain rfl := Option.some.inj (hr.symm.trans hr')
    obtain rfl := Except.ok.inj (hy.symm.trans hy')
    exact ⟨hsuper, hvirtual⟩
  | specialize hkind' => simp [hkind] at hkind'
  | interface hkind' => simp [hkind] at hkind'

theorem of_virtual (ht : c.Retargets h call target) (hkind : call.kind = .virtual)
    (hr : call.receiver? = some r) (hy : c.value r = .ok y) :
    Devirtualizing.moreSpecific? h call.method y.type c.context = some target := by
  cases ht with
  | super hkind' => simp [hkind] at hkind'
  | specialize _ hr' hy' htarget =>
    obtain rfl := Option.some.inj (hr.symm.trans hr')
    obtain rfl := Except.ok.inj (hy.symm.trans hy')
    exact htarget
  | interface hkind' => simp [hkind] at hkind'

theorem of_interface (ht : c.Retargets h call target) (hkind : call.kind = .interface)
    (hr : call.receiver? = some r) (hy : c.value r = .ok y) :
    h.resolved .interface call.method y.bestType c.context = .single target ∧
      h.isClass target.holder = true ∧ h.classAccessible target.holder c.context = true := by
  cases ht with
  | super hkind' => simp [hkind] at hkind'
  | specialize hkind' => simp [hkind] at hkind'
  | interface _ hr' hy' hsole hclass haccess =>
    obtain rfl := Option.some.inj (hr.symm.trans hr')
    obtain rfl := Except.ok.inj (hy.symm.trans hy')
    exact ⟨hsole, hclass, haccess⟩

theorem exists_receiver (ht : c.Retargets h call target) : ∃ r, call.receiver? = some r := by
  cases ht with
  | super _ hr _ _ _ => exact ⟨_, hr⟩
  | specialize _ hr _ _ => exact ⟨_, hr⟩
  | interface _ hr _ _ _ _ => exact ⟨_, hr⟩

/-- What a call may become depends on what is known of its receiver. -/
theorem congr (ht : c.Retargets h call target) (hcontext : d.context = c.context)
    (hkind : call'.kind = call.kind) (hmethod : call'.method = call.method)
    (hreceiver : call'.receiver? = call.receiver?)
    (hvalue : ∀ v x, call.receiver? = some v → c.value v = .ok x →
      ∃ y, d.value v = .ok y ∧ y.SameKnown x) : d.Retargets h call' target := by
  cases ht with
  | super hkind' hr hy hsuper hvirtual =>
    obtain ⟨y, hy, hknown⟩ := hvalue _ _ hr hy
    rw [← hcontext, ← hmethod, ← hknown.bestType] at hsuper hvirtual
    exact .super (hkind.trans hkind') (hreceiver.trans hr) hy hsuper hvirtual
  | specialize hkind' hr hy htarget =>
    obtain ⟨y, hy, hknown⟩ := hvalue _ _ hr hy
    rw [← hcontext, ← hmethod, ← hknown.1] at htarget
    exact .specialize (hkind.trans hkind') (hreceiver.trans hr) hy htarget
  | interface hkind' hr hy hsole hclass haccess =>
    obtain ⟨y, hy, hknown⟩ := hvalue _ _ hr hy
    rw [← hcontext] at hsole haccess
    rw [← hmethod, ← hknown.bestType] at hsole
    exact .interface (hkind.trans hkind') (hreceiver.trans hr) hy hsole hclass haccess

end Retargets

/-- There is no reason to give the call another target. -/
def Settled (h : Hierarchy) (c : Body) (call : Call) : Prop := ∀ target, ¬ c.Retargets h call target

/-- The instruction is a call that is treated under the options, and there is a reason to give it
another target. -/
def Open (h : Hierarchy) (options : Options) (c : Body) (i : InstrId) : Prop :=
  ∃ call target, c.operation i = .ok (.call call) ∧ options.treats call.kind = true ∧
    c.Retargets h call target

theorem not_open_of_settled {i : InstrId} {options : Options}
    (hop : c.operation i = .ok (.call call))
    (hsettled : options.treats call.kind = true → c.Settled h call) : ¬ c.Open h options i := by
  rintro ⟨call', target, hop', htreats, ht⟩
  obtain rfl := Operation.call.inj (Except.ok.inj (hop.symm.trans hop'))
  exact hsettled htreats target ht

end Body

namespace Devirtualizing

/-- Where a more specific method is declared. -/
theorem moreSpecific?_eq_some {h : Hierarchy} {m t : MethodRef} {receiver : StaticType}
    {context : TypeName} (ht : moreSpecific? h m receiver context = some t) :
    ∃ c r f, receiver = .reference c ∧ h.find? m = some r ∧
      h.findOnClass? m.signature c.name = some f ∧ h.dispatchable r context = true ∧
      h.dispatchable f context = true ∧ f.holder.isInterface = false ∧ f.ref = t ∧ t ≠ m := by
  simp only [moreSpecific?, Option.bind_eq_bind, Option.bind_eq_some_iff, Option.guard_eq_some',
    Bool.and_eq_true, Bool.not_eq_eq_eq_not, Bool.not_true, exists_const, Option.pure_def,
    Option.some.injEq] at ht
  obtain ⟨c, hc, r, hr, ⟨-, hrd⟩, -, f, hf, ⟨⟨hfd, -⟩, hi⟩, hne, href⟩ := ht
  exact ⟨c, r, f, (StaticType.classReference?_eq_some.1 hc).1, hr, hf, hrd, hfd, hi, href,
    href ▸ hne⟩

/-- Nothing is more specific than a method that was chosen for being so. -/
theorem moreSpecific?_moreSpecific? {h : Hierarchy} {m t : MethodRef} {receiver : StaticType}
    {context : TypeName} (ht : moreSpecific? h m receiver context = some t) :
    moreSpecific? h t receiver context = none := by
  rw [Option.eq_none_iff_forall_ne_some]
  intro t' ht'
  obtain ⟨c, r, f, rfl, -, hf, -, -, -, rfl, -⟩ := moreSpecific?_eq_some ht
  obtain ⟨c', r', f', hc, -, hf', -, -, -, rfl, hne⟩ := moreSpecific?_eq_some ht'
  obtain rfl := StaticType.reference.inj hc
  have hsignature : f.ref.signature = m.signature := (h.declares_of_findOnClass? hf).signature
  rw [hsignature] at hf'
  exact hne (congrArg Declaration.ref (Option.some.inj (hf'.symm.trans hf)))

variable {h : Hierarchy} {s s' : Devirtualization.State h} {i : InstrId} {index : Nat} {call : Call}
  {target : MethodRef} {u : Unit} {options : Options} {moved : Moved}

/-- The step has changed neither a call nor anything else of the body. -/
structure Idle (s s' : Devirtualization.State h) : Prop where
  body : s'.body = s.body
  casts : s'.casts = s.casts
  affected : s'.affected = s.affected
  stats : s'.stats = s.stats

theorem Idle.refl (s : Devirtualization.State h) : Idle s s := ⟨rfl, rfl, rfl, rfl⟩

/-- The step has given the call a target, and has changed nothing else of the body. -/
structure Turns (i : InstrId) (call : Call) (target : MethodRef) (s s' : Devirtualization.State h) :
    Prop where
  retargets : s.body.Retargets h call target
  body : s'.body = s.body.retargeted i call target
  casts : s'.casts = s.casts
  affected : ∀ v ∈ s.affected, v ∈ s'.affected
  stats : s'.stats = s.stats.turned call.kind

theorem Turns.total (ht : Turns i call target s s') : s'.stats.total = s.stats.total + 1 := by
  rw [ht.stats, CallStats.total_turned]

theorem Turns.operation (ht : Turns i call target s s')
    (hop : s.body.operation i = .ok (.call call)) :
    s'.body.operation i = .ok (.call { call with kind := .virtual, method := target }) := by
  rw [ht.body]
  exact Body.operation_retargeted hop

theorem run_retargetCall (hrun : (retargetCall i .virtual target).run s = .ok (u, s'))
    (hop : s.body.operation i = .ok (.call call)) :
    s' = { s with body := s.body.retargeted i call target } := by
  simp only [retargetCall, run_bind_eq_ok, run_query_eq_ok, Body.call?_eq_ok hop] at hrun
  obtain ⟨_, _, ⟨hcall, rfl⟩, hrun⟩ := hrun
  obtain rfl := Except.ok.inj hcall
  obtain ⟨c, hc, rfl⟩ := run_edit_eq_ok.1 hrun
  obtain ⟨op, hop', -, -, rfl⟩ := Body.replace_eq_ok.1 hc
  obtain rfl := Except.ok.inj (hop'.symm.trans hop)
  rfl

theorem run_superToVirtual {changed : Bool} (hop : s.body.operation i = .ok (.call call))
    (hkind : call.kind = .super) (hrun : (superToVirtual i).run s = .ok (changed, s')) :
    changed = false ∧ Idle s s' ∧ s.body.Settled h call ∨
      changed = true ∧ ∃ target, Turns i call target s s' := by
  simp only [superToVirtual, run_bind_eq_ok, run_query_eq_ok, Body.call?_eq_ok hop] at hrun
  obtain ⟨_, _, ⟨hcall, rfl⟩, hrun⟩ := hrun
  obtain rfl := Except.ok.inj hcall
  dsimp only [Operation.call?] at hrun
  split at hrun
  · rename_i r hr
    simp only [run_bind_eq_ok, run_query_eq_ok, run_resolve_eq_ok] at hrun
    obtain ⟨y, _, ⟨hy, rfl⟩, _, _, ⟨rfl, rfl⟩, hrun⟩ := hrun
    split at hrun
    · rename_i target hsuper
      simp only [run_bind_eq_ok, run_resolve_eq_ok] at hrun
      obtain ⟨_, _, ⟨rfl, rfl⟩, hrun⟩ := hrun
      split at hrun
      · rename_i hvirtual
        obtain ⟨rfl, rfl⟩ := run_pure_eq_ok.1 hrun
        refine .inl ⟨rfl, ⟨rfl, rfl, rfl, rfl⟩, fun target' ht => hvirtual ?_⟩
        obtain ⟨hsuper', hvirtual'⟩ := ht.of_super hkind hr hy
        exact hvirtual'.trans (hsuper'.symm.trans hsuper)
      · rename_i hvirtual
        simp only [run_bind_eq_ok, run_count_eq_ok, run_pure_eq_ok] at hrun
        obtain ⟨_, s₁, hturn, _, _, rfl, rfl, rfl⟩ := hrun
        obtain rfl := run_retargetCall hturn hop
        have hturns := Body.Retargets.super hkind hr hy hsuper (Decidable.not_not.1 hvirtual)
        exact .inr ⟨rfl, target, hturns, rfl, rfl, fun _ hv => hv, by rw [hkind]; rfl⟩
    · rename_i hsingle
      obtain ⟨rfl, rfl⟩ := run_pure_eq_ok.1 hrun
      exact .inl ⟨rfl, ⟨rfl, rfl, rfl, rfl⟩, fun target ht =>
        hsingle target (ht.of_super hkind hr hy).1⟩
  · rename_i hnone
    obtain ⟨rfl, rfl⟩ := run_pure_eq_ok.1 hrun
    exact .inl ⟨rfl, .refl _, fun _ ht => ht.exists_receiver.elim hnone⟩

/-- A call is left alone, for want of a more specific method or because this is not wanted, or it
gets that method. -/
theorem specialize_cases (hop : s.body.operation i = .ok (.call call))
    (hrun : (specialize options i).run s = .ok (u, s')) :
    s' = s ∧ (options.specializeVirtual = true → ∀ r y, call.receiver? = some r →
        s.body.value r = .ok y → moreSpecific? h call.method y.type s.body.context = none) ∨
      options.specializeVirtual = true ∧ ∃ r y target, call.receiver? = some r ∧
        s.body.value r = .ok y ∧
        moreSpecific? h call.method y.type s.body.context = some target ∧
        s' = { s with
          body := s.body.retargeted i call target
          stats := { s.stats with specialized := s.stats.specialized + 1 } } := by
  unfold specialize at hrun
  split at hrun
  · rename_i hoption
    simp only [run_bind_eq_ok, run_query_eq_ok, Body.call?_eq_ok hop] at hrun
    obtain ⟨_, _, ⟨hcall, rfl⟩, hrun⟩ := hrun
    obtain rfl := Except.ok.inj hcall
    dsimp only [Operation.call?] at hrun
    split at hrun
    · rename_i r hr
      simp only [run_bind_eq_ok, run_query_eq_ok, run_get_eq_ok] at hrun
      obtain ⟨y, _, ⟨hy, rfl⟩, _, _, ⟨rfl, rfl⟩, hrun⟩ := hrun
      split at hrun
      · rename_i target htarget
        simp only [run_bind_eq_ok, run_count_eq_ok] at hrun
        obtain ⟨_, s₁, hturn, rfl⟩ := hrun
        obtain rfl := run_retargetCall hturn hop
        exact .inr ⟨hoption, r, y, target, hr, hy, htarget, rfl⟩
      · rename_i hnone
        obtain ⟨-, rfl⟩ := run_pure_eq_ok.1 hrun
        refine .inl ⟨rfl, fun _ r' y' hr' hy' => ?_⟩
        obtain rfl := Option.some.inj (hr.symm.trans hr')
        obtain rfl := Except.ok.inj (hy.symm.trans hy')
        exact Option.eq_none_iff_forall_ne_some.2 hnone
    · rename_i hnone
      obtain ⟨-, rfl⟩ := run_pure_eq_ok.1 hrun
      exact .inl ⟨rfl, fun _ r _ hr => absurd hr (hnone r)⟩
  · rename_i hoption
    obtain ⟨-, rfl⟩ := run_pure_eq_ok.1 hrun
    exact .inl ⟨rfl, fun hwanted => absurd hwanted hoption⟩

theorem run_specialize (hop : s.body.operation i = .ok (.call call)) (hkind : call.kind = .virtual)
    (hrun : (specialize options i).run s = .ok (u, s')) :
    Idle s s' ∧ (options.specializeVirtual = true → s.body.Settled h call) ∨
      options.specializeVirtual = true ∧ ∃ target, Turns i call target s s' := by
  rcases specialize_cases hop hrun with ⟨rfl, hnone⟩ | ⟨hoption, r, y, target, hr, hy, htarget, rfl⟩
  · refine .inl ⟨.refl _, fun hoption target ht => ?_⟩
    cases ht with
    | super hkind' => simp [hkind] at hkind'
    | specialize _ hr hy htarget => simp [hnone hoption _ _ hr hy] at htarget
    | interface hkind' => simp [hkind] at hkind'
  · exact .inr ⟨hoption, target, .specialize hkind hr hy htarget, rfl, rfl, fun _ hv => hv,
      by rw [hkind]; rfl⟩

theorem run_soleClassTarget? {receiver : ValueId} {target? : Option MethodRef}
    (hkind : call.kind = .interface) (hr : call.receiver? = some receiver)
    (hrun : (soleClassTarget? call receiver).run s = .ok (target?, s')) :
    Idle s s' ∧ ∀ target, target? = some target ↔ s.body.Retargets h call target := by
  simp only [soleClassTarget?, run_bind_eq_ok, run_query_eq_ok, run_resolve_eq_ok] at hrun
  obtain ⟨y, _, ⟨hy, rfl⟩, _, _, ⟨rfl, rfl⟩, hrun⟩ := hrun
  split at hrun
  · rename_i target hsole
    simp only [run_bind_eq_ok, run_get_eq_ok] at hrun
    obtain ⟨_, _, ⟨rfl, rfl⟩, hrun⟩ := hrun
    have hsame : ∀ {target'}, s.body.Retargets h call target' → target' = target ∧
        h.isClass target.holder = true ∧ h.classAccessible target.holder s.body.context = true := by
      intro target' ht
      obtain ⟨hsole', haccess⟩ := ht.of_interface hkind hr hy
      obtain rfl := Selection.single.inj (hsole'.symm.trans hsole)
      exact ⟨rfl, haccess⟩
    split at hrun
    · rename_i haccess
      rw [Bool.and_eq_true] at haccess
      obtain ⟨rfl, rfl⟩ := run_pure_eq_ok.1 hrun
      refine ⟨⟨rfl, rfl, rfl, rfl⟩, fun target' => ⟨fun hmem => ?_, fun ht => ?_⟩⟩
      · obtain rfl := Option.some.inj hmem
        exact .interface hkind hr hy hsole haccess.1 haccess.2
      · rw [(hsame ht).1]
    · rename_i haccess
      obtain ⟨rfl, rfl⟩ := run_pure_eq_ok.1 hrun
      refine ⟨⟨rfl, rfl, rfl, rfl⟩, fun target' => ⟨fun h => by simp at h, fun ht => ?_⟩⟩
      exact absurd (Bool.and_eq_true_iff.2 (hsame ht).2) haccess
  · rename_i hsingle
    obtain ⟨rfl, rfl⟩ := run_pure_eq_ok.1 hrun
    refine ⟨⟨rfl, rfl, rfl, rfl⟩, fun target => ⟨fun h => by simp at h, fun ht => ?_⟩⟩
    exact absurd (ht.of_interface hkind hr hy).1 (hsingle target)

/-- The receiver of an interface call is made fit its target, unless the target has the holder named
before. -/
def Fits (i : InstrId) (index : Nat) (call : Call) (target : MethodRef) (moved : Moved)
    (s s' : Devirtualization.State h) : Prop :=
  target.holder = call.method.holder ∧ moved = .stayed ∧ Idle s s' ∨
    ∃ receiver s₁, call.receiver? = some receiver ∧
      (castReceiver i index receiver target.holder).run s = .ok (moved, s₁) ∧ Idle s₁ s'

/-- The call stays virtual. -/
theorem Fits.exists_call (hfits : Fits i index call target moved s s')
    (hop : s.body.operation i = .ok (.call { call with kind := .virtual, method := target })) :
    ∃ arguments, s'.body.operation i =
      .ok (.call { call with kind := .virtual, method := target, arguments }) := by
  rcases hfits with ⟨-, -, hidle⟩ | ⟨receiver, s₁, hr, hrun, hidle⟩
  · exact ⟨call.arguments, by rw [hidle.body, hop]⟩
  · rw [hidle.body]
    rcases run_castReceiver hrun with ⟨rfl, -⟩ | ⟨cast, hreads, -⟩
    · exact ⟨call.arguments, hop⟩
    · obtain ⟨arguments, hop', -⟩ := hreads.exists_receiver hop hr
      exact ⟨arguments, hop'⟩

theorem run_interfaceToVirtual (hop : s.body.operation i = .ok (.call call))
    (hkind : call.kind = .interface)
    (hrun : (interfaceToVirtual i index).run s = .ok (moved, s')) :
    Idle s s' ∧ s.body.Settled h call ∧ moved = .stayed ∨
      ∃ target s₁, Turns i call target s s₁ ∧ Fits i index call target moved s₁ s' := by
  simp only [interfaceToVirtual, run_bind_eq_ok, run_query_eq_ok, Body.call?_eq_ok hop] at hrun
  obtain ⟨_, _, ⟨hcall, rfl⟩, hrun⟩ := hrun
  obtain rfl := Except.ok.inj hcall
  dsimp only [Operation.call?] at hrun
  split at hrun
  · rename_i receiver hr
    rw [run_bind_eq_ok] at hrun
    obtain ⟨target?, s₁, hsole, hrun⟩ := hrun
    obtain ⟨hidle, htarget⟩ := run_soleClassTarget? hkind hr hsole
    cases target? with
    | some target =>
      simp only [run_bind_eq_ok, run_count_eq_ok, run_affect_eq_ok] at hrun
      obtain ⟨_, s₂, hturn, _, _, rfl, _, s₃, hs₃, hrun⟩ := hrun
      obtain rfl := run_retargetCall hturn (hidle.body ▸ hop)
      have hturns : Turns i call target s s₃ := by
        rw [← hs₃]
        refine ⟨(htarget target).1 rfl, by rw [← hidle.body], hidle.casts, fun v hv => ?_, ?_⟩
        · rw [← hidle.affected] at hv
          exact OrderedSet.mem_insertAll.2 (.inl hv)
        · rw [hkind, ← hidle.stats]
          rfl
      refine .inr ⟨target, s₃, hturns, ?_⟩
      split at hrun
      · rename_i hholder
        simp only [run_bind_eq_ok, run_pure_eq_ok, run_modify_eq_ok] at hrun
        obtain ⟨_, _, ⟨rfl, rfl⟩, _, _, rfl, rfl, rfl⟩ := hrun
        exact .inl ⟨hholder, rfl, rfl, rfl, rfl, rfl⟩
      · simp only [run_bind_eq_ok, run_pure_eq_ok, run_modify_eq_ok] at hrun
        obtain ⟨_, s₄, hcast, _, _, rfl, rfl, rfl⟩ := hrun
        exact .inr ⟨receiver, s₄, hr, hcast, rfl, rfl, rfl, rfl⟩
    | none =>
      obtain ⟨rfl, rfl⟩ := run_pure_eq_ok.1 hrun
      exact .inl ⟨hidle, fun target ht => by simpa using (htarget target).2 ht, rfl⟩
  · rename_i hnone
    obtain ⟨rfl, rfl⟩ := run_pure_eq_ok.1 hrun
    exact .inl ⟨.refl _, fun _ ht => ht.exists_receiver.elim hnone, rfl⟩

/-- What a visit does. Only an interface call may move. -/
inductive Visits (options : Options) (i : InstrId) (index : Nat) (moved : Moved)
    (s s' : Devirtualization.State h) : Prop
  | idle (hidle : Idle s s') (hclosed : ¬ s.body.Open h options i) (hmoved : moved = .stayed)
  | special {call : Call} {target : MethodRef} (hop : s.body.operation i = .ok (.call call))
      (hkind : call.kind = .virtual) (htreats : options.treats call.kind = true)
      (hturns : Turns i call target s s') (hmoved : moved = .stayed)
  | super {call : Call} {target : MethodRef} {s₁ : Devirtualization.State h}
      (hop : s.body.operation i = .ok (.call call)) (hkind : call.kind = .super)
      (htreats : options.treats call.kind = true) (hturns : Turns i call target s s₁)
      (hrun : (specialize options i).run s₁ = .ok ((), s')) (hmoved : moved = .stayed)
  | interface {call : Call} {target : MethodRef} {s₁ s₂ : Devirtualization.State h}
      (hop : s.body.operation i = .ok (.call call)) (hkind : call.kind = .interface)
      (htreats : options.treats call.kind = true) (hturns : Turns i call target s s₁)
      (hfits : Fits i index call target moved s₁ s₂)
      (hrun : (specialize options i).run s₂ = .ok ((), s'))

theorem run_visit (hrun : (visit options i index).run s = .ok (moved, s')) :
    Visits options i index moved s s' := by
  simp only [visit, run_bind_eq_ok, run_query_eq_ok] at hrun
  obtain ⟨call?, _, ⟨hcall, rfl⟩, hrun⟩ := hrun
  cases call? with
  | none =>
    obtain ⟨rfl, rfl⟩ := run_pure_eq_ok.1 hrun
    refine .idle (.refl _) ?_ rfl
    rintro ⟨call, target, hop, -⟩
    rw [Body.call?_eq_ok_some.2 hop] at hcall
    simp at hcall
  | some call =>
    have hop := Body.call?_eq_ok_some.1 hcall
    dsimp only at hrun
    split at hrun
    · rename_i hkind
      have htreats : options.treats call.kind = options.superToVirtual :=
        congrArg options.treats hkind
      split at hrun
      · rename_i hoption
        simp only [run_bind_eq_ok] at hrun
        obtain ⟨changed, s₁, hsuper, hrun⟩ := hrun
        rcases run_superToVirtual hop hkind hsuper with ⟨rfl, hidle, hsettled⟩ | ⟨rfl, target, hturns⟩
        · obtain ⟨rfl, rfl⟩ := run_pure_eq_ok.1 hrun
          exact .idle hidle (Body.not_open_of_settled hop fun _ => hsettled) rfl
        · simp only [if_true, run_bind_eq_ok, run_pure_eq_ok] at hrun
          obtain ⟨_, s₂, hrun, rfl, rfl⟩ := hrun
          exact .super hop hkind (htreats.trans hoption) hturns hrun rfl
      · rename_i hoption
        obtain ⟨rfl, rfl⟩ := run_pure_eq_ok.1 hrun
        exact .idle (.refl _)
          (Body.not_open_of_settled hop fun ht => absurd (htreats ▸ ht) hoption) rfl
    · rename_i hkind
      have htreats : options.treats call.kind = options.specializeVirtual :=
        congrArg options.treats hkind
      simp only [run_bind_eq_ok, run_pure_eq_ok] at hrun
      obtain ⟨_, s₁, hrun, rfl, rfl⟩ := hrun
      rcases run_specialize hop hkind hrun with ⟨hidle, hsettled⟩ | ⟨hoption, target, hturns⟩
      · exact .idle hidle (Body.not_open_of_settled hop fun ht => hsettled (htreats ▸ ht)) rfl
      · exact .special hop hkind (htreats.trans hoption) hturns rfl
    · rename_i hkind
      have htreats : options.treats call.kind = options.interfaceToVirtual :=
        congrArg options.treats hkind
      split at hrun
      · rename_i hoption
        simp only [run_bind_eq_ok, run_query_eq_ok] at hrun
        obtain ⟨moved', s₁, hinterface, call?, _, ⟨hcall₁, rfl⟩, hrun⟩ := hrun
        rcases run_interfaceToVirtual hop hkind hinterface with
          ⟨hidle, hsettled, rfl⟩ | ⟨target, s₂, hturns, hfits⟩
        · rw [hidle.body, hcall] at hcall₁
          obtain rfl := Except.ok.inj hcall₁
          rw [if_neg (by simp [hkind])] at hrun
          obtain ⟨rfl, rfl⟩ := run_pure_eq_ok.1 hrun
          exact .idle hidle (Body.not_open_of_settled hop fun _ => hsettled) rfl
        · obtain ⟨arguments, hop₁⟩ := hfits.exists_call (hturns.operation hop)
          rw [Body.call?_eq_ok_some.2 hop₁] at hcall₁
          obtain rfl := Except.ok.inj hcall₁
          rw [if_pos (by simp)] at hrun
          simp only [run_bind_eq_ok, run_pure_eq_ok] at hrun
          obtain ⟨_, s₃, hrun, rfl, rfl⟩ := hrun
          exact .interface hop hkind (htreats.trans hoption) hturns hfits hrun
      · rename_i hoption
        obtain ⟨rfl, rfl⟩ := run_pure_eq_ok.1 hrun
        exact .idle (.refl _)
          (Body.not_open_of_settled hop fun ht => absurd (htreats ▸ ht) hoption) rfl

/-- What is kept when a call is given a target, and when the receiver of a call that has been made
virtual is cast, is kept by a visit. -/
theorem visit_invariant {motive : Devirtualization.State h → Prop}
    (hidle : ∀ {s s'}, motive s → Idle s s' → motive s')
    (hturns : ∀ {call target s s'}, motive s → Turns i call target s s' →
      s.body.operation i = .ok (.call call) → motive s')
    (hcast : ∀ {call target receiver moved s₁ s₂}, motive s₁ → Turns i call target s s₁ →
      s.body.operation i = .ok (.call call) → call.kind = .interface →
      call.receiver? = some receiver →
      (castReceiver i index receiver target.holder).run s₁ = .ok (moved, s₂) → motive s₂)
    (hs : motive s) (hrun : (visit options i index).run s = .ok (moved, s')) : motive s' := by
  have hspecialize : ∀ {call t}, motive t → t.body.operation i = .ok (.call call) →
      call.kind = .virtual → (specialize options i).run t = .ok ((), s') → motive s' := by
    intro call t ht hop hkind hrun
    rcases run_specialize hop hkind hrun with ⟨hstay, -⟩ | ⟨-, target, hturn⟩
    · exact hidle ht hstay
    · exact hturns ht hturn hop
  cases run_visit hrun with
  | idle hstay => exact hidle hs hstay
  | special hop _ _ hturn => exact hturns hs hturn hop
  | super hop _ _ hturn hrun =>
    exact hspecialize (hturns hs hturn hop) (hturn.operation hop) rfl hrun
  | interface hop hkind _ hturn hfits hrun =>
    have hs₁ := hturns hs hturn hop
    obtain ⟨arguments, hop₂⟩ := hfits.exists_call (hturn.operation hop)
    rcases hfits with ⟨-, -, hstay⟩ | ⟨receiver, s₂, hreceiver, hrun₂, hstay⟩
    · exact hspecialize (hidle hs₁ hstay) hop₂ rfl hrun
    · exact hspecialize (hidle (hcast hs₁ hturn hop hkind hreceiver hrun₂) hstay) hop₂ rfl hrun

/-! ### Samples -/

/-- One class implements an interface, and another one extends it without a method of its own. -/
def implementedOnce : Hierarchy :=
  { defined := [
      { name := "I", isInterface := true
        methods := [{ signature := { name := "f" }, isAbstract := true }] },
      { name := "A", interfaces := ["I"], methods := [{ signature := { name := "f" } }] },
      { name := "B", superclass := some "A" }] }

end Devirtualizing

/-- A body that makes one call, on its only argument. -/
def Body.singleCall (method : MethodRef) (kind : DispatchKind) (called : MethodRef)
    (type : StaticType) (dynamic : Option ReferenceType := none) : Body :=
  { method
    blocks := [{ instructions := [⟨0⟩, ⟨1⟩, ⟨2⟩] }]
    instructions := [⟨⟨0⟩, .argument ⟨0⟩ 0⟩,
      ⟨⟨0⟩, .call { kind, method := called, arguments := [⟨0⟩] }⟩, ⟨⟨0⟩, .ret none⟩]
    values := [{ type, dynamic, definition := .instruction ⟨0⟩, users := .ofList [⟨1⟩] }] }

/-- Before a body of one block is devirtualized. -/
def Devirtualization.State.initial (h : Hierarchy) (c : Body) : Devirtualization.State h :=
  { body := c
    resolver := ∅
    tree := { entry := ⟨0⟩, version := 0, parents := [], numbering := [(⟨0⟩, ⟨0, 1⟩)] } }

end Devirt
