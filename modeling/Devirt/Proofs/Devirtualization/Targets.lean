import Devirt.Proofs.Devirtualization.SuperCalls
import Devirt.Proofs.Devirtualization.Validity

/-!
What calls name. Of all steps of a visit only a new target changes what a call names, and every
target, whatever the reason for it, is declared by a class and accessible to the calling class.
-/

namespace Devirt

/-- How a call dispatches, and the method it names. -/
def Call.target (call : Call) : DispatchKind × MethodRef := (call.kind, call.method)

/-- The number of calls of the kind that have been given a target. -/
def CallStats.ofKind (s : CallStats) : DispatchKind → Nat
  | .super => s.superToVirtual
  | .virtual => s.specialized
  | .interface => s.interfaceToVirtual

theorem CallStats.ofKind_turned (s : CallStats) (kind kind' : DispatchKind) :
    (s.turned kind).ofKind kind' = s.ofKind kind' + if kind' = kind then 1 else 0 := by
  cases kind <;> cases kind' <;> rfl

/-- A class declares the method itself, and the declaration is accessible from the context. -/
def Hierarchy.Nameable (h : Hierarchy) (context : TypeName) (m : MethodRef) : Prop :=
  ∃ d, h.declaration? m = some d ∧ d.holder.isInterface = false ∧
    h.declarationAccessible d context = true

namespace Hierarchy

variable {h : Hierarchy} {kind : DispatchKind} {m t : MethodRef} {receiver : StaticType}
  {context : TypeName} {s : Signature} {d : Declaration}

theorem Declares.nameable (hd : h.Declares s d) (hclass : d.holder.isInterface = false)
    (haccess : h.declarationAccessible d context = true) :
    h.Nameable context d.ref ∧ d.ref.signature = s := by
  refine ⟨⟨d, hd.declaration?, hclass, haccess⟩, ?_⟩
  rw [hd.ref]

/-- An answer is accessible, and only to an interface call it may be declared by an interface. -/
theorem nameable_of_resolved (ht : h.resolved kind m receiver context = .single t)
    (hclass : kind = .interface → h.isClass t.holder = true) :
    h.Nameable context t ∧ t.signature = m.signature := by
  obtain ⟨_, -, -, hanswer⟩ := resolved_eq_single ht
  obtain ⟨r, d, hr, hselect, hinterface, haccess, rfl⟩ := answer_eq_single hanswer
  have hd : h.Declares m.signature d := declares_of_select (declares_of_find? hr) rfl hselect
  apply hd.nameable _ haccess
  cases hi : d.holder.isInterface with
  | false => rfl
  | true =>
    have hholder := hclass (hinterface hi)
    rw [hd.ref, isClass, hd.holder, Option.any_some, hi] at hholder
    exact absurd hholder (by decide)

end Hierarchy

namespace Body

variable {h : Hierarchy} {c d : Body} {i j : InstrId} {call : Call} {target : MethodRef}
  {old new : ValueId} {t : DispatchKind × MethodRef}

/-- Every reason for a target makes it accessible. -/
theorem Retargets.nameable (ht : c.Retargets h call target) :
    h.Nameable c.context target ∧ target.signature = call.method.signature := by
  cases ht with
  | super _ _ _ hsuper _ => exact h.nameable_of_resolved hsuper fun hkind => nomatch hkind
  | interface _ _ _ hsole hclass _ => exact h.nameable_of_resolved hsole fun _ => hclass
  | specialize _ _ _ htarget =>
    obtain ⟨_, _, f, -, -, hfound, -, hdispatch, hclass, rfl, -⟩ :=
      Devirtualizing.moreSpecific?_eq_some htarget
    rw [Hierarchy.dispatchable, Bool.and_eq_true] at hdispatch
    exact (h.declares_of_findOnClass? hfound).nameable hclass hdispatch.2

/-- No reason leads back to what the call names. -/
theorem Retargets.target_ne (ht : c.Retargets h call target) :
    call.target ≠ (.virtual, target) := by
  intro htarget
  obtain ⟨hkind, hmethod⟩ := Prod.mk.inj htarget
  cases ht with
  | super hkind' => simp [hkind] at hkind'
  | interface hkind' => simp [hkind] at hkind'
  | specialize _ _ _ htarget =>
    obtain ⟨_, _, _, -, -, -, -, -, -, -, hne⟩ := Devirtualizing.moreSpecific?_eq_some htarget
    exact hne hmethod.symm

/-- What the instruction names, if it is a call. -/
def target? (c : Body) (i : InstrId) : Option (DispatchKind × MethodRef) :=
  ((c.operation i).toOption.bind Operation.call?).map Call.target

theorem target?_eq_some :
    c.target? i = some t ↔ ∃ call, c.operation i = .ok (.call call) ∧ call.target = t := by
  unfold target?
  cases c.operation i <;> simp [Except.toOption, Operation.call?_eq_some]

theorem target?_eq (hop : c.operation i = .ok (.call call)) : c.target? i = some call.target :=
  target?_eq_some.2 ⟨call, hop, rfl⟩

theorem Grows.target? (hcd : c.Grows d) : d.target? i = c.target? i := by
  apply Option.ext
  intro t
  rw [target?_eq_some, target?_eq_some]
  constructor
  · intro ⟨call, hop, ht⟩
    rcases hcd.added i _ hop with hop | hnone
    · exact ⟨call, hop, ht⟩
    · simp [Operation.call?] at hnone
  · intro ⟨call, hop, ht⟩
    exact ⟨call, hcd.operation i _ hop, ht⟩

theorem Rereads.target? (hcd : c.Rereads old new d) : d.target? i = c.target? i := by
  apply Option.ext
  intro t
  rw [target?_eq_some, target?_eq_some]
  constructor
  · intro ⟨call', hop', ht⟩
    obtain ⟨call, f, hop, rfl, -⟩ := hcd.exists_call hop'
    exact ⟨call, hop, ht⟩
  · intro ⟨call, hop, ht⟩
    obtain ⟨f, hf, -⟩ := hcd.operation i
    exact ⟨_, (hf _).2 ⟨_, hop, rfl⟩, ht⟩

theorem Retyped.target? (hcd : Retyped c d) : d.target? i = c.target? i := by
  unfold Body.target?
  rw [hcd.operation]

theorem target?_retargeted (hop : c.operation i = .ok (.call call)) :
    (c.retargeted i call target).target? j =
      if j = i then some (.virtual, target) else c.target? j := by
  split
  · rename_i hj
    subst hj
    exact target?_eq (operation_retargeted hop)
  · rename_i hj
    apply Option.ext
    intro t
    simp only [target?_eq_some, operation_replaced, if_neg hj, exists_eq_right]

end Body

namespace Devirtualizing

open Body

variable {h : Hierarchy} {s s₁ s₂ s' : Devirtualization.State h} {i j : InstrId} {index : Nat}
  {call : Call} {target : MethodRef} {receiver : ValueId} {holder : TypeName} {options : Options}
  {moved : Moved}

theorem target?_castReceiver
    (hrun : (castReceiver i index receiver holder).run s = .ok (moved, s')) :
    s'.body.target? j = s.body.target? j ∧ s'.body.context = s.body.context := by
  rcases run_castReceiver hrun with ⟨rfl, -⟩ | ⟨cast, hreads, -⟩
  · exact ⟨rfl, rfl⟩
  · refine ⟨?_, congrArg MethodRef.holder hreads.method⟩
    obtain ⟨hadds, hfirst, hspread, -, -⟩ := hreads
    rw [hspread.target?, (rereads_redirectOperand hfirst).target?, Grows.target? hadds.body]

/-- Making the receiver fit is no change of a target, and is not counted as one. -/
theorem stats_castReceiver
    (hrun : (castReceiver i index receiver holder).run s = .ok (moved, s')) :
    s'.stats.ofKind = s.stats.ofKind := by
  rcases castReceiver_cases hrun with ⟨rfl, -⟩ | ⟨_, _, -, -, -, -, -, hstats⟩ |
    ⟨x, k, v, s₁, s₂, _, -, hplace, -, -, hstats₂, -, hspread⟩
  · rfl
  · rw [hstats]
    rfl
  · obtain ⟨s₃, b, c, stats, hnew, -, hroom, -, -, -, hstats₁⟩ := placeCast_cases hplace
    obtain ⟨-, d, rfl, -⟩ := newCastValue_cases hnew
    obtain ⟨-, hstats', -⟩ := spreadCast_cases hspread
    rw [hstats', hstats₂, hstats₁]
    cases hroom <;> rfl

/-- The step has given the instruction, a call, a target it has not named before. All other calls
name what they have named. -/
structure Aims (i : InstrId) (call : Call) (target : MethodRef) (s s' : Devirtualization.State h) :
    Prop where
  operation : s.body.operation i = .ok (.call call)
  nameable : h.Nameable s.body.context target
  signature : target.signature = call.method.signature
  differs : call.target ≠ (.virtual, target)
  target? : ∀ j, s'.body.target? j = if j = i then some (.virtual, target) else s.body.target? j
  context : s'.body.context = s.body.context
  counted : ∀ kind, kind ≠ .virtual →
    s'.stats.ofKind kind = s.stats.ofKind kind + if kind = call.kind then 1 else 0

theorem Turns.aims (ht : Turns i call target s s') (hop : s.body.operation i = .ok (.call call)) :
    Aims i call target s s' where
  operation := hop
  nameable := ht.retargets.nameable.1
  signature := ht.retargets.nameable.2
  differs := ht.retargets.target_ne
  target? j := by rw [ht.body, target?_retargeted hop]
  context := by
    rw [ht.body]
    rfl
  counted kind _ := by rw [ht.stats, CallStats.ofKind_turned]

namespace Aims

variable (ha : Aims i call target s s₁)
include ha

theorem idle (hidle : Idle s₁ s') : Aims i call target s s' :=
  { ha with
    target? := hidle.body ▸ ha.target?
    context := hidle.body ▸ ha.context
    counted := hidle.stats ▸ ha.counted }

/-- A call that does not stay virtual by naming another method may be specialized in the end. -/
theorem specialize (hkind : call.kind ≠ .virtual)
    (hop : ∃ call₁, s₁.body.operation i = .ok (.call call₁) ∧ call₁.target = (.virtual, target))
    (hrun : (specialize options i).run s₁ = .ok ((), s')) :
    ∃ target', Aims i call target' s s' := by
  obtain ⟨call₁, hop₁, htarget⟩ := hop
  obtain ⟨hkind₁, hmethod₁⟩ := Prod.mk.inj htarget
  rcases run_specialize hop₁ hkind₁ hrun with ⟨hidle, -⟩ | ⟨-, target', hturns⟩
  · exact ⟨target, ha.idle hidle⟩
  · have hnext := hturns.aims hop₁
    refine ⟨target', ha.operation, ha.context ▸ hnext.nameable, ?_, ?_, ?_, ?_, ?_⟩
    · rw [hnext.signature, hmethod₁, ha.signature]
    · intro htarget'
      exact hkind (Prod.mk.inj htarget').1
    · intro j
      rw [hnext.target?, ha.target?]
      split <;> rfl
    · rw [hnext.context, ha.context]
    · intro kind hvirtual
      rw [hnext.counted kind hvirtual, hkind₁, if_neg hvirtual, ha.counted kind hvirtual]
      rfl

end Aims

theorem Fits.aims (hfits : Fits i index call target moved s₁ s₂) (ha : Aims i call target s s₁) :
    Aims i call target s s₂ := by
  rcases hfits with ⟨-, -, hidle⟩ | ⟨receiver, s₃, -, hrun, hidle⟩
  · exact ha.idle hidle
  · have hstats := stats_castReceiver hrun
    have hcast : Aims i call target s s₃ :=
      { ha with
        target? := fun j => (target?_castReceiver hrun).1.trans (ha.target? j)
        context := (target?_castReceiver (j := i) hrun).2.trans ha.context
        counted := hstats ▸ ha.counted }
    exact hcast.idle hidle

/-- A visit changes nothing of the body, or what the visited call names. -/
theorem idle_or_aims (hrun : (visit options i index).run s = .ok (moved, s')) :
    Idle s s' ∨ ∃ call target, Aims i call target s s' := by
  cases run_visit hrun with
  | idle hidle => exact .inl hidle
  | special hop _ _ hturns => exact .inr ⟨_, _, hturns.aims hop⟩
  | super hop hkind _ hturns hrun =>
    refine .inr ⟨_, (hturns.aims hop).specialize ?_ ⟨_, hturns.operation hop, rfl⟩ hrun⟩
    simp [hkind]
  | interface hop hkind _ hturns hfits hrun =>
    obtain ⟨arguments, hop'⟩ := hfits.exists_call (hturns.operation hop)
    refine .inr ⟨_, (hfits.aims (hturns.aims hop)).specialize ?_ ⟨_, hop', rfl⟩ hrun⟩
    simp [hkind]

end Devirtualizing

namespace Body

variable {h : Hierarchy} {c : Body} {options : Options} {resolver : Resolver h}
  {run : PassRun h Devirtualized} {s s' : Devirtualization.State h} {i : InstrId} {call : Call}

/-- In the body `d` the instruction names what the call has named in `c`, or it is a virtual call of
a method with the same signature that is accessible. -/
def NamesAccessibly (h : Hierarchy) (c d : Body) (i : InstrId) (call : Call) : Prop :=
  d.target? i = some call.target ∨
    ∃ target, d.target? i = some (.virtual, target) ∧ h.Nameable c.context target ∧
      target.signature = call.method.signature

theorem namesAccessibly_of_aims {j : InstrId} {call' : Call} {target : MethodRef}
    (haims : Devirtualizing.Aims j call' target s s') (hcontext : s.body.context = c.context)
    (hs : NamesAccessibly h c s.body i call) : NamesAccessibly h c s'.body i call := by
  unfold NamesAccessibly
  rw [haims.target?]
  split
  · -- the signature is that of the visited call, which may have been given a target before
    rename_i hij
    subst hij
    refine .inr ⟨target, rfl, hcontext ▸ haims.nameable, ?_⟩
    rw [NamesAccessibly, target?_eq haims.operation] at hs
    rcases hs with hsame | ⟨target', htarget', -, hsignature⟩
    · rw [haims.signature, (Prod.mk.inj (Option.some.inj hsame)).2]
    · rw [haims.signature, (Prod.mk.inj (Option.some.inj htarget')).2, hsignature]
  · exact hs

theorem namesAccessibly_walkCalls (hrun : c.walkCalls options resolver = .ok s)
    (hop : c.operation i = .ok (.call call)) : NamesAccessibly h c s.body i call := by
  have hinv : s.body.context = c.context ∧ NamesAccessibly h c s.body i call := by
    apply walkCalls_invariant (motive := fun s => s.body.context = c.context ∧
      NamesAccessibly h c s.body i call) _ _ hrun
    · intro j index moved s s' ⟨hcontext, hs⟩ hvisit
      rcases Devirtualizing.idle_or_aims hvisit with hidle | ⟨call', target, haims⟩
      · rw [hidle.body]
        exact ⟨hcontext, hs⟩
      · exact ⟨haims.context.trans hcontext, namesAccessibly_of_aims haims hcontext hs⟩
    · intro tree
      exact ⟨rfl, .inl (target?_eq hop)⟩
  exact hinv.2

/-- Every call stays a call, and if it dispatches in another way or names another method than
before, it is a virtual call of a method with the same signature, which a class declares itself
and which is accessible from the class that the code belongs to. -/
theorem accessible_of_devirtualize (hrun : c.devirtualize options resolver = .ok run)
    (hop : c.operation i = .ok (.call call)) :
    ∃ call', run.body.operation i = .ok (.call call') ∧
      (call'.kind = call.kind ∧ call'.method = call.method ∨
        call'.kind = .virtual ∧ call'.method.signature = call.method.signature ∧
          ∃ d, h.declaration? call'.method = some d ∧ d.holder.isInterface = false ∧
            h.memberAccessible d.holder.name d.method.visibility c.context = true) := by
  obtain ⟨s, affected, d, l, hwalk, hsettle, -, rfl⟩ := devirtualize_eq_ok.1 hrun
  have hretyped := retyped_of_settleTypes hsettle
  rcases namesAccessibly_walkCalls hwalk hop with hsame | ⟨target, htarget, hnameable, hsignature⟩
  · rw [← hretyped.target?] at hsame
    obtain ⟨call', hop', hcall'⟩ := target?_eq_some.1 hsame
    exact ⟨call', hop', .inl (Prod.mk.inj hcall')⟩
  · rw [← hretyped.target?] at htarget
    obtain ⟨call', hop', hcall'⟩ := target?_eq_some.1 htarget
    obtain ⟨hkind, rfl⟩ := Prod.mk.inj hcall'
    exact ⟨call', hop', .inr ⟨hkind, hsignature, hnameable⟩⟩

/-- The override that only its package may name becomes the target in a class of the package. -/
theorem accessible_package_override :
    ∃ made c run call', ofSteps (.plain "p.K" "g") [.argument (.ofClass "p.K" .maybe),
        .call ⟨0⟩ .virtual (.plain "q.X" "f") [⟨0⟩], .ret ⟨0⟩ none] = .ok (made, c) ∧
      c.devirtualize {} (∅ : Resolver Devirtualizing.hiddenOverride) = .ok run ∧
      run.body.operation ⟨1⟩ = .ok (.call call') ∧ call'.method = .plain "p.S" "f" ∧
      ∃ d, Devirtualizing.hiddenOverride.declaration? call'.method = some d ∧
        d.method.visibility = .package ∧ d.holder.isInterface = false ∧
        Devirtualizing.hiddenOverride.memberAccessible d.holder.name .package c.context = true := by
  obtain ⟨made, c, hwritten, hop, run, hrun, hop'⟩ :
      ∃ made c, ofSteps (.plain "p.K" "g") [.argument (.ofClass "p.K" .maybe),
          .call ⟨0⟩ .virtual (.plain "q.X" "f") [⟨0⟩], .ret ⟨0⟩ none] = .ok (made, c) ∧
        c.operation ⟨1⟩ = .ok (.call
          { kind := .virtual, method := .plain "q.X" "f", arguments := [⟨0⟩] }) ∧
        ∃ run, c.devirtualize {} (∅ : Resolver Devirtualizing.hiddenOverride) = .ok run ∧
          run.body.operation ⟨1⟩ = .ok (.call
            { kind := .virtual, method := .plain "p.S" "f", arguments := [⟨0⟩] }) := by
    decide +kernel
  obtain ⟨call', hcall', hsame | ⟨-, -, d, hd, hclass, haccess⟩⟩ :=
    accessible_of_devirtualize hrun hop
  · obtain rfl := Operation.call.inj (Except.ok.inj (hop'.symm.trans hcall'))
    exact absurd hsame.2 (by decide)
  · obtain rfl := Operation.call.inj (Except.ok.inj (hop'.symm.trans hcall'))
    have hpackage : ∀ d, Devirtualizing.hiddenOverride.declaration? (.plain "p.S" "f") = some d →
        d.method.visibility = .package := by
      decide +kernel
    rw [hpackage d hd] at haccess
    exact ⟨made, c, run, _, hwritten, hrun, hcall', rfl, d, hd, hpackage d hd, hclass, haccess⟩

end Body

end Devirt
