import Devirt.Devirtualization.Pass
import Devirt.Proofs.Devirtualization.InterfaceCalls
import Devirt.Proofs.Narrowing

/-!
Receivers stay well typed. Whatever call is given another target, its receiver fits the holder of
the target: by the supertypes of the calling class for super calls, by the supertypes of the receiver
for virtual calls, and by a cast for interface calls. Other receivers are replaced, and types are
narrowed, only by types at least as precise.
-/

namespace Devirt

namespace Body

variable {h : Hierarchy} {c d : Body} {i j : InstrId} {call : Call} {name : TypeName}

/-- The receiver of the call, if there is one, is a value whose type fits the class. -/
def ReceiverFits (h : Hierarchy) (c : Body) (call : Call) (name : TypeName) : Prop :=
  ∀ v, call.receiver? = some v → ∃ x, c.value v = .ok x ∧ x.type.fits h name = true

/-- If the instruction is a call, its receiver fits the holder of the method, and in a super call
the calling class as well. -/
def TypedAt (h : Hierarchy) (c : Body) (i : InstrId) : Prop :=
  ∀ call, c.operation i = .ok (.call call) →
    c.ReceiverFits h call call.method.holder ∧
      (call.kind = .super → c.ReceiverFits h call c.context)

/-- Every receiver fits the holder of the method called on it. -/
def WellTyped (h : Hierarchy) (c : Body) : Prop :=
  ∀ i call, c.operation i = .ok (.call call) → c.ReceiverFits h call call.method.holder

/-- Every receiver of a super call fits the calling class. -/
def SupersWellTyped (h : Hierarchy) (c : Body) : Prop :=
  ∀ i call, c.operation i = .ok (.call call) → call.kind = .super →
    c.ReceiverFits h call c.context

theorem ReceiverFits.of_isSubtype (hroot : h.class? rootType = some Class.root)
    (hfits : c.ReceiverFits h call name) {name' : TypeName}
    (hsub : h.isSubtype name name' = true) : c.ReceiverFits h call name' := by
  intro v hv
  obtain ⟨x, hx, hfits⟩ := hfits v hv
  exact ⟨x, hx, StaticType.fits_of_isSubtype hroot hsub hfits⟩

/-- Values of types at least as precise serve as well. -/
theorem ReceiverFits.of_values (hroot : h.class? rootType = some Class.root)
    (hfits : c.ReceiverFits h call name) {f : ValueId → ValueId}
    (hvalue : ∀ v x, c.value v = .ok x → ∃ y, d.value (f v) = .ok y ∧ y.type.le h x.type = true) :
    d.ReceiverFits h { call with arguments := call.arguments.map f } name := by
  intro v hv
  simp only [Call.receiver?, List.head?_map, Option.map_eq_some_iff] at hv
  obtain ⟨u, hu, rfl⟩ := hv
  obtain ⟨x, hx, hfits⟩ := hfits u hu
  obtain ⟨y, hy, hle⟩ := hvalue u x hx
  exact ⟨y, hy, StaticType.fits_of_le hroot hle hfits⟩

/-- A call that comes from a well-typed one, with values of types at least as precise in the place of
its arguments, is well typed. -/
theorem TypedAt.of_call (hroot : h.class? rootType = some Class.root) (hc : c.TypedAt h i)
    (hmethod : d.method = c.method)
    (hcall : ∀ call', d.operation i = .ok (.call call') → ∃ call f,
      c.operation i = .ok (.call call) ∧
      call' = { call with arguments := call.arguments.map f } ∧
      ∀ v x, c.value v = .ok x → ∃ y, d.value (f v) = .ok y ∧ y.type.le h x.type = true) :
    d.TypedAt h i := by
  intro call' hcall'
  obtain ⟨call, f, hop, rfl, hvalue⟩ := hcall call' hcall'
  obtain ⟨hfits, hsuper⟩ := hc call hop
  refine ⟨hfits.of_values hroot hvalue, fun hkind => ?_⟩
  rw [Body.context, hmethod]
  exact (hsuper hkind).of_values hroot hvalue

/-- Giving a call another target concerns no other instruction. -/
theorem TypedAt.retargeted (hc : c.TypedAt h j) (hij : j ≠ i) {target : MethodRef} :
    (c.retargeted i call target).TypedAt h j := by
  intro call' hcall'
  obtain ⟨op, hop, heq⟩ := operation_replaced.1 hcall'
  rw [if_neg hij] at heq
  obtain ⟨hfits, hsuper⟩ := hc call' (heq ▸ hop)
  have hkeep : ∀ name, c.ReceiverFits h call' name →
      (c.retargeted i call target).ReceiverFits h call' name := by
    intro name hfits v hv
    obtain ⟨x, hx, hfits⟩ := hfits v hv
    exact ⟨_, value_replaced.2 ⟨x, hx, rfl⟩, hfits⟩
  exact ⟨hkeep _ hfits, fun hkind => hkeep _ (hsuper hkind)⟩

/-- The new target fits as soon as its holder does. -/
theorem typedAt_retargeted (hop : c.operation i = .ok (.call call)) {target : MethodRef}
    (hfits : c.ReceiverFits h call target.holder) : (c.retargeted i call target).TypedAt h i := by
  intro call' hcall'
  obtain rfl := Operation.call.inj (Except.ok.inj (hcall'.symm.trans (operation_retargeted hop)))
  refine ⟨fun v hv => ?_, by simp⟩
  obtain ⟨x, hx, hfits⟩ := hfits v hv
  exact ⟨_, value_replaced.2 ⟨x, hx, rfl⟩, hfits⟩

/-- The targets of super and virtual calls are declared above the type the receiver is known to
have. -/
theorem Retargets.receiverFits (hroot : h.class? rootType = some Class.root) {target : MethodRef}
    (ht : Retargets h c call target) (hkind : call.kind ≠ .interface) (hc : c.TypedAt h i)
    (hop : c.operation i = .ok (.call call)) : c.ReceiverFits h call target.holder := by
  cases ht with
  | super hkind _ _ hsuper _ =>
    obtain ⟨_, -, -, hanswer⟩ := h.resolved_eq_single hsuper
    obtain ⟨_, d, -, hselect, -, -, rfl⟩ := h.answer_eq_single hanswer
    exact ((hc call hop).2 hkind).of_isSubtype hroot
      (h.isSubtype_of_reaches (h.reaches_of_dispatchSuper hselect))
  | specialize _ hr hy htarget =>
    obtain ⟨c', r, f, htype, -, hfound, -, -, -, rfl, -⟩ :=
      Devirtualizing.moreSpecific?_eq_some htarget
    intro v hv
    obtain rfl := Option.some.inj (hv.symm.trans hr)
    refine ⟨_, hy, ?_⟩
    rw [htype]
    exact StaticType.fits_reference.2 (h.isSubtype_of_reaches (h.reaches_of_findOnClass? hfound))
  | interface hinterface => exact absurd hinterface hkind

end Body

namespace Devirtualizing

open Body

variable {h : Hierarchy} {s s' : Devirtualization.State h} {i : InstrId} {index : Nat} {call : Call}
  {target : MethodRef} {receiver : ValueId} {holder : TypeName} {options : Options} {moved : Moved}

/-- Every kept cast fits the class it is kept for. -/
def CastsFit (s : Devirtualization.State h) : Prop :=
  ∀ e ∈ s.casts, ∃ y, s.body.value e.2 = .ok y ∧ y.type.fits h e.1.2 = true

/-- All calls are well typed, and all kept casts fit. -/
structure Typed (s : Devirtualization.State h) : Prop where
  calls : ∀ i, s.body.TypedAt h i
  casts : CastsFit s

theorem CastsFit.turns (hs : CastsFit s) (ht : Turns i call target s s') : CastsFit s' := by
  intro e he
  obtain ⟨y, hy, hfits⟩ := hs e (ht.casts ▸ he)
  rw [ht.body]
  exact ⟨_, value_replaced.2 ⟨y, hy, rfl⟩, hfits⟩

theorem Typed.idle (hs : Typed s) (hidle : Idle s s') : Typed s' where
  calls := hidle.body ▸ hs.calls
  casts e he := by
    rw [hidle.body]
    exact hs.casts e (hidle.casts ▸ he)

theorem Typed.turns (hroot : h.class? rootType = some Class.root) (hs : Typed s)
    (ht : Turns i call target s s') (hkind : call.kind ≠ .interface)
    (hop : s.body.operation i = .ok (.call call)) : Typed s' where
  calls j := by
    rw [ht.body]
    by_cases hj : j = i
    · subst hj
      exact typedAt_retargeted hop (ht.retargets.receiverFits hroot hkind (hs.calls j) hop)
    · exact (hs.calls j).retargeted hj
  casts := hs.casts.turns ht

theorem Typed.specialize (hroot : h.class? rootType = some Class.root) (hs : Typed s) {u : Unit}
    (hop : s.body.operation i = .ok (.call call)) (hkind : call.kind = .virtual)
    (hrun : (specialize options i).run s = .ok (u, s')) : Typed s' := by
  rcases run_specialize hop hkind hrun with ⟨hidle, -⟩ | ⟨-, target, hturns⟩
  · exact hs.idle hidle
  · exact hs.turns hroot hturns (by simp [hkind]) hop

/-- Other calls are let read the cast only if its type is at least as precise. -/
theorem ReadsCast.typedAt (hroot : h.class? rootType = some Class.root) {cast : ValueId} {j : InstrId}
    (hr : ReadsCast i receiver cast s s') (hj : j ≠ i) (hs : s.body.TypedAt h j) :
    s'.body.TypedAt h j := by
  have hkeep : ∀ v x, s.body.value v = .ok x →
      ∃ y, s'.body.value v = .ok y ∧ y.type.le h x.type = true := by
    intro v x hx
    obtain ⟨y, hy, hknown⟩ := hr.value hx
    exact ⟨y, hy, by rw [hknown.1]; exact StaticType.le_refl h _⟩
  refine hs.of_call hroot hr.method fun call' hop => ?_
  obtain ⟨hadds, hreads, -, hsame | ⟨x, y, hx, hy, hle⟩, -⟩ := id hr
  · rw [hsame, operation_redirectOperand_of_ne hj hreads] at hop
    rcases hadds.body.added j _ hop with hop | hnone
    · exact ⟨call', fun v => v, hop, by simp, hkeep⟩
    · simp [Operation.call?] at hnone
  · obtain ⟨call, f, hop₀, rfl, hread⟩ := hr.exists_call hop
    refine ⟨call, f, hop₀, rfl, fun v z hz => ?_⟩
    rcases hread v with hv | ⟨rfl, hv⟩
    · rw [hv]
      exact hkeep v z hz
    · obtain ⟨x', hx', hknown⟩ := hr.value hz
      obtain rfl := Except.ok.inj (hx.symm.trans hx')
      exact ⟨y, hv ▸ hy, hknown.1 ▸ hle⟩

/-- Whatever the receiver is made to be, it fits the holder. -/
theorem receiverFits_castReceiver (hs : CastsFit s)
    (hop : s.body.operation i = .ok (.call call)) (hr : call.receiver? = some receiver)
    (hrun : (castReceiver i index receiver holder).run s = .ok (moved, s')) :
    CastsFit s' ∧ ∃ arguments, s'.body.operation i = .ok (.call { call with arguments }) ∧
      s'.body.ReceiverFits h { call with arguments } holder := by
  rcases run_castReceiver hrun with ⟨rfl, x, hx, hfits⟩ | ⟨cast, hreads, hcast⟩
  · refine ⟨hs, call.arguments, hop, fun v hv => ?_⟩
    obtain rfl := Option.some.inj (hr.symm.trans hv)
    exact ⟨x, hx, hfits⟩
  · have hkept : ∀ e ∈ s.casts, ∃ y, s'.body.value e.2 = .ok y ∧ y.type.fits h e.1.2 = true := by
      intro e he
      obtain ⟨y, hy, hfits⟩ := hs e he
      obtain ⟨z, hz, hyz⟩ := hreads.value hy
      exact ⟨z, hz, by rwa [hyz.1]⟩
    have hfits : ∃ y, s'.body.value cast = .ok y ∧ y.type.fits h holder = true := by
      rcases hcast with ⟨hmem, -⟩ | ⟨-, -, hfits⟩
      · exact hkept _ hmem
      · exact hfits
    refine ⟨fun e he => ?_, ?_⟩
    · rcases hcast with ⟨-, hcasts⟩ | ⟨hcasts, -⟩
      · exact hkept e (hcasts ▸ he)
      · rw [hcasts, List.mem_cons] at he
        rcases he with rfl | he
        · exact hfits
        · exact hkept e he
    · obtain ⟨arguments, hop', hhead⟩ := hreads.exists_receiver hop hr
      refine ⟨arguments, hop', fun v hv => ?_⟩
      obtain rfl := Option.some.inj (hhead.symm.trans hv)
      exact hfits

/-- Making the receiver fit makes the call of the new target well typed. -/
theorem Typed.fits (hroot : h.class? rootType = some Class.root) {s₁ : Devirtualization.State h}
    (hs : Typed s) (hop : s.body.operation i = .ok (.call call)) (hturns : Turns i call target s s₁)
    (hfits : Fits i index call target moved s₁ s') : Typed s' := by
  have hop₁ := hturns.operation hop
  have hothers : ∀ j, j ≠ i → s₁.body.TypedAt h j := fun j hj => by
    rw [hturns.body]
    exact (hs.calls j).retargeted hj
  rcases hfits with ⟨hholder, -, hidle⟩ | ⟨receiver, s₂, hr, hrun, hidle⟩
  · refine Typed.idle ⟨fun j => ?_, hs.casts.turns hturns⟩ hidle
    by_cases hj : j = i
    · subst hj
      rw [hturns.body]
      exact typedAt_retargeted hop (hholder ▸ (hs.calls j call hop).1)
    · exact hothers j hj
  · obtain ⟨hcasts, arguments, hop₂, hreceiver⟩ :=
      receiverFits_castReceiver (hs.casts.turns hturns) hop₁ hr hrun
    refine Typed.idle ⟨fun j => ?_, hcasts⟩ hidle
    by_cases hj : j = i
    · subst hj
      intro call' hcall'
      obtain rfl := Operation.call.inj (Except.ok.inj (hcall'.symm.trans hop₂))
      exact ⟨hreceiver, by simp⟩
    · rcases run_castReceiver hrun with ⟨rfl, -⟩ | ⟨cast, hreads, -⟩
      · exact hothers j hj
      · exact hreads.typedAt hroot hj (hothers j hj)

/-- A visit keeps all calls well typed. -/
theorem Typed.visit (hroot : h.class? rootType = some Class.root) (hs : Typed s)
    (hrun : (visit options i index).run s = .ok (moved, s')) : Typed s' := by
  cases run_visit hrun with
  | idle hidle _ => exact hs.idle hidle
  | special hop hkind _ hturns => exact hs.turns hroot hturns (by simp [hkind]) hop
  | super hop hkind _ hturns hrun =>
    exact (hs.turns hroot hturns (by simp [hkind]) hop).specialize hroot
      (hturns.operation hop) rfl hrun
  | interface hop _ _ hturns hfits hrun =>
    obtain ⟨arguments, hop₁⟩ := hfits.exists_call (hturns.operation hop)
    exact (hs.fits hroot hop hturns hfits).specialize hroot hop₁ rfl hrun

end Devirtualizing

namespace Body

variable {h : Hierarchy} {c d : Body} {i : InstrId} {options : Options}

/-- The same instructions are well typed on values of types at least as precise. -/
theorem TypedAt.of_values (hroot : h.class? rootType = some Class.root) (hc : c.TypedAt h i)
    (hop : d.operation i = c.operation i) (hmethod : d.method = c.method)
    (hvalue : ∀ v x, c.value v = .ok x → ∃ y, d.value v = .ok y ∧ y.type.le h x.type = true) :
    d.TypedAt h i :=
  hc.of_call hroot hmethod fun call hcall =>
    ⟨call, fun v => v, hop ▸ hcall, by simp, hvalue⟩

end Body

namespace Narrowing

variable {h : Hierarchy} {s s' : Narrowing} {v : ValueId} {i : InstrId}

/-- Narrowing makes types more precise, so receivers go on fitting. -/
theorem typedAt_visit (hroot : h.class? rootType = some Class.root) (hs : s.body.TypedAt h i)
    (hrun : s.visit h v = .ok s') : s'.body.TypedAt h i := by
  rcases visit_cases hrun with rfl | ⟨x, type, d, readers, hx, -, -, hle, hset, -, rfl⟩
  · exact hs
  · obtain ⟨-, rfl⟩ := Body.modifyValue_eq_ok.1 hset
    refine hs.of_values hroot rfl rfl fun w y hy => ⟨_, Body.value_updateValues.2 ⟨y, hy, rfl⟩, ?_⟩
    split
    · rename_i hw
      obtain rfl := Except.ok.inj ((hw ▸ hy).symm.trans hx)
      exact hle
    · exact StaticType.le_refl h _

end Narrowing

namespace Body

variable {h : Hierarchy} {c : Body} {options : Options}

/-- As long as nothing stands above the root, devirtualization leaves every receiver well typed:
with respect to the holder of whatever method is now called on it, and with whatever value and type
the receiver now has. -/
theorem wellTyped_of_devirtualize (hroot : h.class? rootType = some Class.root) (hc : c.WellTyped h)
    (hsupers : c.SupersWellTyped h) {resolver : Resolver h} {run : PassRun h Devirtualized}
    (hrun : c.devirtualize options resolver = .ok run) : run.body.WellTyped h := by
  simp only [Body.devirtualize, bind_eq_ok, pure_eq_ok, Except.ok.injEq, Prod.exists] at hrun
  obtain ⟨s, hwalk, affected, d, hsettle, violations, -, rfl⟩ := hrun
  have hs : Devirtualizing.Typed s := walkCalls_invariant (fun hs => hs.visit hroot)
    (fun tree => ⟨fun i call hop => ⟨hc i call hop, hsupers i call hop⟩,
      by simp [Devirtualizing.CastsFit]⟩) hwalk
  have hd : ∀ i, d.TypedAt h i := by
    intro i
    simp only [settleTypes] at hsettle
    split at hsettle
    · simp only [narrow, bind_eq_ok, pure_eq_ok, Except.ok.injEq, Prod.mk.injEq,
        Prod.exists] at hsettle
      obtain ⟨narrowed, d', ⟨s', hnarrow, -, rfl⟩, -, rfl⟩ := hsettle
      exact Narrowing.run_invariant (motive := (·.TypedAt h i))
        (fun _ _ _ => Narrowing.typedAt_visit hroot) (hs.calls i) hnarrow
    · simp only [pure_eq_ok, Except.ok.injEq, Prod.mk.injEq] at hsettle
      rw [← hsettle.2]
      exact hs.calls i
  exact fun i call hop => (hd i call hop).1

theorem operation_singleCall {method called : MethodRef} {kind : DispatchKind} {type : StaticType}
    {dynamic : Option ReferenceType} {i : InstrId} {call : Call}
    (hop : (singleCall method kind called type dynamic).operation i = .ok (.call call)) :
    call = { kind, method := called, arguments := [⟨0⟩] } := by
  rw [operation_eq_ok] at hop
  obtain ⟨x, hx, hop⟩ := hop
  rw [instruction_eq_ok] at hx
  have hmem : x ∈ (singleCall method kind called type dynamic).instructions :=
    List.mem_of_getElem? hx
  simp only [singleCall, List.mem_cons, List.not_mem_nil, or_false] at hmem
  rcases hmem with rfl | rfl | rfl
  · exact Operation.noConfusion hop
  · exact (Operation.call.inj hop).symm
  · exact Operation.noConfusion hop

/-- The receiver of an interface call fits the class that the call names in the end. -/
theorem wellTyped_implementedOnce :
    ∃ run, (singleCall (.plain "B" "g") .interface (.plain "I" "f") (.ofClass "I" .maybe)
        (some { name := "A" })).devirtualize {} (∅ : Resolver Devirtualizing.implementedOnce) =
          .ok run ∧
      run.body.call? ⟨1⟩ = .ok (some
        { kind := .virtual, method := .plain "A" "f", arguments := [⟨1⟩] }) ∧
      run.body.WellTyped Devirtualizing.implementedOnce := by
  obtain ⟨run, hrun, hcall⟩ : ∃ run, (singleCall (.plain "B" "g") .interface (.plain "I" "f")
      (.ofClass "I" .maybe) (some { name := "A" })).devirtualize {}
        (∅ : Resolver Devirtualizing.implementedOnce) = .ok run ∧ run.body.call? ⟨1⟩ = .ok (some
          { kind := .virtual, method := .plain "A" "f", arguments := [⟨1⟩] }) := by
    decide +kernel
  refine ⟨run, hrun, hcall, ?_⟩
  refine wellTyped_of_devirtualize (by decide +kernel) (fun i call hop v hv => ?_)
    (fun i call hop hkind => ?_) hrun
  · obtain rfl := operation_singleCall hop
    obtain rfl := Option.some.inj hv
    exact ⟨_, rfl, by decide +kernel⟩
  · obtain rfl := operation_singleCall hop
    exact DispatchKind.noConfusion hkind

end Body

end Devirt
