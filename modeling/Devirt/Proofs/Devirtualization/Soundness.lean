import Devirt.Proofs.Devirtualization.State
import Devirt.Proofs.Devirtualization.SuperCalls

/-!
Why the edits of devirtualization are sound, as long as no method is a package member. On the objects
that the receiver of a call may be, the call selects what the original one selected, and an object
that has passed the casts a receiver has been made by passes the next one.
-/

namespace Devirt

open Relation

/-! ### Selection without package members -/

private theorem findSome?_eq_findSome? {α β : Type} {f g : α → Option β} {l : List α}
    (hfg : ∀ a ∈ l, f a = g a) : l.findSome? f = l.findSome? g := by
  induction l with
  | nil => rfl
  | cons a l ih =>
    rw [List.findSome?_cons, List.findSome?_cons, hfg a List.mem_cons_self,
      ih fun b hb => hfg b (List.mem_cons_of_mem a hb)]

namespace Hierarchy

variable {h : Hierarchy} {m m' t : MethodRef} {C K : TypeName}

/-- No method is a package member. -/
def NoPackageMembers (h : Hierarchy) : Prop :=
  ∀ c ∈ h.classes, ∀ m ∈ c.methods, m.visibility ≠ .package

instance decidableNoPackageMembers (h : Hierarchy) : Decidable h.NoPackageMembers :=
  inferInstanceAs (Decidable (∀ c ∈ h.classes, ∀ m ∈ c.methods, _))

theorem NoPackageMembers.of_declares (hp : h.NoPackageMembers) {s : Signature} {d : Declaration}
    (hd : h.Declares s d) : d.method.visibility ≠ .package :=
  hp d.holder (mem_classes_of_class? hd.holder) d.method (List.mem_of_find?_eq_some hd.method)

/-- Without package members it does not matter which type a call names. -/
theorem NoPackageMembers.selectFrom_eq_ok (hp : h.NoPackageMembers)
    (hs : m'.signature = m.signature) (hok : h.selectFrom C m = .ok t) :
    h.selectFrom C m' = .ok t := by
  have hfound : (h.superclasses C).findSome? (fun c =>
        ((c.declared? m'.signature).filter (h.answersCall c · m')).map (Declaration.mk c)) =
      (h.superclasses C).findSome? fun c =>
        ((c.declared? m.signature).filter (h.answersCall c · m)).map (Declaration.mk c) := by
    apply findSome?_eq_findSome?
    intro c hc
    rw [hs]
    cases hx : c.declared? m.signature with
    | none => rfl
    | some x =>
      have hd : h.Declares m.signature ⟨c, x⟩ := ⟨class?_of_mem_superclasses hc, hx⟩
      have hvis := hp.of_declares hd
      simp [Option.filter, answersCall, hvis]
  simp only [selectFrom, hfound] at hok ⊢
  split at hok
  · split at hok
    · cases hok
    · rename_i habstract
      simpa [habstract] using hok
  · simp only [selectDefault, hs] at hok ⊢
    split at hok
    · split at hok
      · rename_i hlength
        simpa [hlength, MethodRef.withHolder, hs] using hok
      · cases hok
    · cases hok
    · cases hok

end Hierarchy

/-! ### What is known of objects -/

namespace Value

variable {h : Hierarchy} {x y : Value} {C : TypeName}

/-- The class is one of those that the value is known to hold objects of. -/
structure Conforms (h : Hierarchy) (x : Value) (C : TypeName) : Prop where
  type : ∀ r, x.type = .reference r → r.Admits h C
  dynamic : ∀ r, x.dynamic = some r → r.Admits h C

instance decidableForallReference (t : StaticType) (P : ReferenceType → Prop) [DecidablePred P] :
    Decidable (∀ r, t = .reference r → P r) :=
  match t with
  | .reference r => decidable_of_iff (P r) (by simp)
  | .bottom | .primitive _ | .null | .top => isTrue (by simp)

instance decidableConforms (h : Hierarchy) (x : Value) (C : TypeName) :
    Decidable (x.Conforms h C) :=
  decidable_of_iff
    ((∀ r, x.type = .reference r → r.Admits h C) ∧ ∀ r ∈ x.dynamic, r.Admits h C)
    ⟨fun hx => ⟨hx.1, hx.2⟩, fun hx => ⟨hx.type, hx.dynamic⟩⟩

theorem Conforms.congr (hx : x.Conforms h C) (hxy : y.SameKnown x) : y.Conforms h C := by
  constructor
  · intro r hr
    exact hx.type r (hxy.1.symm.trans hr)
  · intro r hr
    exact hx.dynamic r (hxy.2.symm.trans hr)

theorem Conforms.bestType {r : ReferenceType} (hx : x.Conforms h C)
    (hr : x.bestType = .reference r) : x.bestType.Admits h C := by
  refine ⟨r, hr, ?_⟩
  unfold Value.bestType at hr
  split at hr
  · rename_i r' hdynamic
    obtain rfl := StaticType.reference.inj hr
    exact hx.dynamic r' hdynamic
  · exact hx.type r hr

end Value

namespace Body

variable {h : Hierarchy} {c₀ c d : Body} {b : BlockId} {i k : InstrId} {u v w r : ValueId}
  {y z : Value} {C name : TypeName} {call call' : Call} {target t : MethodRef} {index : Nat}
  {x : Block} {kind : DispatchKind}

/-! ### Retargeted calls -/

/-- On an object that the receiver is known to hold, the only target is what dispatch finds. -/
theorem exists_dispatchFrom_of_resolved {m : MethodRef} {context : TypeName} (hd : h.DefinedOnce)
    (hkind : kind ≠ .super) (hC : h.isInstantiated C = true) (hconforms : z.Conforms h C)
    (ht : h.resolved kind m z.bestType context = .single target) :
    ∃ r d, h.find? m = some r ∧ h.dispatchFrom C r = .single d ∧ d.ref = target := by
  obtain ⟨_, hbest, -, -⟩ := h.resolved_eq_single ht
  obtain ⟨r, d, hr, hdispatch, href, -, -⟩ :=
    hd.exists_dispatchFrom hkind ht (hconforms.bestType hbest) hC
  exact ⟨r, d, hr, hdispatch, href⟩

/-- A call with a new target selects what it selected before, on every object that its receiver is
known to hold. -/
theorem Retargets.selectTarget_eq_ok (ha : h.Acyclic) (hd : h.DefinedOnce)
    (hn : h.ImplementsNoClass) (hp : h.NoPackageMembers) (ht : c.Retargets h call target)
    (hr : call.receiver? = some r) (hy : c.value r = .ok y) (hC : h.isInstantiated C = true)
    (hconforms : y.Conforms h C) {arguments : List RuntimeValue}
    (hok : h.selectTarget c.context call.kind call.method (.object C :: arguments) = .ok t) :
    h.selectTarget c.context .virtual target (.object C :: arguments) = .ok t := by
  cases hkind : call.kind with
  | super =>
    obtain ⟨hsuper, hvirtual⟩ := ht.of_super hkind hr hy
    obtain ⟨_, hbest, -, -⟩ := h.resolved_eq_single hvirtual
    obtain ⟨r, d, hr, hd, hiff⟩ := h.selectTarget_super_eq_iff ha hd hn hsuper hvirtual
      (hconforms.bestType hbest) hC arguments
    rw [hkind] at hok
    rw [← hok, eq_comm, hiff]
    constructor
    · intro hvis
      exact absurd hvis (hp.of_declares (h.declares_of_find? hd))
    · intro hvis
      exact absurd hvis (hp.of_declares (h.declares_of_find? hr))
  | virtual =>
    have htarget := ht.of_virtual hkind hr hy
    obtain ⟨_, _, f, -, -, hf, -, -, -, rfl, -⟩ := Devirtualizing.moreSpecific?_eq_some htarget
    rw [hkind] at hok
    exact hp.selectFrom_eq_ok (h.declares_of_findOnClass? hf).signature hok
  | interface =>
    obtain ⟨hsole, -, -⟩ := ht.of_interface hkind hr hy
    obtain ⟨r, d, hr, hdispatch, rfl⟩ :=
      exists_dispatchFrom_of_resolved hd (by simp) hC hconforms hsole
    have hdecl := h.declares_of_dispatchFrom (h.declares_of_find? hr).signature hdispatch
    rw [hkind] at hok
    exact hp.selectFrom_eq_ok hdecl.1.signature hok

/-- An object that the receiver is known to hold passes a cast to the holder of the only target. -/
theorem isSubtype_of_resolved {m : MethodRef} {context : TypeName} (hd : h.DefinedOnce)
    (hC : h.isInstantiated C = true) (hconforms : z.Conforms h C)
    (ht : h.resolved .interface m z.bestType context = .single target) :
    h.isSubtype C target.holder = true := by
  obtain ⟨r, d, hr, hdispatch, rfl⟩ :=
    exists_dispatchFrom_of_resolved hd (by simp) hC hconforms ht
  exact h.isSubtype_of_reaches (h.reaches_of_dispatchFrom (h.declares_of_find? hr) hdispatch)

/-! ### Objects that have passed casts -/

/-- Objects of the class pass the new casts by which the value `u` has been made from the old value
`w`. -/
inductive Passes (h : Hierarchy) (c₀ c : Body) (C : TypeName) : ValueId → ValueId → Prop
  | old {w : ValueId} (hw : c₀.HasValue w) : Passes h c₀ c C w w
  | cast {k : InstrId} {u r w : ValueId} {name : TypeName} (hk : ¬ c₀.HasInstruction k)
      (hop : c.operation k = .ok (.cast u r name)) (hsub : h.isSubtype C name = true)
      (hr : Passes h c₀ c C r w) : Passes h c₀ c C u w

/-- On an object that the old value `w` is known to hold, the calls of `c` select what those of `c₀`
select, and the casts that are new in `c` succeed, as far as the casts before them do. -/
structure Faithful (h : Hierarchy) (c₀ c : Body) : Prop where
  casts : ∀ {k u r name w x C}, c₀.value w = .ok x → x.Conforms h C → h.isInstantiated C = true →
    ¬ c₀.HasInstruction k → c.operation k = .ok (.cast u r name) → Passes h c₀ c C r w →
    h.isSubtype C name = true
  calls : ∀ {i call₀ call u w x C t} {arguments : List RuntimeValue}, c₀.value w = .ok x →
    x.Conforms h C → h.isInstantiated C = true → c₀.operation i = .ok (.call call₀) →
    call₀.receiver? = some w → c.operation i = .ok (.call call) → call.receiver? = some u →
    Passes h c₀ c C u w →
    h.selectTarget c₀.context call₀.kind call₀.method (.object C :: arguments) = .ok t →
    h.selectTarget c.context call.kind call.method (.object C :: arguments) = .ok t

/-- The edits have been sound so far: what is known of a value also holds of objects that have passed
the casts it has been made by. -/
structure Sound (h : Hierarchy) (c₀ c : Body) : Prop extends Faithful h c₀ c where
  known : ∀ {u w x y C}, c₀.value w = .ok x → x.Conforms h C → h.isInstantiated C = true →
    c.value u = .ok y → Passes h c₀ c C u w → y.Conforms h C

namespace Passes

theorem stands (hu : Passes h c₀ c C u w) : Stands c₀ c u w := by
  induction hu with
  | old hw => exact .old hw
  | cast hk hop _ _ ih => exact .cast hk hop ih

theorem of_castStep (hr : Rewritten c₀ c) (hc : c.TracksInstructions)
    (hu : Passes h c₀ c C u w) (hstep : CastStep c₀ c u r) : Passes h c₀ c C r w := by
  obtain ⟨k, name, hk, hop⟩ := hstep
  cases hu with
  | old hw =>
    rcases hr.created hop hk with ⟨t, heq, -⟩ | ⟨u', r', name', heq, hnew⟩
    · cases heq
    · cases heq
      exact absurd hw hnew
  | cast hk' hop' _ hpasses =>
    obtain rfl := hc.eq_of_outputs ⟨_, hop, rfl⟩ ⟨_, hop', rfl⟩
    obtain ⟨-, rfl, -⟩ := Operation.cast.inj (Except.ok.inj (hop.symm.trans hop'))
    exact hpasses

theorem of_castSteps (hr : Rewritten c₀ c) (hc : c.TracksInstructions)
    (hu : Passes h c₀ c C u w) (hsteps : ReflTransGen (CastStep c₀ c) u r) :
    Passes h c₀ c C r w := by
  induction hsteps with
  | refl => exact hu
  | tail _ hstep ih => exact ih.of_castStep hr hc hstep

end Passes

/-! ### Tweaks are sound -/

theorem hasValue_of_stands (hs : Stage c₀ c) (hu : Stands c₀ c u w) : c.HasValue u := by
  cases hu with
  | old hw => exact hs.rewritten.hasValue hw
  | cast _ hop _ => exact hs.intact.hasValue hop u (by simp [Operation.mentions, Operation.out?])

/-- A new value without a definition is made from no value. -/
theorem not_stands_of_undefined (hI : c.Intact) (hy : c.value u = .ok y)
    (hdef : y.definition = .undefined) (hnew : ¬ c₀.HasValue u) : ¬ Stands c₀ c u w := by
  intro hu
  cases hu with
  | old hw => exact hnew hw
  | cast _ hop _ =>
    have := (hI.definition_instruction hy _).2 ⟨_, hop, rfl⟩
    rw [hdef] at this
    cases this

private theorem exists_replaceOperand_eq_cast {op : Operation} {old new : ValueId}
    (heq : op.replaceOperand old new = .cast u v name) :
    ∃ r, op = .cast u r name ∧ (if r = old then new else r) = v := by
  cases op with
  | cast out object name' =>
    obtain ⟨rfl, hv, rfl⟩ := Operation.cast.inj heq
    exact ⟨object, rfl, hv⟩
  | _ => cases heq

private theorem exists_replaceOperand_eq_call {op : Operation} {old new : ValueId}
    (heq : op.replaceOperand old new = .call call') :
    ∃ call, op = .call call ∧ call'.kind = call.kind ∧ call'.method = call.method ∧
      ∀ v, call'.receiver? = some v →
        ∃ r, call.receiver? = some r ∧ (if r = old then new else r) = v := by
  cases op with
  | call call =>
    obtain rfl := Operation.call.inj heq
    refine ⟨call, rfl, rfl, rfl, ?_⟩
    intro v hv
    simpa [Call.receiver?] using hv
  | _ => cases heq

/-- How one tweak changes a call: it reads a cast of its receiver, or it has another target. -/
structure CallStep (h : Hierarchy) (c₀ c : Body) (call call' : Call) : Prop where
  receiver : ∀ v, call'.receiver? = some v →
    ∃ r, call.receiver? = some r ∧ ReflTransGen (CastStep c₀ c) v r
  target : (call'.kind = call.kind ∧ call'.method = call.method) ∨
    (call'.kind = .virtual ∧ c.Retargets h call call'.method)

theorem CallStep.refl (call : Call) : CallStep h c₀ c call call :=
  ⟨fun v hv => ⟨v, hv, .refl⟩, .inl ⟨rfl, rfl⟩⟩

namespace Tweak

/-- A cast read what it reads now, or what that is a cast of. -/
theorem exists_cast_before (ht : Tweak h c₀ c d) (hk : ¬ c₀.HasInstruction k)
    (hop : d.operation k = .ok (.cast u v name)) :
    ∃ r, c.operation k = .ok (.cast u r name) ∧ ReflTransGen (CastStep c₀ c) v r := by
  cases ht with
  | @retarget i call method hcall _ =>
    obtain ⟨op, hop', heq⟩ := operation_replaced.1 hop
    split at heq
    · cases heq
    · exact ⟨v, heq ▸ hop', .refl⟩
  | createValue => exact ⟨v, hop, .refl⟩
  | setDynamic => exact ⟨v, hop, .refl⟩
  | spreadPhi => exact ⟨v, hop, .refl⟩
  | @reuse i op old new hi _ _ _ _ _ =>
    obtain ⟨op, hop', heq⟩ := operation_redirected.1 hop
    have hki : k ≠ i := by
      intro hki
      exact hk (hki ▸ hi)
    rw [if_neg hki] at heq
    exact ⟨v, heq ▸ hop', .refl⟩
  | @spread i k' op old new name' hk' hcast hik _ _ _ =>
    obtain ⟨op, hop', heq⟩ := operation_redirected.1 hop
    split at heq
    · obtain ⟨r, rfl, rfl⟩ := exists_replaceOperand_eq_cast heq
      refine ⟨r, hop', ?_⟩
      split
      · rename_i hr
        exact hr ▸ .single ⟨k', name', hk', hcast⟩
      · exact .refl
    · exact ⟨v, heq ▸ hop', .refl⟩

theorem passes (ht : Tweak h c₀ c d) (hs : Stage c₀ c) (hu : Passes h c₀ d C u w) :
    Passes h c₀ c C u w := by
  induction hu with
  | old hw => exact .old hw
  | cast hk hop hsub _ ih =>
    obtain ⟨r, hop', hsteps⟩ := ht.exists_cast_before hk hop
    exact .cast hk hop' hsub (ih.of_castSteps hs.rewritten hs.intact.toTracksInstructions hsteps)

/-- What is known of a value that stands for an old one stays known. -/
theorem sameKnown (ht : Tweak h c₀ c d) (hs : Stage c₀ c) (hu : Stands c₀ c u w)
    (hy : d.value u = .ok y) : ∃ x, c.value u = .ok x ∧ y.SameKnown x := by
  cases ht with
  | retarget =>
    obtain ⟨x, hx, rfl⟩ := value_replaced.1 hy
    exact ⟨x, hx, .refl x⟩
  | createValue type =>
    rcases value_createValue.1 hy with hx | ⟨rfl, -⟩
    · exact ⟨y, hx, .refl y⟩
    · exact absurd (hasValue_of_stands hs hu) not_hasValue_next
  | @setDynamic v z r hz hdef hnew =>
    obtain ⟨x, hx, rfl⟩ := value_updateValues.1 hy
    have huv : u ≠ v := by
      rintro rfl
      exact not_stands_of_undefined hs.intact hz hdef hnew hu
    rw [if_neg huv]
    exact ⟨x, hx, .refl x⟩
  | reuse =>
    obtain ⟨x, hx, rfl⟩ := value_redirected.1 hy
    exact ⟨x, hx, .refl x⟩
  | spread =>
    obtain ⟨x, hx, rfl⟩ := value_redirected.1 hy
    exact ⟨x, hx, .refl x⟩
  | spreadPhi =>
    obtain ⟨x, hx, rfl⟩ := value_phiRedirected.1 hy
    exact ⟨x, hx, .refl x⟩

theorem callStep (ht : Tweak h c₀ c d) (hop : d.operation i = .ok (.call call')) :
    ∃ call, c.operation i = .ok (.call call) ∧ CallStep h c₀ c call call' := by
  have hredirected : ∀ {j old new}, ReflTransGen (CastStep c₀ c) new old →
      (c.redirected j old new).operation i = .ok (.call call') →
      ∃ call, c.operation i = .ok (.call call) ∧ CallStep h c₀ c call call' := by
    intro j old new hsteps hop
    obtain ⟨op, hop', heq⟩ := operation_redirected.1 hop
    split at heq
    · obtain ⟨call, rfl, hkind, hmethod, hreceiver⟩ := exists_replaceOperand_eq_call heq
      refine ⟨call, hop', ?_, .inl ⟨hkind, hmethod⟩⟩
      intro v hv
      obtain ⟨r, hr, rfl⟩ := hreceiver v hv
      refine ⟨r, hr, ?_⟩
      split
      · rename_i hr
        exact hr ▸ hsteps
      · exact .refl
    · exact ⟨call', heq ▸ hop', .refl call'⟩
  cases ht with
  | @retarget j call method hcall htarget =>
    obtain ⟨op, hop', heq⟩ := operation_replaced.1 hop
    split at heq
    · rename_i hij
      subst hij
      obtain rfl := Operation.call.inj heq
      exact ⟨call, hcall, fun v hv => ⟨v, hv, .refl⟩, .inr ⟨rfl, htarget⟩⟩
    · exact ⟨call', heq ▸ hop', .refl call'⟩
  | createValue => exact ⟨call', hop, .refl call'⟩
  | setDynamic => exact ⟨call', hop, .refl call'⟩
  | spreadPhi => exact ⟨call', hop, .refl call'⟩
  | reuse _ _ _ _ hcasts _ => exact hredirected hcasts hop
  | spread hk hcast _ _ _ _ => exact hredirected (.single ⟨_, _, hk, hcast⟩) hop

end Tweak

section Sound

variable (ha : h.Acyclic) (hd : h.DefinedOnce) (hn : h.ImplementsNoClass) (hp : h.NoPackageMembers)
  (hs : Stage c₀ c) (hsound : Sound h c₀ c)

include ha hd hn hp hs hsound in
theorem Sound.tweaked (ht : Tweak h c₀ c d) : Sound h c₀ d where
  known hw hx hC hy hu := by
    have hu' := ht.passes hs hu
    obtain ⟨x, hx', hknown⟩ := ht.sameKnown hs hu'.stands hy
    exact (hsound.known hw hx hC hx' hu').congr hknown
  casts hw hx hC hk hop hr := by
    obtain ⟨r, hop', hsteps⟩ := ht.exists_cast_before hk hop
    apply hsound.casts hw hx hC hk hop'
    exact (ht.passes hs hr).of_castSteps hs.rewritten hs.intact.toTracksInstructions hsteps
  calls {i call₀ call' v w x C t arguments} hw hx hC hcall₀ hw' hop hv hpasses hok := by
    obtain ⟨call, hop', hstep⟩ := ht.callStep hop
    obtain ⟨r, hr, hsteps⟩ := hstep.receiver v hv
    have hpasses' : Passes h c₀ c C r w :=
      (ht.passes hs hpasses).of_castSteps hs.rewritten hs.intact.toTracksInstructions hsteps
    have hbefore := hsound.calls hw hx hC hcall₀ hw' hop' hr hpasses' hok
    have hcontext : d.context = c.context := congrArg MethodRef.holder ht.method_eq
    rw [hcontext]
    rcases hstep.target with ⟨hkind, hmethod⟩ | ⟨hkind, htarget⟩
    · rw [hkind, hmethod]
      exact hbefore
    · obtain ⟨y, hy⟩ := exists_value_iff.2 (hasValue_of_stands hs hpasses'.stands)
      rw [hkind]
      exact htarget.selectTarget_eq_ok ha hd hn hp hr hy hC (hsound.known hw hx hC hy hpasses') hbefore

/-- What a placement adds to a body: a cast of the receiver of a call, and a jump if it cuts a
block. -/
structure PlacesCast (c d : Body) (u r : ValueId) (name : TypeName) : Prop where
  context : d.context = c.context
  operation : ∀ {k op}, d.operation k = .ok op →
    c.operation k = .ok op ∨ op = .cast u r name ∨ ∃ t, op = .goto t
  value : ∀ {v y}, d.value v = .ok y → ∃ x, c.value v = .ok x ∧ y.SameKnown x

theorem placesCast_inserted : PlacesCast c (c.inserted b index (.cast u r name)) u r name where
  context := rfl
  operation hop := by
    rcases operation_inserted.1 hop with hop | ⟨-, rfl⟩
    · exact .inl hop
    · exact .inr (.inl rfl)
  value hy := by
    obtain ⟨x, hx, rfl⟩ := value_inserted.1 hy
    exact ⟨x, hx, .refl x⟩

theorem placesCast_cut {jumps : List BlockId} :
    PlacesCast c ((c.splitted b index x jumps).inserted b index (.cast u r name)) u r name where
  context := rfl
  operation hop := by
    rcases operation_inserted.1 hop with hop | ⟨-, rfl⟩
    · rcases operation_splitted.1 hop with hop | ⟨-, rfl⟩
      · exact .inl hop
      · exact .inr (.inr ⟨_, rfl⟩)
    · exact .inr (.inl rfl)
  value hy := by
    obtain ⟨x, hx, rfl⟩ := value_inserted.1 hy
    exact ⟨x, hx, .refl x⟩

include hs in
/-- What passes the casts of a value in the new body passes them in the old one, unless the value is
the new cast. -/
theorem passes_of_placesCast (hI₀ : c₀.Intact) (hc₀ : c₀.Consistent)
    (hplace : CastPlace h c₀ c b index i x u r name) (hplaces : PlacesCast c d u r name)
    (hv : Passes h c₀ d C v w) :
    Passes h c₀ c C v w ∨ (v = u ∧ h.isSubtype C name = true ∧ Passes h c₀ c C r w) := by
  obtain ⟨y, hy, hdef, hnew, -⟩ := hplace.value
  have hfresh : ∀ w, ¬ Stands c₀ c u w := fun w => not_stands_of_undefined hs.intact hy hdef hnew
  induction hv with
  | old hw => exact .inl (.old hw)
  | @cast k v s w name' hk hop hsub _ ih =>
    rcases hplaces.operation hop with hop | heq | ⟨t, heq⟩
    · left
      rcases ih with hpasses | ⟨rfl, -⟩
      · exact .cast hk hop hsub hpasses
      · -- no cast reads a value that is not defined yet
        obtain ⟨q, -, hof, -⟩ := hs.intact.exists_place hop
        obtain ⟨_, _, ⟨_, _, _, _, _, hop', -, -, hstands, -⟩, -⟩ :=
          hs.rewritten.exists_anchors hI₀.toArranged hc₀.closed hs.intact.toArranged hk hop hof
        obtain ⟨-, rfl, -⟩ := Operation.cast.inj (Except.ok.inj (hop.symm.trans hop'))
        exact absurd hstands (hfresh _)
    · obtain ⟨rfl, rfl, rfl⟩ := Operation.cast.inj heq
      right
      rcases ih with hpasses | ⟨-, -, hpasses⟩
      · exact ⟨rfl, hsub, hpasses⟩
      · exact ⟨rfl, hsub, hpasses⟩
    · cases heq

include hd hs hsound in
theorem Sound.placed (hI₀ : c₀.Intact) (hc₀ : c₀.Consistent)
    (hplace : CastPlace h c₀ c b index i x u r name) (hplaces : PlacesCast c d u r name) :
    Sound h c₀ d := by
  obtain ⟨y, hy, hdef, hnew, z, called, target, hz, htype, hdynamic, hsole, rfl⟩ := hplace.value
  have hfresh : ∀ w, ¬ Stands c₀ c u w := fun w => not_stands_of_undefined hs.intact hy hdef hnew
  have hpasses : ∀ {C v w}, Stands c₀ c v w → ∀ {w'}, Passes h c₀ d C v w' →
      Passes h c₀ c C v w' := by
    intro C v w hstands w' hv
    rcases passes_of_placesCast hs hI₀ hc₀ hplace hplaces hv with hv | ⟨rfl, -⟩
    · exact hv
    · exact absurd hstands (hfresh w)
  have hreceiver : ∃ w, Stands c₀ c r w := by
    obtain ⟨call, hop, -, hr⟩ := hplace.call
    obtain ⟨call₀, hop₀⟩ := hs.rewritten.isCall_old hplace.old ⟨call, hop⟩
    obtain ⟨op, hop', hrenders⟩ := hs.rewritten.operation hop₀
    obtain rfl := Except.ok.inj (hop.symm.trans hop')
    obtain ⟨w, -, hstands⟩ := hrenders.exists_receiver hr
    exact ⟨w, hstands⟩
  obtain ⟨w₁, hstands₁⟩ := hreceiver
  constructor
  · constructor
    · intro k v s name w x C hw hx hC hk hop hs'
      rcases hplaces.operation hop with hop | heq | ⟨t, heq⟩
      · obtain ⟨q, -, hof, -⟩ := hs.intact.exists_place hop
        obtain ⟨_, _, ⟨_, _, _, _, _, hop', -, -, hstands, -⟩, -⟩ :=
          hs.rewritten.exists_anchors hI₀.toArranged hc₀.closed hs.intact.toArranged hk hop hof
        obtain ⟨-, rfl, -⟩ := Operation.cast.inj (Except.ok.inj (hop.symm.trans hop'))
        exact hsound.casts hw hx hC hk hop (hpasses hstands hs')
      · obtain ⟨rfl, rfl, rfl⟩ := Operation.cast.inj heq
        have hconforms := hsound.known hw hx hC hz (hpasses hstands₁ hs')
        exact isSubtype_of_resolved hd hC hconforms hsole
      · cases heq
    · intro i call₀ call v w x C t arguments hw hx hC hcall₀ hw' hop hv hpasses' hok
      rw [hplaces.context]
      rcases hplaces.operation hop with hop | heq | ⟨t, heq⟩
      · obtain ⟨op, hop', hrenders⟩ := hs.rewritten.operation hcall₀
        obtain rfl := Except.ok.inj (hop.symm.trans hop')
        obtain ⟨_, -, hstands⟩ := hrenders.exists_receiver hv
        exact hsound.calls hw hx hC hcall₀ hw' hop hv (hpasses hstands hpasses') hok
      · cases heq
      · cases heq
  · intro v w x y' C hw hx hC hy' hv
    obtain ⟨x', hx', hknown⟩ := hplaces.value hy'
    apply Value.Conforms.congr _ hknown
    rcases passes_of_placesCast hs hI₀ hc₀ hplace hplaces hv with hv | ⟨rfl, hsub, hr⟩
    · exact hsound.known hw hx hC hx' hv
    · obtain rfl := Except.ok.inj (hy.symm.trans hx')
      have hconforms := hsound.known hw hx hC hz hr
      constructor
      · intro r' hr'
        rw [htype] at hr'
        obtain rfl := StaticType.reference.inj hr'
        exact hsub
      · intro r' hr'
        rcases hdynamic with hnone | hsame
        · rw [hnone] at hr'
          cases hr'
        · exact hconforms.dynamic r' (hsame ▸ hr')

end Sound

theorem Sound.refl : Sound h c c := by
  constructor
  · constructor
    · intro k u r name w x C _ _ _ hk hop _
      exact absurd (hasInstruction_of_operation hop) hk
    · intro i call₀ call u w x C t arguments _ _ _ hcall₀ _ hcall _ _ hok
      obtain rfl := Operation.call.inj (Except.ok.inj (hcall₀.symm.trans hcall))
      exact hok
  · intro u w x y C hw hx _ hy hu
    cases hu with
    | old _ =>
      obtain rfl := Except.ok.inj (hw.symm.trans hy)
      exact hx
    | cast hk hop _ _ => exact absurd (hasInstruction_of_operation hop) hk

/-- All edits from the original body on are sound. -/
theorem sound_of_edits (ha : h.Acyclic) (hd : h.DefinedOnce) (hn : h.ImplementsNoClass)
    (hp : h.NoPackageMembers) (hI₀ : c₀.Intact) (hc₀ : c₀.Consistent)
    (hedits : ReflTransGen (Edit h c₀) c₀ c) : Sound h c₀ c := by
  suffices hall : Stage c₀ c ∧ Sound h c₀ c from hall.2
  induction hedits with
  | refl => exact ⟨.refl hI₀ hc₀, .refl⟩
  | tail _ hedit ih =>
    obtain ⟨hs, hsound⟩ := ih
    cases hedit with
    | tweak ht => exact ⟨ht.stage hs, hsound.tweaked ha hd hn hp hs ht⟩
    | place hplacement =>
      refine ⟨hplacement.stage hI₀ hc₀ hs, ?_⟩
      cases hplacement with
      | insert hplace _ => exact hsound.placed hd hs hI₀ hc₀ hplace placesCast_inserted
      | cut hplace _ _ => exact hsound.placed hd hs hI₀ hc₀ hplace placesCast_cut

end Body

end Devirt
