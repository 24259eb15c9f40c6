import Devirt.Proofs.Body.Reach
import Devirt.Proofs.Devirtualization.Advance

/-!
What a visit of an instruction does. It always succeeds: it leaves the instruction in its place, or
puts a cast before it, or cuts the block before it, and all it does to the body are edits of
devirtualization. A cast is placed only where the latest one of the same receiver to the same class
does not reach.
-/

namespace Devirt

open Relation Body Devirtualization.State

namespace Devirtualizing

variable {h : Hierarchy} {β : Type} {s : Devirtualization.State h} {c₀ d : Body} {b : BlockId}
  {i k : InstrId} {r u v : ValueId} {call : Call} {target : MethodRef} {op : Operation}
  {options : Options} {index : Nat} {Q : β → Devirtualization.State h → Prop}

/-- What a visit comes to: tweaks, and among them at most one cast, which is kept for later use. -/
inductive Visited (c₀ : Body) (s s' : Devirtualization.State h) : Prop
  | tweaked (ht : Tweaked c₀ s s')
  | placed (s₁ s₂ : Devirtualization.State h) {b : BlockId} {index : Nat} {i k : InstrId}
      {moved : Moved} {u r : ValueId} {name : TypeName} (ht : Tweaked c₀ s s₁)
      (hplacement : Placement h c₀ s₁.body b index i moved s₂.body)
      (hcast : s₂.body.operation k = .ok (.cast u r name)) (hof : s₂.body.blockOf k = .ok b)
      (hcasts : s₂.casts = ((r, name), u) :: s.casts)
      (hmissed : ∀ v, s.casts.lookup (r, name) = some v → ¬ s.body.OutputReaches v b)
      (ht' : Tweaked c₀ s₂ s')

theorem Visited.head {s₁ s' : Devirtualization.State h} (ht : Tweaked c₀ s s₁)
    (hv : Visited c₀ s₁ s') : Visited c₀ s s' := by
  cases hv with
  | tweaked ht₁ => exact .tweaked (ht.trans ht₁)
  | placed _ _ ht₁ hplacement hcast hof hcasts hmissed ht' =>
    refine .placed _ _ (ht.trans ht₁) hplacement hcast hof (ht.casts ▸ hcasts) (fun v hv => ?_) ht'
    rw [← (sameShape_of_tweaks ht.body).outputReaches_iff]
    exact hmissed v (ht.casts ▸ hv)

theorem Visited.tail {s₁ s' : Devirtualization.State h} (hv : Visited c₀ s s₁)
    (ht : Tweaked c₀ s₁ s') : Visited c₀ s s' := by
  cases hv with
  | tweaked ht₁ => exact .tweaked (ht₁.trans ht)
  | placed _ _ ht₁ hplacement hcast hof hcasts hmissed ht' =>
    exact .placed _ _ ht₁ hplacement hcast hof hcasts hmissed (ht'.trans ht)

/-- The receiver of a call has a value. -/
theorem exists_value_receiver {c : Body} (hI : c.Intact) (hop : c.operation i = .ok (.call call))
    (hr : call.receiver? = some r) : ∃ y, c.value r = .ok y :=
  hI.exists_value hop (List.mem_of_head? hr)

/-! ### Changing calls -/

theorem runs_retargetCall (hI : s.body.Intact) (hop : s.body.operation i = .ok (.call call))
    {g : Unit → Devirtualizing h β}
    (hg : Runs (g ()) { s with body := s.body.retargeted i call target } Q) :
    Runs (retargetCall i .virtual target >>= g) s Q := by
  have hvalues := hI.hasValue hop
  have hreplace : s.body.replace i (.call { call with kind := .virtual, method := target }) =
      .ok (s.body.retargeted i call target) :=
    replace_eq_ok.2 ⟨_, hop, hvalues, hvalues, rfl⟩
  rw [retargetCall, bind_assoc]
  exact runs_query (call?_eq_ok hop) (runs_edit hreplace hg)

theorem runs_superToVirtual (hs : Inv c₀ s) (hop : s.body.operation i = .ok (.call call))
    (hkind : call.kind = .super) :
    Runs (superToVirtual i) s fun changed s' => Tweaked c₀ s s' ∧
      (changed = true → s'.body.Dispatches i) := by
  refine runs_query (call?_eq_ok hop) ?_
  dsimp only [Operation.call?]
  cases hr : call.receiver? with
  | none => exact runs_pure ⟨.refl rfl rfl rfl rfl, by simp⟩
  | some r =>
    obtain ⟨y, hy⟩ := exists_value_receiver hs.stage.intact hop hr
    refine runs_query hy (runs_resolve fun resolver => ?_)
    split
    · rename_i target hsuper
      refine runs_resolve fun resolver => ?_
      split
      · exact runs_pure ⟨.refl rfl rfl rfl rfl, by simp⟩
      · rename_i hvirtual
        have htarget : Retargets h s.body call target :=
          .super hkind hr hy hsuper (Decidable.not_not.1 hvirtual)
        refine runs_retargetCall (s := { s with resolver }) hs.stage.intact hop
          (runs_count (runs_pure ?_))
        exact ⟨.single (.retarget hop htarget) rfl rfl rfl,
          fun _ => ⟨_, operation_retargeted hop, rfl⟩⟩
    · exact runs_pure ⟨.refl rfl rfl rfl rfl, by simp⟩

theorem runs_specialize (hs : Inv c₀ s) (hop : s.body.operation i = .ok (.call call))
    (hkind : call.kind = .virtual) :
    Runs (specialize options i) s fun _ s' => Tweaked c₀ s s' := by
  rw [specialize]
  split
  · refine runs_query (call?_eq_ok hop) ?_
    dsimp only [Operation.call?]
    cases hr : call.receiver? with
    | none => exact runs_pure (.refl rfl rfl rfl rfl)
    | some r =>
      obtain ⟨y, hy⟩ := exists_value_receiver hs.stage.intact hop hr
      refine runs_query hy (runs_get ?_)
      split
      · rename_i target htarget
        exact runs_retargetCall hs.stage.intact hop ⟨(), _, rfl,
          .single (.retarget hop (.specialize hkind hr hy htarget)) rfl rfl rfl⟩
      · exact runs_pure (.refl rfl rfl rfl rfl)
  · exact runs_pure (.refl rfl rfl rfl rfl)

/-- What is known when a single class method is reached. -/
theorem runs_soleClassTarget? (hs : Inv c₀ s) (hop : s.body.operation i = .ok (.call call))
    (hr : call.receiver? = some r) :
    Runs (soleClassTarget? call r) s fun o s' => Tweaked c₀ s s' ∧ s'.body = s.body ∧
      ∀ target, o = some target → ∃ y, s.body.value r = .ok y ∧
        h.resolved .interface call.method y.bestType s.body.context = .single target ∧
        h.isClass target.holder = true ∧
        h.classAccessible target.holder s.body.context = true := by
  obtain ⟨y, hy⟩ := exists_value_receiver hs.stage.intact hop hr
  refine runs_query hy (runs_resolve fun resolver => ?_)
  split
  · rename_i target hsole
    refine runs_get ?_
    dsimp only
    split
    · rename_i hclass
      rw [Bool.and_eq_true] at hclass
      refine runs_pure ⟨.refl rfl rfl rfl rfl, rfl, ?_⟩
      rintro _ ⟨rfl⟩
      exact ⟨y, hy, hsole, hclass⟩
    · exact runs_pure ⟨.refl rfl rfl rfl rfl, rfl, by simp⟩
  · exact runs_pure ⟨.refl rfl rfl rfl rfl, rfl, by simp⟩

/-! ### Casts of the receiver -/

variable (hI₀ : c₀.Intact) (hc₀ : c₀.Consistent)

/-- From the index of the block on all instructions are old. -/
def Ahead (c₀ : Body) (x : Block) (index : Nat) : Prop :=
  ∀ (m : Nat) j, index ≤ m → x.instructions[m]? = some j → c₀.HasInstruction j

include hI₀ hc₀ in
/-- A cast made before may be read where it reaches. In the block of the call itself it stands
before the call, because nothing new stands after it. -/
theorem exists_castReaches (hs : Inv c₀ s) {x : Block} (hx : s.body.block b = .ok x)
    (hi : x.instructions[index]? = some i) (hahead : Ahead c₀ x index) {name : TypeName}
    (hcached : CachedCast c₀ s.body r name v) :
    ∃ reaches, castReaches s.body s.tree v b = .ok reaches ∧
      (reaches = true → s.body.ReadyAt v i) ∧ (s.body.OutputReaches v b → reaches = true) := by
  have hI := hs.stage.intact
  have hclosed := hs.stage.rewritten.closed hI₀.toArranged hc₀.closed
  obtain ⟨⟨k, r', hk, hop⟩, -⟩ := hcached
  obtain ⟨y, hy, hdef⟩ := hI.value_of_outputs ⟨_, hop, rfl⟩
  obtain ⟨q, z, hof, hz, hmem⟩ := hI.exists_place hop
  simp only [castReaches, hy, ok_bind, hdef, hof]
  by_cases hqb : q = b
  · subst hqb
    obtain rfl := Except.ok.inj (hx.symm.trans hz)
    obtain ⟨m, hm⟩ := List.mem_iff_getElem?.1 hmem
    refine ⟨true, if_pos rfl, fun _ => .of_place hI.toArranged hx hi fun _ => ?_, fun _ => rfl⟩
    rw [ready_iff_lt hI ⟨_, hop, rfl⟩ hx hm]
    by_contra hle
    exact hk (hahead m k (Nat.le_of_not_lt hle) hm)
  · obtain ⟨reaches, hrun, hiff⟩ := exists_availableIn (t := s.tree) (b := b) hI hclosed
      (hasValue_of_value hy)
    have hnot : ∀ j, s.body.Outputs j v → s.body.blockOf j ≠ .ok b := by
      intro j hj hof'
      obtain rfl := hI.eq_of_outputs ⟨_, hop, rfl⟩ hj
      exact hqb (Except.ok.inj (hof.symm.trans hof'))
    refine ⟨reaches, by rw [if_neg hqb, hrun], fun htrue => ?_, fun hreaches => hiff.2 ?_⟩
    · refine .of_place hI.toArranged hx hi fun hreach => (ready_iff_available hI hnot).2 ?_
      obtain ⟨a, ha, hdom⟩ := hiff.1 htrue
      exact ⟨a, ha, (hs.tree a b hreach).1 hdom⟩
    · rcases hreaches with ⟨j, hj, hof'⟩ | ⟨a, ha, rfl | ⟨hreach, hdom⟩⟩
      · exact absurd hof' (hnot j hj)
      · exact ⟨a, ha, DominatorTree.dominates_refl _ a⟩
      · exact ⟨a, ha, (hs.tree a b hreach).2 hdom⟩

include hI₀ hc₀ in
theorem runs_cachedCast? (hs : Inv c₀ s) {x : Block} (hx : s.body.block b = .ok x)
    (hi : x.instructions[index]? = some i) (hahead : Ahead c₀ x index) {name : TypeName}
    {g : Option ValueId → Devirtualizing h β}
    (hnone : (∀ v, s.casts.lookup (r, name) = some v → ¬ s.body.OutputReaches v b) →
      Runs (g none) s Q)
    (hsome : ∀ v, CachedCast c₀ s.body r name v → s.body.ReadyAt v i → Runs (g (some v)) s Q) :
    Runs (cachedCast? r name b >>= g) s Q := by
  refine Runs.bind (P := fun o s' => s' = s ∧
    (o = none → ∀ v, s.casts.lookup (r, name) = some v → ¬ s.body.OutputReaches v b) ∧
    ∀ v, o = some v → CachedCast c₀ s.body r name v ∧ s.body.ReadyAt v i) (runs_get ?_) ?_
  · cases hlookup : s.casts.lookup (r, name) with
    | none => exact runs_pure ⟨rfl, by simp, by simp⟩
    | some v =>
      have hcached : CachedCast c₀ s.body r name v := by
        obtain ⟨l₁, l₂, heq, -⟩ := List.lookup_eq_some_iff.1 hlookup
        exact hs.casts ((r, name), v) (heq ▸ by simp)
      obtain ⟨reaches, hrun, hready, hreaches⟩ := exists_castReaches hI₀ hc₀ hs hx hi hahead hcached
      refine runs_lift hrun ?_
      split
      · rename_i htrue
        refine runs_pure ⟨rfl, by simp, ?_⟩
        rintro _ ⟨rfl⟩
        exact ⟨hcached, hready htrue⟩
      · rename_i hfalse
        refine runs_pure ⟨rfl, ?_, by simp⟩
        rintro - _ ⟨rfl⟩
        exact mt hreaches hfalse
  · rintro o _ ⟨rfl, hmissed, hsome'⟩
    cases o with
    | none => exact hnone (hmissed rfl)
    | some v => exact hsome v (hsome' v rfl).1 (hsome' v rfl).2

/-- The value of a new cast, before the cast is placed. -/
def CastValue (c₀ c : Body) (u : ValueId) (z : Value) (type : StaticType) : Prop :=
  ∃ y, c.value u = .ok y ∧ y.definition = .undefined ∧ ¬ c₀.HasValue u ∧ y.type = type ∧
    (y.dynamic = none ∨ y.dynamic = z.dynamic)

theorem runs_newCastValue (hs : Inv c₀ s) {z : Value} (hz : s.body.value r = .ok z)
    {name : TypeName} {type : StaticType} {g : ValueId → Devirtualizing h β}
    (hg : ∀ u s', Tweaked c₀ s s' → CastValue c₀ s'.body u z type → s'.body.value r = .ok z →
      (∀ i op, s.body.operation i = .ok op → s'.body.operation i = .ok op) → Runs (g u) s' Q) :
    Runs (newCastValue r name type >>= g) s Q := by
  let c := (s.body.createValue type).2
  have hnew : ¬ c₀.HasValue ⟨s.body.values.length⟩ :=
    fun hv => not_hasValue_next (hs.stage.rewritten.hasValue hv)
  have hu : c.value ⟨s.body.values.length⟩ = .ok { type } := value_createValue.2 (.inr ⟨rfl, rfl⟩)
  have hr : c.value r = .ok z := value_createValue.2 (.inl hz)
  have htweak : Tweak h c₀ s.body c := .createValue type
  refine Runs.bind (P := fun u s' => Tweaked c₀ s s' ∧ CastValue c₀ s'.body u z type ∧
    s'.body.value r = .ok z ∧ ∀ i op, s.body.operation i = .ok op → s'.body.operation i = .ok op)
    (runs_editWith rfl (runs_query hr ?_)) fun u s' hu => hg u s' hu.1 hu.2.1 hu.2.2.1 hu.2.2.2
  have hplain : Tweaked c₀ s { s with body := c } ∧
      CastValue c₀ c ⟨s.body.values.length⟩ z type ∧ c.value r = .ok z ∧
      ∀ i op, s.body.operation i = .ok op → c.operation i = .ok op :=
    ⟨.single htweak rfl rfl rfl, ⟨_, hu, rfl, hnew, rfl, .inl rfl⟩, hr, fun _ _ hop => hop⟩
  cases hdynamic : z.dynamic with
  | none => exact runs_pure hplain
  | some t =>
    dsimp only
    split
    · refine runs_edit (modifyValue_eq_ok.2 ⟨hasValue_of_value hu, rfl⟩) (runs_pure ?_)
      refine ⟨.trans hplain.1 (.single (.setDynamic (some t) hu rfl hnew) rfl rfl rfl),
        ⟨_, value_updateValues.2 ⟨_, hu, if_pos rfl⟩, rfl, hnew, rfl, .inr hdynamic.symm⟩,
        value_updateValues.2 ⟨_, hr, if_neg ?_⟩, fun _ _ hop => hop⟩
      rintro rfl
      exact not_hasValue_next (hasValue_of_value hz)
    · exact runs_pure hplain

/-- The cast `k` of the receiver has been placed before the call. -/
structure Placed (c₀ : Body) (s s' : Devirtualization.State h) (b : BlockId) (index : Nat)
    (i : InstrId) (r : ValueId) (name : TypeName) (k : InstrId) (u : ValueId) (moved : Moved) :
    Prop where
  inv : Inv c₀ s'
  placement : ∃ s₁, Tweaked c₀ s s₁ ∧ Placement h c₀ s₁.body b index i moved s'.body
  casts : s'.casts = s.casts
  blockOf : s'.body.blockOf k = .ok b
  advanced : Advanced s.body s'.body b index moved
  new : ¬ c₀.HasInstruction k
  cast : s'.body.operation k = .ok (.cast u r name)
  ready : s'.body.ReadyAt u i
  operation : ∀ j op, s.body.operation j = .ok op → s'.body.operation j = .ok op

/-- A virtual call that stands in its old place and whose receiver is to be cast to the class. -/
structure Receives (h : Hierarchy) (c₀ c : Body) (b : BlockId) (index : Nat) (i : InstrId)
    (x : Block) (call : Call) (r : ValueId) (z : Value) (name : TypeName) : Prop where
  place : OldPlace c₀ c b index i x
  operation : c.operation i = .ok (.call call)
  virtual : call.kind = .virtual
  receiver : call.receiver? = some r
  value : c.value r = .ok z
  sole : ∃ called target, h.resolved .interface called z.bestType c.context = .single target ∧
    target.holder = name

include hI₀ hc₀ in
theorem runs_placeCast (hs : Inv c₀ s) {x : Block} {z : Value} {name : TypeName}
    (hcall : Receives h c₀ s.body b index i x call r z name) :
    Runs (placeCast i index r name (.ofClass name z.type.nullability)) s fun p s' =>
      Placed c₀ s s' b index i r name p.1 p.2.1 p.2.2 := by
  obtain ⟨called, target, hsole, rfl⟩ := hcall.sole
  refine runs_newCastValue hs hcall.value fun u s₁ htweak hu hz hops => ?_
  obtain ⟨y, hy, hdef, hnew, htype, hdynamic⟩ := hu
  obtain ⟨x', hplace, hhandlers⟩ := hcall.place.tweaks htweak.body
  have hs₁ := hs.tweaked htweak
  have hI := hs₁.stage.intact
  have hr := hs₁.stage.rewritten
  have hcast : CastPlace h c₀ s₁.body b index i x' u r target.holder :=
    { hplace with
      call := ⟨call, hops i _ hcall.operation, hcall.virtual, hcall.receiver⟩
      value := ⟨y, hy, hdef, hnew, z, called, target, hz, htype, hdynamic,
        context_of_tweaks htweak.body ▸ hsole, rfl⟩ }
  refine runs_query (hI.placed hplace.block i (List.mem_of_getElem? hplace.place))
    (runs_query hplace.block ?_)
  have hstayed : Advanced s.body s₁.body b index .stayed := Advanced.of_tweaks htweak.body
  split
  · rename_i hguard
    obtain ⟨jumps, hjumps⟩ := hI.exists_normalSuccessors hplace.block
    have hp : Placement h c₀ s₁.body b index i _ _ := .cut hcast hguard hjumps
    have hstage := hp.stage hI₀ hc₀ hs₁.stage
    have hclosed := hr.closed hI₀.toArranged hc₀.closed
    obtain ⟨t, ht⟩ := hstage.intact.exists_dominators
    have htree := describes_of_dominators hstage.intact.toArranged
      (hstage.rewritten.closed hI₀.toArranged hc₀.closed) ht
    refine runs_editWith (hcast.split_eq_ok hI.toArranged hclosed hjumps) (runs_count
      (runs_editWith hcast.insertAt_head (runs_rebuildTree ht (runs_count (runs_pure ?_)))))
    exact
      { inv := hs₁.placed hI₀ hc₀ hp htree rfl rfl
        placement := ⟨s₁, htweak, hp⟩
        casts := htweak.casts
        blockOf := blockOf_inserted.2 (.inr ⟨rfl, rfl⟩)
        advanced := hstayed.congr (hp.advanced hI.toArranged) (.stayed rfl fun _ => rfl)
        new := fun hk => by
          obtain ⟨w, hw⟩ := exists_instruction_iff.2 (hr.hasInstruction hk)
          exact instruction_next_ne_ok (instruction_splitted.2 (.inl ⟨w, hw, rfl⟩))
        cast := operation_inserted.2 (.inr ⟨rfl, rfl⟩)
        ready := hcast.readyAt_cut hI hguard
        operation := fun j op hop => hp.operation (hops j op hop) }
  · rename_i hguard
    have hguard := Bool.eq_false_iff.2 hguard
    have hp : Placement h c₀ s₁.body b index i _ _ := .insert hcast hguard
    refine runs_editWith hcast.insertAt_eq_ok (runs_count (runs_pure ?_))
    exact
      { inv := hs₁.placed hI₀ hc₀ hp (Placement.describes_insert hcast hI.toArranged hs₁.tree) rfl rfl
        placement := ⟨s₁, htweak, hp⟩
        casts := htweak.casts
        blockOf := blockOf_inserted.2 (.inr ⟨rfl, rfl⟩)
        advanced := hstayed.congr (hp.advanced hI.toArranged) (.stayed rfl fun _ => rfl)
        new := hr.not_hasInstruction_next
        cast := operation_inserted.2 (.inr ⟨rfl, rfl⟩)
        ready := hcast.readyAt_inserted hI
        operation := fun j op hop => hp.operation (hops j op hop) }

include hI₀ hc₀ in
theorem runs_spreadCast (hs : Inv c₀ s) (hk : ¬ c₀.HasInstruction k) {name : TypeName}
    (hcast : s.body.operation k = .ok (.cast u r name)) {type : StaticType} :
    Runs (spreadCast i r type k u) s fun _ s' => Tweaked c₀ s s' := by
  have hspreads : Spreads h c₀ s.tree k r u name s.body := ⟨hs.stage, hs.tree, hcast⟩
  obtain ⟨z, hz⟩ := exists_value_iff.2 hspreads.hasValue.1
  refine runs_query hz ?_
  split
  · refine runs_get ?_
    obtain ⟨replaced, d, hrun, hd, htweaks, hops, hphis⟩ :=
      hspreads.redirectUses hI₀ hc₀ hk (s.devirtualized.insert i).toList
    obtain ⟨operations, hoperations⟩ := exists_mapM_eq_ok.2 hops
    refine runs_editWith hrun (runs_query hoperations
      ⟨(), _, rfl, .affect htweaks rfl rfl rfl fun v hv => ?_⟩)
    rcases List.mem_append.1 hv with hv | hv
    · obtain ⟨op, hop, hout⟩ := List.mem_filterMap.1 hv
      obtain ⟨j, -, hj⟩ := (mem_of_mapM_eq_ok hoperations).1 hop
      exact hd.stage.intact.hasValue hj v (by simp [Operation.mentions, hout])
    · exact hphis v hv
  · exact runs_pure (.refl rfl rfl rfl rfl)

include hI₀ hc₀ in
theorem runs_castReceiver (hs : Inv c₀ s) {x : Block} {z : Value} {name : TypeName}
    (hcall : Receives h c₀ s.body b index i x call r z name) (hahead : Ahead c₀ x index) :
    Runs (castReceiver i index r name) s fun moved s' =>
      Inv c₀ s' ∧ Advanced s.body s'.body b index moved ∧ Visited c₀ s s' := by
  have hI := hs.stage.intact
  have hr : r ∈ (Operation.call call).operands := List.mem_of_head? hcall.receiver
  refine runs_query hcall.value ?_
  dsimp only
  split
  · exact runs_pure ⟨hs, .stayed rfl fun _ => rfl, .tweaked (.refl rfl rfl rfl rfl)⟩
  · refine runs_query (hI.placed hcall.place.block i (List.mem_of_getElem? hcall.place.place)) ?_
    refine runs_cachedCast? hI₀ hc₀ hs hcall.place.block hcall.place.place hahead ?_ ?_
    · intro hmissed
      refine Runs.bind (runs_placeCast hI₀ hc₀ hs hcall) ?_
      rintro ⟨k, u, moved⟩ s₁ hplaced
      obtain ⟨s₀, htweaks₀, hplacement⟩ := hplaced.placement
      have hop := hplaced.operation i _ hcall.operation
      have hik : i ≠ k := ne_of_call_of_cast hop hplaced.cast
      have htweak : Tweak h c₀ s₁.body (s₁.body.redirected i r u) :=
        .spread hplaced.new hplaced.cast hik hop hr hplaced.ready
      have hvalues := hplaced.inv.stage.intact.hasValue hplaced.cast
      have hu : s₁.body.HasValue u := hvalues u (by simp [Operation.mentions, Operation.out?])
      have hredirect := redirectOperand_of_mem hop hr
        (hvalues r (by simp [Operation.mentions, Operation.operands])) hu
      refine runs_modify (runs_affect (runs_editWith hredirect ?_))
      have hread : Tweaked c₀ { s₁ with casts := ((r, name), u) :: s₁.casts } { s₁ with
          body := s₁.body.redirected i r u
          casts := ((r, name), u) :: s₁.casts
          affected := s₁.affected.insertAll [u] } := by
        refine .affect (.single htweak) rfl rfl rfl fun v hv => ?_
        rw [List.mem_singleton.1 hv]
        exact htweak.hasValue hu
      have hinv := (hplaced.inv.remember hplaced.new hplaced.cast).tweaked hread
      refine Runs.bind (runs_spreadCast hI₀ hc₀ hinv hplaced.new
        (operation_redirected.2 ⟨_, hplaced.cast, if_neg hik.symm⟩)) fun _ s₂ hs₂ => ?_
      refine runs_pure ⟨hinv.tweaked hs₂, .congr (.stayed rfl fun _ => rfl) hplaced.advanced
        (.of_tweaks (hs₂.body.head htweak)), ?_⟩
      exact .placed s₀ { s₁ with casts := ((r, name), u) :: s₁.casts } htweaks₀ hplacement
        hplaced.cast hplaced.blockOf (by rw [hplaced.casts]) hmissed (hread.trans hs₂)
    · intro u hcached hready
      have hop := hcall.operation
      have htweak : Tweak h c₀ s.body (s.body.redirected i r u) := by
        obtain ⟨⟨k, r', hk, hcast⟩, hcasts⟩ := hcached
        exact .reuse hcall.place.old hop hr ⟨r', k, name, hk, hcast⟩ hcasts hready
      have hu : s.body.HasValue u := by
        obtain ⟨⟨k, r', -, hcast⟩, -⟩ := hcached
        exact hI.hasValue hcast u (by simp [Operation.mentions, Operation.out?])
      have hredirect := redirectOperand_of_mem hop hr (hasValue_of_value hcall.value) hu
      have hread : Tweaked c₀ s { s with
          body := s.body.redirected i r u
          affected := s.affected.insertAll [u]
          stats := { s.stats with castsReused := s.stats.castsReused + 1 } } := by
        refine .affect (.single htweak) rfl rfl rfl fun v hv => ?_
        rw [List.mem_singleton.1 hv]
        exact htweak.hasValue hu
      exact runs_editWith hredirect (runs_affect (runs_count (runs_pure
        ⟨hs.tweaked hread, .of_tweaks hread.body, .tweaked hread⟩)))

/-! ### Visits -/

include hI₀ hc₀ in
theorem runs_interfaceToVirtual (hs : Inv c₀ s) {x : Block} (hx : s.body.block b = .ok x)
    (hi : x.instructions[index]? = some i) (hahead : Ahead c₀ x index)
    (hop : s.body.operation i = .ok (.call call)) (hkind : call.kind = .interface) :
    Runs (interfaceToVirtual i index) s fun moved s' =>
      Inv c₀ s' ∧ Advanced s.body s'.body b index moved ∧ Visited c₀ s s' := by
  refine runs_query (call?_eq_ok hop) ?_
  dsimp only [Operation.call?]
  cases hr : call.receiver? with
  | none => exact runs_pure ⟨hs, .stayed rfl fun _ => rfl, .tweaked (.refl rfl rfl rfl rfl)⟩
  | some r =>
    refine Runs.bind (runs_soleClassTarget? hs hop hr) fun o s₁ hs₁ => ?_
    obtain ⟨hasked, hbody, htarget⟩ := hs₁
    have hinv₁ := hs.tweaked hasked
    rw [← hbody] at hx hop ⊢
    cases o with
    | none => exact runs_pure ⟨hinv₁, .stayed rfl fun _ => rfl, .tweaked hasked⟩
    | some target =>
      obtain ⟨y, hy, hsole, hclass, haccess⟩ := htarget target rfl
      rw [← hbody] at hy hsole haccess
      have hold : c₀.HasInstruction i := hahead index i (Nat.le_refl _) hi
      have htweak : Tweak h c₀ s₁.body (s₁.body.retargeted i call target) :=
        .retarget hop (.interface hkind hr hy hsole hclass haccess)
      have htweaked : Tweaked c₀ s₁ { s₁ with
          body := s₁.body.retargeted i call target
          affected := s₁.affected.insertAll call.out.toList } := by
        refine .affect (.single htweak) rfl rfl rfl fun v hv => htweak.hasValue ?_
        exact hinv₁.stage.intact.hasValue hop v (List.mem_append_left _ hv)
      have hinv₂ := hinv₁.tweaked htweaked
      -- before it was made virtual, nothing had been placed for the call
      have hnot : ¬ s₁.body.Dispatches i := by
        rintro ⟨call', hop', hkind'⟩
        obtain rfl := Operation.call.inj (Except.ok.inj (hop.symm.trans hop'))
        exact DispatchKind.noConfusion (hkind.symm.trans hkind')
      obtain ⟨x₀, hx₀, hspells, hunanchored⟩ := hinv₁.stage.rewritten.whole_of_not_dispatches
        hI₀.toArranged hc₀ hinv₁.stage.intact.toArranged hx hi hold ⟨call, hop⟩ hnot
      have hplace : OldPlace c₀ s₁.body b index i x :=
        ⟨hx, hi, hold, ⟨x₀, hx₀, hspells⟩, hunanchored⟩
      obtain ⟨x', hplace', -⟩ := hplace.tweaks (.single htweak)
      obtain rfl : x = x' := Except.ok.inj (hx.symm.trans hplace'.block)
      have hreceives : Receives h c₀ (s₁.body.retargeted i call target) b index i x
          { call with kind := .virtual, method := target } r
          (attached i _ r (detached i (.call call) r y)) target.holder :=
        ⟨hplace', operation_retargeted hop, rfl, hr, value_replaced.2 ⟨y, hy, rfl⟩,
          ⟨call.method, target, hsole, rfl⟩⟩
      refine runs_retargetCall hinv₁.stage.intact hop (runs_count (runs_affect ?_))
      split
      · rw [pure_bind]
        refine runs_modify (runs_pure ⟨hinv₂.tweaked (.refl rfl rfl rfl rfl),
          .of_tweaks (.single htweak), .tweaked (hasked.trans (htweaked.trans ?_))⟩)
        exact .refl rfl rfl rfl rfl
      · refine Runs.bind (runs_castReceiver hI₀ hc₀ ?_ hreceives hahead) ?_
        · exact hinv₂.tweaked (.refl rfl rfl rfl rfl)
        · rintro moved s' ⟨hinv, hadvanced, hvisited⟩
          refine runs_modify (runs_pure ⟨hinv.tweaked (.refl rfl rfl rfl rfl),
            .congr (.of_tweaks (.single htweak)) hadvanced (.stayed rfl fun _ => rfl), ?_⟩)
          refine Visited.head ?_ (hvisited.tail (.refl rfl rfl rfl rfl))
          exact hasked.trans (htweaked.trans (.refl rfl rfl rfl rfl))

include hI₀ hc₀ in
/-- A visit succeeds, keeps all that is known of the state and moves nothing but the call. -/
theorem runs_visit (hs : Inv c₀ s) {x : Block} (hx : s.body.block b = .ok x)
    (hi : x.instructions[index]? = some i) (hahead : Ahead c₀ x index) :
    Runs (visit options i index) s fun moved s' =>
      Inv c₀ s' ∧ Advanced s.body s'.body b index moved ∧ Visited c₀ s s' := by
  have hI := hs.stage.intact
  obtain ⟨op, hop⟩ := hI.exists_operation hx (List.mem_of_getElem? hi)
  have hold : c₀.HasInstruction i := hahead index i (Nat.le_refl _) hi
  have hstayed : ∀ {s'}, Tweaked c₀ s s' → Inv c₀ s' ∧
      Advanced s.body s'.body b index .stayed ∧ Visited c₀ s s' :=
    fun ht => ⟨hs.tweaked ht, .of_tweaks ht.body, .tweaked ht⟩
  refine runs_query (call?_eq_ok hop) ?_
  cases op with
  | call call =>
    dsimp only [Operation.call?]
    cases hkind : call.kind with
    | super =>
      dsimp only
      split
      · refine Runs.bind (runs_superToVirtual hs hop hkind) fun changed s₁ hs₁ => ?_
        obtain ⟨htweaked, hvirtual⟩ := hs₁
        split
        · rename_i hchanged
          obtain ⟨call', hop', hkind'⟩ := hvirtual hchanged
          exact Runs.bind (runs_specialize (hs.tweaked htweaked) hop' hkind')
            fun _ s₂ hs₂ => runs_pure (hstayed (htweaked.trans hs₂))
        · exact runs_pure (hstayed htweaked)
      · exact runs_pure (hstayed (.refl rfl rfl rfl rfl))
    | virtual =>
      exact Runs.bind (runs_specialize hs hop hkind) fun _ s₁ hs₁ => runs_pure (hstayed hs₁)
    | interface =>
      dsimp only
      split
      · refine Runs.bind (runs_interfaceToVirtual hI₀ hc₀ hs hx hi hahead hop hkind)
          fun moved s₁ hs₁ => ?_
        obtain ⟨hinv, hadvanced, hvisited⟩ := hs₁
        obtain ⟨op₀, hop₀⟩ := hold.exists_operation
        obtain ⟨op₁, hop₁, -⟩ := hinv.stage.rewritten.operation hop₀
        refine runs_query (call?_eq_ok hop₁) ?_
        split
        · rename_i hvirtual
          obtain ⟨call', hcall', hkind'⟩ := Option.map_eq_some_iff.1 hvirtual
          rw [Operation.call?_eq_some.1 hcall'] at hop₁
          exact Runs.bind (runs_specialize hinv hop₁ hkind') fun _ s₂ hs₂ =>
            runs_pure ⟨hinv.tweaked hs₂, .congr (.stayed rfl fun _ => rfl) hadvanced
              (.of_tweaks hs₂.body), hvisited.tail hs₂⟩
        · exact runs_pure ⟨hinv, hadvanced, hvisited⟩
      · exact runs_pure (hstayed (.refl rfl rfl rfl rfl))
  | _ => exact runs_pure (hstayed (.refl rfl rfl rfl rfl))

end Devirtualizing

end Devirt
