import Devirt.Proofs.Devirtualization.Preservation
import Devirt.Proofs.Devirtualization.Retargeting
import Devirt.Proofs.Devirtualization.Safety

/-!
The edits of devirtualization. Tweaks change calls, operands and values and leave the shape of the
body alone; a placement puts a cast before a call, and in a guarded block cuts the block there. Each
of them keeps the records of the body in order, and the body consistent as long as only safe splits
are made.
-/

namespace Devirt

open Relation

namespace Body

variable {h : Hierarchy} {c₀ c d : Body} {b p q s t : BlockId} {i j k : InstrId}
  {u v w old new : ValueId} {op : Operation} {x x₀ y : Block} {index : Nat} {jumps : List BlockId}

/-- The value `u` is a new cast of `r`. -/
def CastStep (c₀ c : Body) (u r : ValueId) : Prop :=
  ∃ k name, ¬ c₀.HasInstruction k ∧ c.operation k = .ok (.cast u r name)

theorem Stands.of_castSteps {r : ValueId} (hr : Stands c₀ c r w)
    (h : ReflTransGen (CastStep c₀ c) u r) : Stands c₀ c u w := by
  induction h using ReflTransGen.head_induction_on with
  | refl => exact hr
  | head hstep _ ih =>
    obtain ⟨k, name, hk, hop⟩ := hstep
    exact .cast hk hop ih

/-- The new value is there wherever the instruction stands. -/
def ReadyAt (c : Body) (v : ValueId) (i : InstrId) : Prop :=
  ∀ ⦃b x n⦄, c.block b = .ok x → x.instructions[n]? = some i → c.Reachable b → c.Ready v b n

/-- An instruction stands in one place. -/
theorem ReadyAt.of_place (hI : c.Arranged) {n : Nat} (hx : c.block b = .ok x)
    (hn : x.instructions[n]? = some i) (hready : c.Reachable b → c.Ready v b n) : c.ReadyAt v i := by
  intro b' x' n' hx' hn' hreach
  obtain rfl := hI.block_unique hx hx' (List.mem_of_getElem? hn) (List.mem_of_getElem? hn')
  obtain rfl := Except.ok.inj (hx.symm.trans hx')
  obtain rfl := (List.getElem?_inj (List.getElem?_eq_some_iff.1 hn).1 (hI.nodup hx)).1
    (hn.trans hn'.symm)
  exact hready hreach

/-- An edit that leaves the shape of the body alone. -/
inductive Tweak (h : Hierarchy) (c₀ c : Body) : Body → Prop
  | retarget {i : InstrId} {call : Call} {method : MethodRef} (hop : c.operation i = .ok (.call call))
      (htarget : Retargets h c call method) :
      Tweak h c₀ c (c.retargeted i call method)
  | createValue (type : StaticType) : Tweak h c₀ c (c.createValue type).2
  | setDynamic {v : ValueId} {y : Value} (r : Option ReferenceType) (hv : c.value v = .ok y)
      (hfresh : y.definition = .undefined) (hnew : ¬ c₀.HasValue v) :
      Tweak h c₀ c (c.updateValues fun u x => if u = v then { x with dynamic := r } else x)
  /-- The call reads a cast made before. -/
  | reuse {i : InstrId} {op : Operation} {old new : ValueId} (hi : c₀.HasInstruction i)
      (hop : c.operation i = .ok op)
      (hold : old ∈ op.operands) (hdef : ∃ r, CastStep c₀ c new r)
      (hcasts : ReflTransGen (CastStep c₀ c) new old) (hready : c.ReadyAt new i) :
      Tweak h c₀ c (c.redirected i old new)
  /-- An instruction reads the cast just made. -/
  | spread {i k : InstrId} {op : Operation} {old new : ValueId} {name : TypeName}
      (hk : ¬ c₀.HasInstruction k)
      (hcast : c.operation k = .ok (.cast new old name)) (hik : i ≠ k)
      (hop : c.operation i = .ok op) (hold : old ∈ op.operands) (hready : c.ReadyAt new i) :
      Tweak h c₀ c (c.redirected i old new)
  /-- A phi reads the cast just made. -/
  | spreadPhi {b : BlockId} {x : Block} {p : Phi} {k : InstrId} {old new : ValueId}
      {name : TypeName} {edges : List Bool} (hk : ¬ c₀.HasInstruction k)
      (hcast : c.operation k = .ok (.cast new old name)) (hx : c.block b = .ok x)
      (hp : p ∈ x.phis) (hmem : new ∈ redirectInputs old new p.operands edges)
      (hedges : ∀ (n : Nat) q, x.predecessors[n]? = some q → edges[n]? = some true →
        c.Reachable q → c.OnEdge new q b) :
      Tweak h c₀ c (c.phiRedirected b old new p.out (redirectInputs old new p.operands edges))

/-- A stage of devirtualization, reached from the consistent body `c₀`. -/
structure Stage (c₀ c : Body) : Prop where
  intact : c.Intact
  rewritten : Rewritten c₀ c
  consistent : (∀ b t, TailOf c₀ c b t → c₀.SplitSafe b) → c.Consistent

theorem Stage.refl (hI : c.Intact) (hc : c.Consistent) : Stage c c :=
  ⟨hI, .refl hI hc, fun _ => hc⟩

namespace Tweak

theorem sameShape (ht : Tweak h c₀ c d) : SameShape c d := by
  cases ht with
  | retarget hop _ => exact sameShape_replaced hop rfl
  | createValue type => exact sameShape_createValue
  | setDynamic r _ _ _ => exact sameShape_updateValues
  | reuse => exact sameShape_redirected
  | spread => exact sameShape_redirected
  | spreadPhi => exact sameShape_phiRedirected

theorem order_eq (ht : Tweak h c₀ c d) : d.order = c.order := by
  cases ht <;> rfl

theorem method_eq (ht : Tweak h c₀ c d) : d.method = c.method := by
  cases ht <;> rfl

theorem hasValue (ht : Tweak h c₀ c d) (hv : c.HasValue v) : d.HasValue v := by
  cases ht with
  | createValue type => exact hasValue_createValue.2 (.inl hv)
  | _ => simpa [phiRedirected] using hv

theorem describes (ht : Tweak h c₀ c d) {t : DominatorTree} (hc : Describes t c) :
    Describes t d := by
  intro a b hb
  rw [ht.sameShape.dominates_iff]
  exact hc a b (ht.sameShape.reachable_iff.1 hb)

private theorem isDefined_of_castStep {r : ValueId} (h : CastStep c₀ c u r) : c.IsDefined u := by
  obtain ⟨k, name, -, hop⟩ := h
  exact .inl ⟨k, _, hop, rfl⟩

private theorem hasValue_of_castStep {r : ValueId} (hI : c.Intact) (h : CastStep c₀ c u r) :
    c.HasValue u := by
  obtain ⟨k, name, -, hop⟩ := h
  exact hI.hasValue hop u (by simp [Operation.mentions, Operation.out?])

/-- A tweak leads from one stage to the next. -/
theorem stage (ht : Tweak h c₀ c d) (hs : Stage c₀ c) : Stage c₀ d := by
  have htails : (∀ b t, TailOf c₀ d b t → c₀.SplitSafe b) → c.Consistent :=
    fun hsafe => hs.consistent fun b t hbt => hsafe b t (ht.sameShape.tailOf_iff.2 hbt)
  have hI := hs.intact
  have hr := hs.rewritten
  cases ht with
  | retarget hop htarget =>
    exact ⟨hI.replaced hop rfl rfl, hr.retargeted hop,
      fun hsafe => (htails hsafe).replaced hop rfl rfl⟩
  | createValue type =>
    exact ⟨hI.createValue type, hr.createValue type, fun hsafe => (htails hsafe).createValue type⟩
  | setDynamic r hv hfresh hnew =>
    exact ⟨hI.updateValues fun v x => by split <;> simp, hr.updateValues _,
      fun hsafe => (htails hsafe).updateValues⟩
  | reuse hi hop hold hdef hcasts hready =>
    obtain ⟨r, hstep⟩ := hdef
    exact ⟨hI.redirected hop hold (hasValue_of_castStep hI hstep),
      hr.redirected_old hi fun _ hw => hw.of_castSteps hcasts,
      fun hsafe => (htails hsafe).redirected (isDefined_of_castStep hstep) fun hx => hready hx⟩
  | spread hk hcast hik hop hold hready =>
    have hstep : CastStep c₀ c _ _ := ⟨_, _, hk, hcast⟩
    exact ⟨hI.redirected hop hold (hasValue_of_castStep hI hstep),
      hr.redirected_cast hk hcast hik,
      fun hsafe => (htails hsafe).redirected (isDefined_of_castStep hstep) fun hx => hready hx⟩
  | spreadPhi hk hcast hx hp hmem hedges =>
    have hstep : CastStep c₀ c _ _ := ⟨_, _, hk, hcast⟩
    refine ⟨hI.phiRedirected ⟨_, hx, hp⟩ rfl (hasValue_of_castStep hI hstep) hmem
      (fun v hv => mem_redirectInputs hv) fun v hv hne => mem_redirectInputs_of_ne hv hne,
      hr.phiRedirected hI.toTracksPhis hx hp rfl fun _ hw => hw.of_castSteps (.single hstep),
      fun hsafe => (htails hsafe).phiRedirected hI hx hp (isDefined_of_castStep hstep) hedges⟩

end Tweak

/-- The place of an old instruction in a block that has not been cut, with no cast before it. -/
structure OldPlace (c₀ c : Body) (b : BlockId) (index : Nat) (i : InstrId) (x : Block) : Prop where
  block : c.block b = .ok x
  place : x.instructions[index]? = some i
  old : c₀.HasInstruction i
  spells : ∃ x₀, c₀.block b = .ok x₀ ∧ Spells c₀ c x₀ x.instructions
  unanchored : ∀ j ∈ (x.instructions.take index).getLast?, c₀.HasInstruction j

/-- The place of a call and the cast that is to be placed there. -/
structure CastPlace (h : Hierarchy) (c₀ c : Body) (b : BlockId) (index : Nat) (i : InstrId)
    (x : Block) (u r : ValueId) (name : TypeName) : Prop extends OldPlace c₀ c b index i x where
  call : ∃ call, c.operation i = .ok (.call call) ∧ call.kind = .virtual ∧ call.receiver? = some r
  value : ∃ y, c.value u = .ok y ∧ y.definition = .undefined ∧ ¬ c₀.HasValue u ∧
    ∃ z called target, c.value r = .ok z ∧ y.type = .ofClass name z.type.nullability ∧
      (y.dynamic = none ∨ y.dynamic = z.dynamic) ∧
      h.resolved .interface called z.bestType c.context = .single target ∧ target.holder = name

/-- A cast is placed before a call. -/
inductive Placement (h : Hierarchy) (c₀ c : Body) (b : BlockId) (index : Nat) (i : InstrId) :
    Moved → Body → Prop
  | insert {x : Block} {u r : ValueId} {name : TypeName}
      (hplace : CastPlace h c₀ c b index i x u r name)
      (hguard : x.isGuarded = false) :
      Placement h c₀ c b index i .shifted (c.inserted b index (.cast u r name))
  | cut {x : Block} {u r : ValueId} {name : TypeName} {jumps : List BlockId}
      (hplace : CastPlace h c₀ c b index i x u r name)
      (hguard : x.isGuarded = true) (hjumps : c.normalSuccessors b = .ok jumps) :
      Placement h c₀ c b index i (.split ⟨c.blocks.length⟩)
        ((c.splitted b index x jumps).inserted b index (.cast u r name))

namespace CastPlace

variable {r : ValueId} {name : TypeName}

theorem index_lt (hp : CastPlace h c₀ c b index i x u r name) : index < x.instructions.length :=
  (List.getElem?_eq_some_iff.1 hp.place).1

theorem instructions_eq (hp : CastPlace h c₀ c b index i x u r name) :
    x.instructions = x.instructions.take index ++ i :: x.instructions.drop (index + 1) := by
  obtain ⟨hlt, hi⟩ := List.getElem?_eq_some_iff.1 hp.place
  rw [← hi, ← List.drop_eq_getElem_cons hlt, List.take_append_drop]

theorem length_take (hp : CastPlace h c₀ c b index i x u r name) :
    (x.instructions.take index).length = index := by
  have := hp.index_lt
  simp only [List.length_take]
  omega

theorem castFor (hp : CastPlace h c₀ c b index i x u r name) (hs : Stage c₀ c) :
    CastFor c₀ c i u r := by
  obtain ⟨call, hcall, hkind, hreceiver⟩ := hp.call
  obtain ⟨y, -, -, hnew, -⟩ := hp.value
  obtain ⟨call₀, hcall₀⟩ := hs.rewritten.isCall_old hp.old ⟨call, hcall⟩
  obtain ⟨op, hop, hrender⟩ := hs.rewritten.operation hcall₀
  obtain rfl := Except.ok.inj (hcall.symm.trans hop)
  obtain ⟨w, hw, hstands⟩ := hrender.exists_receiver hreceiver
  exact ⟨hnew, ⟨call₀, w, hcall₀, hw, hstands⟩, call, hcall, hkind⟩

theorem mentions (hp : CastPlace h c₀ c b index i x u r name) :
    (∀ v ∈ (Operation.cast u r name).mentions, c.HasValue v) ∧
      ∀ v y, (Operation.cast u r name).out? = some v → c.value v = .ok y →
        y.definition = .undefined := by
  obtain ⟨y, hy, hfresh, -, z, -, -, hz, -⟩ := hp.value
  constructor
  · intro v hv
    have hv : v = u ∨ v = r := by
      simpa [Operation.mentions, Operation.out?, Operation.operands] using hv
    rcases hv with rfl | rfl
    · exact hasValue_of_value hy
    · exact hasValue_of_value hz
  · intro v y' hv hy'
    obtain rfl := Option.some.inj hv
    obtain rfl := Except.ok.inj (hy.symm.trans hy')
    exact hfresh

theorem not_isDefined (hp : CastPlace h c₀ c b index i x u r name) (hs : Stage c₀ c) :
    ¬ c.IsDefined u := by
  obtain ⟨y, hy, hfresh, -⟩ := hp.value
  rcases hs.intact.definition_cases hy with ⟨-, h⟩ | ⟨b, phi, h, -⟩ | ⟨i, y, h, -⟩
  · exact h
  · rw [hfresh] at h
    exact Definition.noConfusion h
  · rw [hfresh] at h
    exact Definition.noConfusion h

/-- The receiver is there where the call stands. -/
theorem ready (hp : CastPlace h c₀ c b index i x u r name) (hc : c.Consistent) :
    c.IsDefined r ∧ (c.Reachable b → c.Ready r b index) := by
  obtain ⟨call, hcall, -, hreceiver⟩ := hp.call
  exact hc.operands hp.block hp.place hcall r (List.mem_of_head? hreceiver)

end CastPlace

theorem CastFor.splitted {r : ValueId} (hc : CastFor c₀ c i u r) :
    CastFor c₀ (c.splitted b index x jumps) i u r := by
  obtain ⟨call₀, w, hcall₀, hw, hstands⟩ := hc.call
  exact ⟨hc.fresh, ⟨call₀, w, hcall₀, hw, hstands.congr fun _ hop => operation_splitted.2 (.inl hop)⟩,
    hc.dispatches.splitted⟩

/-- A cast is placed in a block without handlers. -/
theorem CastPlace.stage_inserted {r : ValueId} {name : TypeName}
    (hp : CastPlace h c₀ c b index i x u r name) (hs : Stage c₀ c) (hguard : x.isGuarded = false) :
    Stage c₀ (c.inserted b index (.cast u r name)) := by
  obtain ⟨hmentions, hfresh⟩ := hp.mentions
  obtain ⟨x₀, hx₀, hspells⟩ := hp.spells
  refine ⟨hs.intact.inserted hp.block (Nat.le_of_lt hp.index_lt) hmentions hfresh, ?_, fun hsafe => ?_⟩
  · have : Rewritten c₀ (c.inserted b (x.instructions.take index).length (.cast u r name)) :=
      hs.rewritten.inserted hs.intact.toArranged hx₀ hp.block hp.instructions_eq hp.unanchored
        hspells (hp.castFor hs)
    rwa [hp.length_take] at this
  · have hc := hs.consistent fun b t ht =>
      hsafe b t ((tailOf_inserted hs.intact.toArranged hp.block hp.index_lt).2 ht)
    refine Consistent.inserted hp.block hp.index_lt hc hs.intact rfl ?_ ?_ ?_
    · rintro w hw
      obtain rfl := Option.some.inj hw
      exact hp.not_isDefined hs
    · intro w hw
      obtain rfl : w = r := by simpa [Operation.operands] using hw
      exact hp.ready hc
    · intro hguard'
      rw [hguard] at hguard'
      exact Bool.noConfusion hguard'

/-- A guarded block is cut and a cast is placed at the end of its head. -/
theorem CastPlace.stage_cut (hI₀ : c₀.Intact) (hc₀ : c₀.Consistent) {r : ValueId} {name : TypeName}
    (hp : CastPlace h c₀ c b index i x u r name) (hs : Stage c₀ c) (hguard : x.isGuarded = true)
    (hjumps : c.normalSuccessors b = .ok jumps) :
    Stage c₀ ((c.splitted b index x jumps).inserted b index (.cast u r name)) := by
  obtain ⟨hmentions, hfresh⟩ := hp.mentions
  obtain ⟨x₀, hx₀, hspells⟩ := hp.spells
  obtain ⟨call, hcall, hkind, hreceiver⟩ := hp.call
  have hlt := hp.index_lt
  have hb := hasBlock_of_block hp.block
  have hpoint : c.SplitPoint b index x jumps :=
    ⟨hp.block, hguard, ⟨i, _, hp.place, hcall, rfl⟩, hjumps⟩
  have hI : (c.splitted b index x jumps).Intact := hs.intact.splitted hp.block
  have hx' := @block_splitted_head c b index x jumps hp.block
  generalize hz : ({ relinked b ⟨c.blocks.length⟩ jumps x.handlers b x with
    instructions := x.instructions.take index ++ [⟨c.instructions.length⟩] } : Block) = z at hx'
  have hins : z.instructions = x.instructions.take index ++ [⟨c.instructions.length⟩] := by rw [← hz]
  have hindex : index < z.instructions.length := by
    rw [hins, List.length_append, hp.length_take]
    simp
  have hold := hs.rewritten.isCall_old hp.old ⟨call, hcall⟩
  have hr := hs.rewritten.splitted hI₀.toArranged hc₀.closed hs.intact hx₀ hp.block hspells hguard
    hp.place hold ⟨call, hcall, hkind⟩ hjumps
  have hcut := hs.rewritten.cut_splitted hx₀ hp.block hspells hguard hp.place hold
    ⟨call, hcall, hkind⟩ hx'
  refine ⟨hI.inserted hx' (Nat.le_of_lt hindex) (by simpa using hmentions) (by simpa using hfresh),
    ?_, fun hsafe => ?_⟩
  · have : Rewritten c₀ ((c.splitted b index x jumps).inserted b (x.instructions.take index).length
        (.cast u r name)) :=
      hr.inserted_head hI.toArranged hx₀ hx' hcut hins hp.unanchored block_splitted_tail
        (by rw [splitTail, List.head?_drop, hp.place]) (hp.castFor hs).splitted
    rwa [hp.length_take] at this
  · have htails : ∀ {p t}, (p = b ∧ t = ⟨c.blocks.length⟩) ∨ TailOf c₀ c p t →
        c₀.SplitSafe p := fun ht =>
      hsafe _ _ ((tailOf_inserted hI.toArranged hx' hindex).2
        ((hs.rewritten.tailOf_splitted hI₀.toArranged hc₀.closed hs.intact hx₀ hp.block hspells
          hlt).2 ht))
    have hc := hs.consistent fun p t ht => htails (.inr ht)
    have hsafe := hs.rewritten.splitSafe hI₀ hc₀ hs.intact hc hx₀ hp.block hspells
      (htails (.inl ⟨rfl, rfl⟩))
    have hc' := hpoint.consistent hs.intact hc hsafe
    refine Consistent.inserted hx' hindex hc' hI rfl ?_ ?_ ?_
    · intro w hw hdef
      obtain rfl := Option.some.inj hw
      exact hp.not_isDefined hs (isDefined_splitted.1 hdef)
    · intro w hw
      obtain rfl : w = r := by simpa [Operation.operands] using hw
      have hfirst : (splitTail b index x).instructions[0]? = some i := by
        rw [splitTail, List.getElem?_drop, Nat.add_zero, hp.place]
      refine ⟨(hc'.operands block_splitted_tail hfirst (operation_splitted.2 (.inl hcall)) w
        (List.mem_of_head? hreceiver)).1, fun hreach => ?_⟩
      have hreach := reachable_unsplit hs.intact hp.block hlt hc.closed hreach
      rw [hb.unsplit] at hreach
      exact hpoint.ready hs.intact hc (.inr (.inl ⟨rfl, Nat.le_refl _, rfl, rfl⟩)) hreach
        (fun _ _ hreaches => hreaches.choose_spec.2.ne rfl) ((hp.ready hc).2 hreach)
    · intro _ _ j hj op' hop'
      exact hpoint.canThrow_head hs.intact hc (hins ▸ hj) hop'

/-- A placement leads from one stage to the next. -/
theorem Placement.stage {moved : Moved} (hI₀ : c₀.Intact) (hc₀ : c₀.Consistent)
    (hp : Placement h c₀ c b index i moved d) (hs : Stage c₀ c) : Stage c₀ d := by
  cases hp with
  | insert hplace hguard => exact hplace.stage_inserted hs hguard
  | cut hplace hguard hjumps => exact hplace.stage_cut hI₀ hc₀ hs hguard hjumps

end Body

end Devirt
