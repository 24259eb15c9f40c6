import Devirt.Devirtualization.Pass
import Devirt.Proofs.Body.Edit
import Devirt.Proofs.Body.Uses
import Devirt.Proofs.Dispatch.Resolution
import Devirt.Proofs.Types.Order

/-!
What a step of devirtualization has done if it succeeds, on any body at all. Narrowing the receiver
of a call adds values and instructions that call nothing, and lets instructions read a cast in the
place of the receiver. Outside of the call itself the cast is read only if its type is at least as
precise. What every visit keeps is kept by a whole walk.
-/

namespace Devirt

namespace Devirtualizing

variable {h : Hierarchy} {α β : Type} {s s' : Devirtualization.State h}

/-! ### Taking apart a successful step -/

theorem run_bind_eq_ok {m : Devirtualizing h α} {g : α → Devirtualizing h β} {b : β} :
    (m >>= g).run s = .ok (b, s') ↔
      ∃ a s₁, m.run s = .ok (a, s₁) ∧ (g a).run s₁ = .ok (b, s') := by
  rw [StateT.run_bind, bind_eq_ok, Prod.exists]

theorem run_pure_eq_ok {a b : α} :
    (pure a : Devirtualizing h α).run s = .ok (b, s') ↔ a = b ∧ s = s' := by
  simp [StateT.run_pure]

theorem run_get_eq_ok {a : Devirtualization.State h} :
    (get : Devirtualizing h _).run s = .ok (a, s') ↔ s = a ∧ s = s' := by
  simp [StateT.run_get]

theorem run_modify_eq_ok {f : Devirtualization.State h → Devirtualization.State h} {u : PUnit} :
    (modify f : Devirtualizing h PUnit).run s = .ok (u, s') ↔ f s = s' := by
  simp [StateT.run_modify]

theorem run_count_eq_ok {f : CallStats → CallStats} {u : Unit} :
    (count f : Devirtualizing h Unit).run s = .ok (u, s') ↔ { s with stats := f s.stats } = s' :=
  run_modify_eq_ok

theorem run_affect_eq_ok {l : List ValueId} {u : Unit} :
    (affect l : Devirtualizing h Unit).run s = .ok (u, s') ↔
      { s with affected := s.affected.insertAll l } = s' :=
  run_modify_eq_ok

theorem run_liftM_eq_ok {e : Except Fault α} {a : α} :
    (liftM e : Devirtualizing h α).run s = .ok (a, s') ↔ e = .ok a ∧ s = s' := by
  simp [StateT.run_monadLift]

theorem run_query_eq_ok {f : Body → Except Fault α} {a : α} :
    (query f : Devirtualizing h α).run s = .ok (a, s') ↔ f s.body = .ok a ∧ s = s' := by
  simp [query, StateT.run_bind, StateT.run_monadLift]

theorem run_edit_eq_ok {f : Body → Except Fault Body} {u : Unit} :
    (edit f : Devirtualizing h Unit).run s = .ok (u, s') ↔
      ∃ c, f s.body = .ok c ∧ { s with body := c } = s' := by
  simp [edit, StateT.run_bind, StateT.run_monadLift]

theorem run_editWith (f : Body → Except Fault (α × Body)) :
    (editWith f : Devirtualizing h α).run s =
      (fun p => (p.1, { s with body := p.2 })) <$> f s.body := by
  cases hf : f s.body <;> simp [editWith, StateT.run_bind, StateT.run_monadLift, hf]

theorem run_editWith_eq_ok {f : Body → Except Fault (α × Body)} {a : α} :
    (editWith f : Devirtualizing h α).run s = .ok (a, s') ↔
      ∃ c, f s.body = .ok (a, c) ∧ { s with body := c } = s' := by
  simp [run_editWith]

theorem run_rebuildTree_eq_ok {u : Unit} :
    (rebuildTree : Devirtualizing h Unit).run s = .ok (u, s') ↔
      ∃ t, s.body.dominators = .ok t ∧ { s with tree := t } = s' := by
  simp [rebuildTree, StateT.run_bind, StateT.run_monadLift]

theorem run_resolve_eq_ok {kind : DispatchKind} {method : MethodRef} {receiver : StaticType}
    {a : Selection MethodRef} :
    (resolve kind method receiver : Devirtualizing h _).run s = .ok (a, s') ↔
      h.resolved kind method receiver s.body.context = a ∧
        { s with
          resolver := (s.resolver.resolve kind method receiver s.body.context).2 } = s' := by
  simp [resolve, StateT.run_bind, Hierarchy.resolve_fst]

end Devirtualizing

/-! ### Growing bodies -/

/-- As much is known of the one value as of the other. -/
def Value.SameKnown (x y : Value) : Prop := x.type = y.type ∧ x.dynamic = y.dynamic

theorem Value.SameKnown.refl (x : Value) : x.SameKnown x := ⟨rfl, rfl⟩

theorem Value.SameKnown.trans {x y z : Value} (hxy : x.SameKnown y) (hyz : y.SameKnown z) :
    x.SameKnown z := ⟨hxy.1.trans hyz.1, hxy.2.trans hyz.2⟩

theorem Value.SameKnown.bestType {x y : Value} (hxy : x.SameKnown y) : x.bestType = y.bestType := by
  rw [Value.bestType, Value.bestType, hxy.1, hxy.2]

/-- The body `d` has come from `c` by adding values, and instructions of which `P` holds. -/
structure Body.GrowsBy (P : Operation → Prop) (c d : Body) : Prop where
  method : d.method = c.method
  value : ∀ v x, c.value v = .ok x → ∃ y, d.value v = .ok y ∧ y.SameKnown x
  operation : ∀ i op, c.operation i = .ok op → d.operation i = .ok op
  added : ∀ i op, d.operation i = .ok op → c.operation i = .ok op ∨ P op

/-- None of the instructions that have been added is a call. -/
abbrev Body.Grows : Body → Body → Prop := Body.GrowsBy fun op => op.call? = none

namespace Body

variable {h : Hierarchy} {c d e : Body} {b : BlockId} {i k : InstrId} {u v old new : ValueId}
  {free : List InstrId} {x : Value} {op : Operation} {P : Operation → Prop}

namespace GrowsBy

/-- Values of the same types, read by the same instructions. -/
theorem of_operation_eq (hmethod : d.method = c.method)
    (hvalue : ∀ v x, c.value v = .ok x → ∃ y, d.value v = .ok y ∧ y.SameKnown x)
    (hop : ∀ i, d.operation i = c.operation i) : GrowsBy P c d :=
  ⟨hmethod, hvalue, fun i _ hi => (hop i).trans hi, fun i _ hi => .inl ((hop i).symm.trans hi)⟩

theorem refl (c : Body) : GrowsBy P c c :=
  of_operation_eq rfl (fun _ x hx => ⟨x, hx, .refl x⟩) fun _ => rfl

theorem trans (hcd : GrowsBy P c d) (hde : GrowsBy P d e) : GrowsBy P c e where
  method := hde.method.trans hcd.method
  value v x hx := by
    obtain ⟨y, hy, hxy⟩ := hcd.value v x hx
    obtain ⟨z, hz, hyz⟩ := hde.value v y hy
    exact ⟨z, hz, hyz.trans hxy⟩
  operation i op hi := hde.operation i op (hcd.operation i op hi)
  added i op hi := (hde.added i op hi).elim (hcd.added i op) .inr

end GrowsBy

theorem grows_createValue (type : StaticType) : GrowsBy P c (c.createValue type).2 :=
  .of_operation_eq rfl (fun _ x hx => ⟨x, value_createValue.2 (.inl hx), .refl x⟩) fun _ => rfl

/-- What is told of a new value is nothing new about the others. -/
theorem grows_createValue_setDynamic {type : StaticType} {dynamic : Option ReferenceType}
    (hd : (c.createValue type).2.setDynamic (c.createValue type).1 dynamic = .ok d) :
    GrowsBy P c d := by
  obtain ⟨-, rfl⟩ := modifyValue_eq_ok.1 hd
  refine .of_operation_eq rfl (fun v x hx => ?_) fun _ => rfl
  refine ⟨_, value_updateValues.2 ⟨x, value_createValue.2 (.inl hx), rfl⟩, ?_⟩
  rw [if_neg fun hv => not_hasValue_next (hv ▸ hasValue_of_value hx)]
  exact .refl x

theorem grows_modifyBlock {f : Block → Block} (hd : c.modifyBlock b f = .ok d) : GrowsBy P c d := by
  obtain ⟨-, rfl⟩ := modifyBlock_eq_ok.1 hd
  exact .of_operation_eq rfl (fun v x hx => ⟨x, hx, .refl x⟩) fun _ => rfl

theorem grows_moveInstruction
    (hd : c.modifyInstruction i (fun x => { x with block := b }) = .ok d) : GrowsBy P c d := by
  obtain ⟨-, rfl⟩ := modifyInstruction_eq_ok.1 hd
  refine .of_operation_eq rfl (fun v x hx => ⟨x, hx, .refl x⟩) fun j => ?_
  exact operation_updateInstructions _ fun _ _ => by split <;> rfl

theorem grows_insertAt {index : Nat} (hop : P op)
    (hd : c.insertAt b index op = .ok (k, d)) : GrowsBy P c d := by
  obtain ⟨-, -, rfl, rfl⟩ := insertAt_eq_ok.1 hd
  refine ⟨rfl, fun v x hx => ⟨_, value_inserted.2 ⟨x, hx, rfl⟩, .refl _⟩,
    fun i op' hi => operation_inserted.2 (.inl hi), fun i op' hi => ?_⟩
  rcases operation_inserted.1 hi with hi | ⟨-, rfl⟩
  · exact .inl hi
  · exact .inr hop

theorem grows_append (hop : P op) (hd : c.append b op = .ok (k, d)) : GrowsBy P c d := by
  simp only [append, bind_eq_ok] at hd
  obtain ⟨x, -, hd⟩ := hd
  exact grows_insertAt hop hd

theorem grows_foldlM {α : Type} {f : Body → α → Except Fault Body} {l : List α}
    (hd : l.foldlM f c = .ok d) (hstep : ∀ a c' d', f c' a = .ok d' → GrowsBy P c' d') :
    GrowsBy P c d :=
  foldlM_invariant (GrowsBy P c) hd (.refl c) fun a _ x y hx hy => hx.trans (hstep a x y hy)

theorem grows_split {index : Nat} {tail : BlockId} (hgoto : ∀ t, P (.goto t))
    (hd : c.split b index = .ok (tail, d)) : GrowsBy P c d := by
  simp only [split, bind_eq_ok] at hd
  obtain ⟨x, -, hd⟩ := hd
  split at hd
  · simp at hd
  · simp only [bind_eq_ok, pure_eq_ok, Except.ok.injEq, Prod.mk.injEq, Prod.exists] at hd
    obtain ⟨c₁, h₁, c₂, h₂, jumps, -, c₃, h₃, c₄, h₄, k, c₅, h₅, -, rfl⟩ := hd
    have hcut : GrowsBy P c c₂ :=
      (grows_modifyBlock h₁).trans (grows_foldlM h₂ fun _ _ _ => grows_moveInstruction)
    have hlink : GrowsBy P _ c₄ := (grows_foldlM h₃ fun _ _ _ => grows_modifyBlock).trans
      (grows_foldlM h₄ fun _ _ _ => grows_modifyBlock)
    -- adding the tail and counting the change touch neither instructions nor values
    have hgrown := GrowsBy.of_operation_eq (P := P) (c := c₂) (d := { c₂ with
      blocks := c₂.blocks ++
        [{ instructions := x.instructions.drop index, predecessors := [b], handlers := x.handlers }]
      order := layoutAfter c₂.order b ⟨c.blocks.length⟩ }) rfl (fun _ x hx => ⟨x, hx, .refl x⟩)
      fun _ => rfl
    have hcounted := GrowsBy.of_operation_eq (P := P) (c := c₅)
      (d := { c₅ with version := c₅.version + 1 }) rfl (fun _ x hx => ⟨x, hx, .refl x⟩) fun _ => rfl
    exact (((hcut.trans hgrown).trans hlink).trans (grows_append (hgoto _) h₅)).trans hcounted

end Body

/-! ### Reading another value -/

/-- The body `d` has come from `c` by letting instructions read `new` in the place of `old`. -/
structure Body.Rereads (old new : ValueId) (c d : Body) : Prop where
  method : d.method = c.method
  value : ∀ v x, c.value v = .ok x → ∃ y, d.value v = .ok y ∧ y.SameKnown x
  operation : ∀ i, ∃ f, (∀ op', d.operation i = .ok op' ↔
    ∃ op, c.operation i = .ok op ∧ op.mapOperands f = op') ∧ ∀ v, f v = v ∨ v = old ∧ f v = new

namespace Body

variable {h : Hierarchy} {c d e : Body} {i j k : InstrId} {old new : ValueId}

namespace Rereads

theorem of_operation_eq (hmethod : d.method = c.method)
    (hvalue : ∀ v x, c.value v = .ok x → ∃ y, d.value v = .ok y ∧ y.SameKnown x)
    (hop : ∀ i, d.operation i = c.operation i) : Rereads old new c d where
  method := hmethod
  value := hvalue
  operation i := ⟨fun v => v, by simp [hop, Operation.mapOperands_id], fun v => .inl rfl⟩

theorem refl (old new : ValueId) (c : Body) : Rereads old new c c :=
  of_operation_eq rfl (fun _ x hx => ⟨x, hx, .refl x⟩) fun _ => rfl

theorem trans (hcd : Rereads old new c d) (hde : Rereads old new d e) : Rereads old new c e where
  method := hde.method.trans hcd.method
  value v x hx := by
    obtain ⟨y, hy, hxy⟩ := hcd.value v x hx
    obtain ⟨z, hz, hyz⟩ := hde.value v y hy
    exact ⟨z, hz, hyz.trans hxy⟩
  operation i := by
    obtain ⟨f, hf, hold⟩ := hcd.operation i
    obtain ⟨g, hg, hnew⟩ := hde.operation i
    refine ⟨g ∘ f, ?_, fun v => ?_⟩
    · intro op'
      simp only [hg, hf, ← Operation.mapOperands_mapOperands]
      constructor
      · rintro ⟨_, ⟨op, hop, rfl⟩, rfl⟩
        exact ⟨op, hop, rfl⟩
      · rintro ⟨op, hop, rfl⟩
        exact ⟨_, ⟨op, hop, rfl⟩, rfl⟩
    · rcases hold v with hv | ⟨rfl, hv⟩
      · rw [Function.comp, hv]
        exact hnew v
      · right
        rw [Function.comp, hv]
        rcases hnew new with hw | ⟨-, hw⟩ <;> exact ⟨rfl, hw⟩

/-- Calls come from calls of the same method. -/
theorem exists_call (hcd : Rereads old new c d) {call' : Call}
    (hop : d.operation i = .ok (.call call')) :
    ∃ call f, c.operation i = .ok (.call call) ∧
      call' = { call with arguments := call.arguments.map f } ∧
      ∀ v, f v = v ∨ v = old ∧ f v = new := by
  obtain ⟨f, hf, hread⟩ := hcd.operation i
  obtain ⟨op, hop, hcall⟩ := (hf _).1 hop
  cases op with
  | call call => exact ⟨call, f, hop, (Operation.call.inj hcall).symm, hread⟩
  | _ => simp [Operation.mapOperands] at hcall

end Rereads

theorem rereads_redirectOperand {changed : Bool}
    (hd : c.redirectOperand i old new = .ok (changed, d)) : Rereads old new c d := by
  obtain ⟨op, hop, hd⟩ := redirectOperand_eq_ok.1 hd
  split at hd
  · obtain ⟨-, -, -, rfl⟩ := hd
    refine ⟨rfl, fun v x hx => ⟨_, value_redirected.2 ⟨x, hx, rfl⟩, .refl _⟩, fun j => ?_⟩
    by_cases hj : j = i
    · refine ⟨fun v => if v = old then new else v, fun op' => ?_, fun v => ?_⟩
      · rw [operation_redirected]
        simp only [if_pos hj, Operation.replaceOperand]
      · by_cases hv : v = old <;> simp [hv]
    · refine ⟨fun v => v, fun op' => ?_, fun v => .inl rfl⟩
      rw [operation_redirected]
      simp only [if_neg hj, Operation.mapOperands_id]
  · rw [hd.2]
    exact .refl old new c

theorem operation_redirectOperand {changed : Bool} {op : Operation}
    (hd : c.redirectOperand i old new = .ok (changed, d)) (hop : c.operation i = .ok op)
    (hold : old ∈ op.operands) : d.operation i = .ok (op.replaceOperand old new) := by
  obtain ⟨op', hop', hd⟩ := redirectOperand_eq_ok.1 hd
  obtain rfl := Except.ok.inj (hop.symm.trans hop')
  rw [if_pos hold] at hd
  obtain ⟨-, -, -, rfl⟩ := hd
  exact operation_redirected.2 ⟨op, hop, if_pos rfl⟩

theorem operation_redirectOperand_of_ne {changed : Bool} {op : Operation} (hj : j ≠ i)
    (hd : c.redirectOperand i old new = .ok (changed, d)) :
    d.operation j = .ok op ↔ c.operation j = .ok op := by
  obtain ⟨op', -, hd⟩ := redirectOperand_eq_ok.1 hd
  split at hd
  · obtain ⟨-, -, -, rfl⟩ := hd
    rw [operation_redirected]
    simp [hj]
  · rw [hd.2]

/-- Phis are no instructions. -/
theorem rereads_redirectPhi {t : DominatorTree} {phi : ValueId} {changed : Bool}
    (hd : c.redirectPhi t old new phi = .ok (changed, d)) : Rereads old new c d := by
  rcases redirectPhi_eq_ok hd with ⟨-, rfl⟩ | ⟨b, x, p, edges, -, -, -, -, -, -, -, rfl⟩
  · exact .refl old new d
  · exact .of_operation_eq rfl (fun v x hx => ⟨_, value_phiRedirected.2 ⟨x, hx, rfl⟩, .refl _⟩)
      fun _ => rfl

theorem rereads_redirectUses {t : DominatorTree} {excluded : List InstrId} {replaced : Redirected}
    (hd : c.redirectUses t old new k excluded = .ok (replaced, d)) : Rereads old new c d :=
  redirectUses_invariant (Rereads old new c) hd (.refl old new c)
    (fun _ _ _ _ _ he hstep => he.trans (rereads_redirectOperand hstep))
    fun _ _ _ _ he hstep => he.trans (rereads_redirectPhi hstep)

/-- The type of `new` is at least as precise as that of `old`. -/
def Sharpens (h : Hierarchy) (c : Body) (old new : ValueId) : Prop :=
  ∃ x y, c.value old = .ok x ∧ c.value new = .ok y ∧ y.type.le h x.type = true

end Body

/-! ### Narrowing the receiver of a call -/

namespace Devirtualizing

variable {h : Hierarchy} {s s' : Devirtualization.State h} {i k : InstrId} {index : Nat}
  {receiver v : ValueId} {holder : TypeName} {type : StaticType} {moved : Moved}

/-- The step adds to the body, keeps no further cast and changes no call. -/
structure Adds (s s' : Devirtualization.State h) : Prop where
  body : s.body.Grows s'.body
  casts : s'.casts = s.casts
  total : s'.stats.total = s.stats.total

theorem Adds.refl (s : Devirtualization.State h) : Adds s s := ⟨.refl _, rfl, rfl⟩

theorem Adds.trans {s₁ : Devirtualization.State h} (hs : Adds s s₁) (hs' : Adds s₁ s') :
    Adds s s' :=
  ⟨hs.body.trans hs'.body, hs'.casts.trans hs.casts, hs'.total.trans hs.total⟩

/-- A value is created, and may be told what is known of the receiver at run time. -/
theorem newCastValue_cases (hrun : (newCastValue receiver holder type).run s = .ok (v, s')) :
    v = (s.body.createValue type).1 ∧ ∃ c, s' = { s with body := c } ∧
      (c = (s.body.createValue type).2 ∨
        ∃ r, (s.body.createValue type).2.setDynamic v (some r) = .ok c) := by
  simp only [newCastValue, run_bind_eq_ok, run_editWith_eq_ok, run_query_eq_ok] at hrun
  obtain ⟨v', s₁, ⟨c, hc, rfl⟩, x, s₂, ⟨-, rfl⟩, hrun⟩ := hrun
  obtain ⟨rfl, rfl⟩ := Prod.mk.inj (Except.ok.inj hc)
  split at hrun
  · rename_i r hr
    split at hrun
    · rw [run_bind_eq_ok] at hrun
      obtain ⟨u, s₁, hedit, hrun⟩ := hrun
      obtain ⟨c, hset, rfl⟩ := run_edit_eq_ok.1 hedit
      obtain ⟨rfl, rfl⟩ := run_pure_eq_ok.1 hrun
      exact ⟨rfl, c, rfl, .inr ⟨r, hset⟩⟩
    · obtain ⟨rfl, rfl⟩ := run_pure_eq_ok.1 hrun
      exact ⟨rfl, _, rfl, .inl rfl⟩
  · obtain ⟨rfl, rfl⟩ := run_pure_eq_ok.1 hrun
    exact ⟨rfl, _, rfl, .inl rfl⟩

theorem growsBy_newCastValue {P : Operation → Prop}
    (hrun : (newCastValue receiver holder type).run s = .ok (v, s')) :
    s.body.GrowsBy P s'.body := by
  obtain ⟨rfl, c, rfl, rfl | ⟨r, hset⟩⟩ := newCastValue_cases hrun
  · exact Body.grows_createValue type
  · exact Body.grows_createValue_setDynamic hset

theorem run_newCastValue (hrun : (newCastValue receiver holder type).run s = .ok (v, s')) :
    Adds s s' ∧ ¬ s.body.HasValue v ∧ ∃ y, s'.body.value v = .ok y ∧ y.type = type := by
  have hgrows : s.body.Grows s'.body := growsBy_newCastValue hrun
  have hvalue : (s.body.createValue type).2.value (s.body.createValue type).1 =
      .ok { type } := Body.value_createValue.2 (.inr ⟨rfl, rfl⟩)
  obtain ⟨rfl, c, rfl, rfl | ⟨r, hset⟩⟩ := newCastValue_cases hrun
  · exact ⟨⟨hgrows, rfl, rfl⟩, Body.not_hasValue_next, _, hvalue, rfl⟩
  · refine ⟨⟨hgrows, rfl, rfl⟩, Body.not_hasValue_next, ?_⟩
    obtain ⟨-, rfl⟩ := Body.modifyValue_eq_ok.1 hset
    exact ⟨_, Body.value_updateValues.2 ⟨_, hvalue, rfl⟩, by rw [if_pos rfl]⟩

/-- How room is made for a cast at the index of a block: the block stays whole, or it is split
there. -/
inductive MakesRoom (s : Devirtualization.State h) (b : BlockId) (index : Nat) :
    Moved → Body → CallStats → Prop
  | whole : MakesRoom s b index .shifted s.body s.stats
  | split {tail : BlockId} {c : Body} (hsplit : s.body.split b index = .ok (tail, c)) :
      MakesRoom s b index (.split tail) c { s.stats with blocksSplit := s.stats.blocksSplit + 1 }

/-- A guarded block is split before the cast is placed at the end of the part that comes first. -/
theorem placeCast_cases
    (hrun : (placeCast i index receiver holder type).run s = .ok ((k, v, moved), s')) :
    ∃ s₁ b c stats, (newCastValue receiver holder type).run s = .ok (v, s₁) ∧
      s₁.body.blockOf i = .ok b ∧ MakesRoom s₁ b index moved c stats ∧
      c.insertAt b index (.cast v receiver holder) = .ok (k, s'.body) ∧
      s'.casts = s₁.casts ∧ s'.affected = s₁.affected ∧
      s'.stats = { stats with castsInserted := stats.castsInserted + 1 } := by
  simp only [placeCast, run_bind_eq_ok, run_query_eq_ok] at hrun
  obtain ⟨v', s₁, hnew, b, s₂, ⟨hb, rfl⟩, x, s₃, ⟨-, rfl⟩, hrun⟩ := hrun
  split at hrun
  · simp only [run_bind_eq_ok, run_editWith_eq_ok, run_count_eq_ok, run_rebuildTree_eq_ok,
      run_pure_eq_ok] at hrun
    obtain ⟨tail, _, ⟨c, hsplit, rfl⟩, _, _, rfl, k', _, ⟨d, hinsert, rfl⟩, _, _, ⟨t, -, rfl⟩,
      _, _, rfl, hout, rfl⟩ := hrun
    simp only [Prod.mk.injEq] at hout
    obtain ⟨rfl, rfl, rfl⟩ := hout
    exact ⟨s₁, b, c, _, hnew, hb, .split hsplit, hinsert, rfl, rfl, rfl⟩
  · simp only [run_bind_eq_ok, run_editWith_eq_ok, run_count_eq_ok, run_pure_eq_ok] at hrun
    obtain ⟨k', _, ⟨d, hinsert, rfl⟩, _, _, rfl, hout, rfl⟩ := hrun
    simp only [Prod.mk.injEq] at hout
    obtain ⟨rfl, rfl, rfl⟩ := hout
    exact ⟨s₁, b, _, _, hnew, hb, .whole, hinsert, rfl, rfl, rfl⟩

theorem run_placeCast
    (hrun : (placeCast i index receiver holder type).run s = .ok ((k, v, moved), s')) :
    Adds s s' ∧ ¬ s.body.HasValue v ∧ ∃ y, s'.body.value v = .ok y ∧ y.type = type := by
  obtain ⟨s₁, b, c, stats, hnew, -, hroom, hinsert, hcasts, -, hstats⟩ := placeCast_cases hrun
  obtain ⟨hadds, hfresh, y, hy, htype⟩ := run_newCastValue hnew
  have hgrows : s₁.body.Grows c ∧ stats.total = s₁.stats.total := by
    cases hroom with
    | whole => exact ⟨.refl _, rfl⟩
    | split hsplit => exact ⟨Body.grows_split (fun _ => rfl) hsplit, rfl⟩
  have hkeep : Adds s₁ s' := ⟨hgrows.1.trans (Body.grows_insertAt rfl hinsert), hcasts, by
    rw [hstats]
    exact hgrows.2⟩
  obtain ⟨z, hz, hyz⟩ := hkeep.body.value _ _ hy
  exact ⟨hadds.trans hkeep, hfresh, z, hz, hyz.1.trans htype⟩

/-- A cast is read in other places only if the receiver has no name and the type of the cast says
at least as much. -/
theorem spreadCast_cases {u : Unit} (hrun : (spreadCast i receiver type k v).run s = .ok (u, s')) :
    s'.casts = s.casts ∧ s'.stats = s.stats ∧ (∀ w ∈ s.affected, w ∈ s'.affected) ∧
      (s'.body = s.body ∨
        (∃ tree excluded replaced,
          s.body.redirectUses tree receiver v k excluded = .ok (replaced, s'.body)) ∧
          ∃ x, s.body.value receiver = .ok x ∧ x.isNamed = false ∧ type.le h x.type = true) := by
  simp only [spreadCast, run_bind_eq_ok, run_query_eq_ok] at hrun
  obtain ⟨x, s₁, ⟨hx, rfl⟩, hrun⟩ := hrun
  split at hrun
  · rename_i hsharp
    rw [Bool.and_eq_true, Bool.not_eq_true'] at hsharp
    simp only [run_bind_eq_ok, run_get_eq_ok, run_editWith_eq_ok, run_query_eq_ok,
      run_affect_eq_ok] at hrun
    obtain ⟨_, _, ⟨rfl, rfl⟩, replaced, _, ⟨d, hspread, rfl⟩, _, _, ⟨-, rfl⟩, rfl⟩ := hrun
    exact ⟨rfl, rfl, fun w hw => OrderedSet.mem_insertAll.2 (.inl hw),
      .inr ⟨⟨_, _, replaced, hspread⟩, x, hx, hsharp⟩⟩
  · obtain ⟨-, rfl⟩ := run_pure_eq_ok.1 hrun
    exact ⟨rfl, rfl, fun w hw => hw, .inl rfl⟩

theorem run_cachedCast? {b : BlockId} {cast? : Option ValueId}
    (hrun : (cachedCast? receiver holder b).run s = .ok (cast?, s')) :
    s' = s ∧ ∀ cast ∈ cast?, ((receiver, holder), cast) ∈ s.casts := by
  simp only [cachedCast?, run_bind_eq_ok, run_get_eq_ok] at hrun
  obtain ⟨_, _, ⟨rfl, rfl⟩, hrun⟩ := hrun
  split at hrun
  · rename_i cast hcast
    simp only [run_bind_eq_ok, run_liftM_eq_ok] at hrun
    obtain ⟨reaches, _, ⟨-, rfl⟩, hrun⟩ := hrun
    split at hrun
    · obtain ⟨rfl, rfl⟩ := run_pure_eq_ok.1 hrun
      refine ⟨rfl, fun cast' hmem => ?_⟩
      obtain rfl := Option.some.inj hmem
      obtain ⟨before, after, hcasts, -⟩ := List.lookup_eq_some_iff.1 hcast
      simp [hcasts]
    · obtain ⟨rfl, rfl⟩ := run_pure_eq_ok.1 hrun
      simp
  · obtain ⟨rfl, rfl⟩ := run_pure_eq_ok.1 hrun
    simp

/-- The call reads a cast in the place of its receiver. Others may be let read it as well, if its
type says at least as much. -/
inductive ReadsCast (i : InstrId) (receiver cast : ValueId) (s s' : Devirtualization.State h) : Prop
  | intro {s₁ : Devirtualization.State h} {changed : Bool} {c : Body} (adds : Adds s s₁)
      (reads : s₁.body.redirectOperand i receiver cast = .ok (changed, c))
      (spread : c.Rereads receiver cast s'.body)
      (sharp : s'.body = c ∨ s'.body.Sharpens h receiver cast)
      (total : s'.stats.total = s.stats.total)

namespace ReadsCast

variable {cast : ValueId} (hr : ReadsCast i receiver cast s s')

include hr

theorem method : s'.body.method = s.body.method := by
  obtain ⟨hadds, hreads, hspread, -, -⟩ := hr
  exact (hspread.method.trans (Body.rereads_redirectOperand hreads).method).trans hadds.body.method

theorem value {x : Value} (hx : s.body.value v = .ok x) :
    ∃ y, s'.body.value v = .ok y ∧ y.SameKnown x := by
  obtain ⟨hadds, hreads, hspread, -, -⟩ := hr
  obtain ⟨y, hy, hxy⟩ := hadds.body.value v x hx
  obtain ⟨z, hz, hyz⟩ := (Body.rereads_redirectOperand hreads).value v y hy
  obtain ⟨w, hw, hzw⟩ := hspread.value v z hz
  exact ⟨w, hw, (hzw.trans hyz).trans hxy⟩

/-- Calls come from calls of the same method, with the cast in places of the receiver. -/
theorem exists_call {j : InstrId} {call' : Call} (hop : s'.body.operation j = .ok (.call call')) :
    ∃ call f, s.body.operation j = .ok (.call call) ∧
      call' = { call with arguments := call.arguments.map f } ∧
      ∀ v, f v = v ∨ v = receiver ∧ f v = cast := by
  obtain ⟨hadds, hreads, hspread, -, -⟩ := hr
  obtain ⟨call, f, hop, hcall, hread⟩ :=
    ((Body.rereads_redirectOperand hreads).trans hspread).exists_call hop
  rcases hadds.body.added j _ hop with hop | hnone
  · exact ⟨call, f, hop, hcall, hread⟩
  · simp [Operation.call?] at hnone

/-- The cast is now the receiver of the call. -/
theorem exists_receiver {call : Call} (hop : s.body.operation i = .ok (.call call))
    (hcall : call.receiver? = some receiver) :
    ∃ arguments, s'.body.operation i = .ok (.call { call with arguments }) ∧
      arguments.head? = some cast := by
  obtain ⟨hadds, hreads, hspread, -, -⟩ := hr
  have hop₁ := Body.operation_redirectOperand hreads (hadds.body.operation i _ hop)
    (List.mem_of_head? hcall)
  obtain ⟨f, hf, hread⟩ := hspread.operation i
  refine ⟨_, (hf _).2 ⟨_, hop₁, rfl⟩, ?_⟩
  have hcast : f cast = cast := (hread cast).elim id And.right
  rw [Call.receiver?] at hcall
  simp [hcall, hcast]

end ReadsCast

/-- The ways of making the receiver fit: it fits already, or the call is let read a cast that is
kept, or a new one. -/
theorem castReceiver_cases
    (hrun : (castReceiver i index receiver holder).run s = .ok (moved, s')) :
    (s' = s ∧ moved = .stayed ∧
        ∃ x, s.body.value receiver = .ok x ∧ x.type.fits h holder = true) ∨
      (∃ cast changed, ((receiver, holder), cast) ∈ s.casts ∧
        s.body.redirectOperand i receiver cast = .ok (changed, s'.body) ∧
        s'.casts = s.casts ∧ moved = .stayed ∧
        s'.affected = s.affected.insertAll [cast] ∧
        s'.stats = { s.stats with castsReused := s.stats.castsReused + 1 }) ∨
      ∃ x k v s₁ s₂ changed, (s.body.value receiver = .ok x ∧ x.type.fits h holder = false) ∧
        (placeCast i index receiver holder (.ofClass holder x.type.nullability)).run s =
          .ok ((k, v, moved), s₁) ∧
        s₁.body.redirectOperand i receiver v = .ok (changed, s₂.body) ∧
        s₂.casts = ((receiver, holder), v) :: s₁.casts ∧ s₂.stats = s₁.stats ∧
        s₂.affected = s₁.affected.insertAll [v] ∧
        (spreadCast i receiver (.ofClass holder x.type.nullability) k v).run s₂ = .ok ((), s') := by
  simp only [castReceiver, run_bind_eq_ok, run_query_eq_ok] at hrun
  obtain ⟨x, _, ⟨hx, rfl⟩, hrun⟩ := hrun
  split at hrun
  · rename_i hfits
    obtain ⟨rfl, rfl⟩ := run_pure_eq_ok.1 hrun
    exact .inl ⟨rfl, rfl, x, hx, hfits⟩
  · rename_i hfits
    right
    simp only [run_bind_eq_ok, run_query_eq_ok] at hrun
    obtain ⟨b, _, ⟨-, rfl⟩, cast?, s₁, hcached, hrun⟩ := hrun
    obtain ⟨rfl, hcast⟩ := run_cachedCast? hcached
    cases cast? with
    | some cast =>
      simp only [run_bind_eq_ok, run_editWith_eq_ok, run_affect_eq_ok, run_count_eq_ok,
        run_pure_eq_ok] at hrun
      obtain ⟨changed, _, ⟨c, hc, rfl⟩, _, _, rfl, _, _, rfl, rfl, rfl⟩ := hrun
      exact .inl ⟨cast, changed, hcast cast rfl, hc, rfl, rfl, rfl, rfl⟩
    | none =>
      simp only [run_bind_eq_ok, run_editWith_eq_ok, run_affect_eq_ok, run_modify_eq_ok,
        run_pure_eq_ok] at hrun
      obtain ⟨⟨k, v, moved'⟩, s₂, hplace, _, _, rfl, _, _, rfl, changed, _, ⟨c, hc, rfl⟩, _, s₃,
        hspread, rfl, rfl⟩ := hrun
      exact .inr ⟨x, k, v, s₂, { s₂ with
          body := c
          casts := ((receiver, holder), v) :: s₂.casts
          affected := s₂.affected.insertAll [v] },
        changed, ⟨hx, Bool.eq_false_iff.2 hfits⟩, hplace, hc, rfl, rfl, rfl, hspread⟩

theorem run_castReceiver (hrun : (castReceiver i index receiver holder).run s = .ok (moved, s')) :
    (s' = s ∧ ∃ x, s.body.value receiver = .ok x ∧ x.type.fits h holder = true) ∨
      ∃ cast, ReadsCast i receiver cast s s' ∧
        ((((receiver, holder), cast) ∈ s.casts ∧ s'.casts = s.casts) ∨
          s'.casts = ((receiver, holder), cast) :: s.casts ∧ ¬ s.body.HasValue cast ∧
            ∃ y, s'.body.value cast = .ok y ∧ y.type.fits h holder = true) := by
  rcases castReceiver_cases hrun with ⟨rfl, -, hfits⟩ |
    ⟨cast, changed, hmem, hc, hcasts, -, -, hstats⟩ |
    ⟨x, k, v, s₁, s₂, changed, -, hplace, hc, hcasts, hstats, -, hspread⟩
  · exact .inl ⟨rfl, hfits⟩
  · refine .inr ⟨cast, ⟨.refl _, hc, .refl receiver cast _, .inl rfl, ?_⟩, .inl ⟨hmem, hcasts⟩⟩
    rw [hstats]
    rfl
  · right
    obtain ⟨hadds, hfresh, y, hy, htype⟩ := run_placeCast hplace
    obtain ⟨z, hz, hyz⟩ := (Body.rereads_redirectOperand hc).value v y hy
    obtain ⟨hcasts', hstats', -, hsharp⟩ := spreadCast_cases hspread
    have hreads : s₂.body.Rereads receiver v s'.body := by
      rcases hsharp with hsame | ⟨⟨tree, excluded, replaced, huses⟩, -⟩
      · rw [hsame]
        exact .refl receiver v _
      · exact Body.rereads_redirectUses huses
    obtain ⟨w, hw, hzw⟩ := hreads.value v z hz
    have hwtype : w.type = y.type := hzw.1.trans hyz.1
    refine ⟨v, ⟨hadds, hc, hreads, hsharp.imp_right ?_, ?_⟩, .inr ⟨?_, hfresh, w, hw, ?_⟩⟩
    · rintro ⟨-, x', hx', -, hle⟩
      obtain ⟨x'', hx'', hknown⟩ := hreads.value receiver x' hx'
      exact ⟨x'', w, hx'', hw, by rwa [hknown.1, hwtype, htype]⟩
    · rw [hstats', hstats]
      exact hadds.total
    · rw [hcasts', hcasts, hadds.casts]
    · rw [hwtype, htype]
      exact StaticType.fits_ofClass h _ _

end Devirtualizing

/-! ### The walk -/

namespace Walk

variable {h : Hierarchy} {options : Options} {motive : Devirtualization.State h → Prop}

/-- A round is a visit, or leaves the state as it is. -/
theorem advance_cases {w w' : Walk h} (hnext : w.advance options = .ok (some w')) :
    w'.state = w.state ∨ ∃ i moved,
      (Devirtualizing.visit options i w.index).run w.state = .ok (moved, w'.state) := by
  rw [advance] at hnext
  split at hnext
  · simp only [bind_eq_ok] at hnext
    obtain ⟨i?, -, hnext⟩ := hnext
    cases i? with
    | none =>
      obtain rfl := Option.some.inj (Except.ok.inj hnext)
      exact .inl rfl
    | some i =>
      simp only [bind_eq_ok, pure_eq_ok, Except.ok.injEq, Option.some.injEq, Prod.exists] at hnext
      obtain ⟨moved, s, hvisit, rfl⟩ := hnext
      exact .inr ⟨i, moved, by cases moved <;> exact hvisit⟩
  · simp at hnext

/-- What every visit keeps, a walk keeps. -/
theorem run_invariant (hvisit : ∀ {i index moved s s'}, motive s →
      (Devirtualizing.visit options i index).run s = .ok (moved, s') → motive s')
    {w : Walk h} {s : Devirtualization.State h} {rounds : Nat} (hw : motive w.state)
    (hrun : w.run options rounds = .ok s) : motive s := by
  induction rounds generalizing w with
  | zero => simp [Walk.run] at hrun
  | succ rounds ih =>
    simp only [Walk.run, bind_eq_ok] at hrun
    obtain ⟨next?, hnext, hrun⟩ := hrun
    cases next? with
    | none =>
      obtain rfl := Except.ok.inj hrun
      exact hw
    | some w' =>
      apply ih _ hrun
      rcases advance_cases hnext with hstate | ⟨i, moved, hrun⟩
      · rwa [hstate]
      · exact hvisit hw hrun

end Walk

theorem Body.walkCalls_invariant {h : Hierarchy} {options : Options} {resolver : Resolver h}
    {motive : Devirtualization.State h → Prop} {c : Body} {s : Devirtualization.State h}
    (hvisit : ∀ {i index moved s s'}, motive s →
      (Devirtualizing.visit options i index).run s = .ok (moved, s') → motive s')
    (hstart : ∀ tree, motive { body := c, resolver, tree })
    (hrun : c.walkCalls options resolver = .ok s) : motive s := by
  simp only [walkCalls, bind_eq_ok] at hrun
  obtain ⟨tree, -, rounds, -, hwalk⟩ := hrun
  exact Walk.run_invariant hvisit (hstart tree) hwalk

end Devirt
