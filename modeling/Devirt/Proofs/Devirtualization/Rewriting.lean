import Devirt.Proofs.Body.Shape
import Devirt.Proofs.Body.Splitting

/-!
What devirtualization makes of a body, seen from the body it began with. Every old instruction is
still there and reads what it read before or a cast of it; a block has stayed whole or has been cut
into a head and a tail; and what is new are casts, each right before the call it was made for, and
the jumps from heads to tails.
-/

namespace Devirt

open Relation

namespace Operation

/-- The operation with another kind and method, if these are given and it is a call. -/
def withTarget (target : Option (DispatchKind × MethodRef)) : Operation → Operation
  | .call c => .call ((target.map fun (kind, method) => { c with kind, method }).getD c)
  | op => op

section WithTarget

variable {target target' : Option (DispatchKind × MethodRef)} {op : Operation}

@[simp] theorem out?_withTarget : (op.withTarget target).out? = op.out? := by
  cases op <;> cases target <;> rfl

@[simp] theorem operands_withTarget : (op.withTarget target).operands = op.operands := by
  cases op <;> cases target <;> rfl

@[simp] theorem targets_withTarget : (op.withTarget target).targets = op.targets := by
  cases op <;> rfl

@[simp] theorem canThrow_withTarget : (op.withTarget target).canThrow = op.canThrow := by
  cases op <;> rfl

@[simp] theorem isTerminator_withTarget :
    (op.withTarget target).isTerminator = op.isTerminator := by
  cases op <;> rfl

theorem withTarget_none : op.withTarget none = op := by
  cases op <;> rfl

theorem withTarget_withTarget :
    (op.withTarget target).withTarget target' = op.withTarget (target'.or target) := by
  cases op <;> cases target <;> cases target' <;> rfl

theorem mapOperands_withTarget {f : ValueId → ValueId} :
    (op.withTarget target).mapOperands f = (op.mapOperands f).withTarget target := by
  cases op <;> cases target <;> rfl

end WithTarget

/-- The second operation is the first one on related operands; a call may name another method. -/
def Renders (r : ValueId → ValueId → Prop) (op₀ op : Operation) : Prop :=
  ∃ f target, op = (op₀.mapOperands f).withTarget target ∧ ∀ v ∈ op₀.operands, r (f v) v

namespace Renders

variable {r r' : ValueId → ValueId → Prop} {op₀ op op' : Operation}

theorem refl (h : ∀ v ∈ op.operands, r v v) : op.Renders r op := by
  exact ⟨fun v => v, none, by rw [mapOperands_id, withTarget_none], h⟩

theorem trans (h : op₀.Renders r op) (h' : op.Renders r' op') {q : ValueId → ValueId → Prop}
    (hq : ∀ u v w, r' u v → r v w → q u w) : op₀.Renders q op' := by
  obtain ⟨f, target, rfl, hf⟩ := h
  obtain ⟨g, target', rfl, hg⟩ := h'
  refine ⟨g ∘ f, target'.or target, ?_, fun v hv => hq _ _ _ (hg _ ?_) (hf v hv)⟩
  · rw [mapOperands_withTarget, withTarget_withTarget, mapOperands_mapOperands]
  · simpa using ⟨v, hv, rfl⟩

theorem mono (h : op₀.Renders r op) (hr : ∀ u v, r u v → r' u v) : op₀.Renders r' op := by
  obtain ⟨f, target, rfl, hf⟩ := h
  exact ⟨f, target, rfl, fun v hv => hr _ _ (hf v hv)⟩

theorem out?_eq (h : op₀.Renders r op) : op.out? = op₀.out? := by
  obtain ⟨f, target, rfl, -⟩ := h
  simp

theorem targets_eq (h : op₀.Renders r op) : op.targets = op₀.targets := by
  obtain ⟨f, target, rfl, -⟩ := h
  simp

theorem canThrow_eq (h : op₀.Renders r op) : op.canThrow = op₀.canThrow := by
  obtain ⟨f, target, rfl, -⟩ := h
  simp

theorem exists_of_mem (h : op₀.Renders r op) {u : ValueId} (hu : u ∈ op.operands) :
    ∃ v ∈ op₀.operands, r u v := by
  obtain ⟨f, target, rfl, hf⟩ := h
  simp only [operands_withTarget, operands_mapOperands, List.mem_map] at hu
  obtain ⟨v, hv, rfl⟩ := hu
  exact ⟨v, hv, hf v hv⟩

theorem exists_mem (h : op₀.Renders r op) {v : ValueId} (hv : v ∈ op₀.operands) :
    ∃ u ∈ op.operands, r u v := by
  obtain ⟨f, target, rfl, hf⟩ := h
  exact ⟨f v, by simpa using ⟨v, hv, rfl⟩, hf v hv⟩

theorem of_cast {out object : ValueId} {name : TypeName}
    (h : (Operation.cast out object name).Renders r op) :
    ∃ object', op = .cast out object' name ∧ r object' object := by
  obtain ⟨f, target, rfl, hf⟩ := h
  exact ⟨f object, rfl, hf object (by simp [operands])⟩

theorem of_goto {target : BlockId} (h : (Operation.goto target).Renders r op) :
    op = .goto target := by
  obtain ⟨f, target, rfl, -⟩ := h
  rfl

/-- A call still is one, on related arguments. -/
theorem of_call {call₀ : Call} (h : (Operation.call call₀).Renders r op) :
    ∃ call, op = .call call ∧ call.out = call₀.out ∧
      List.Forall₂ r call.arguments call₀.arguments := by
  obtain ⟨f, target, rfl, hf⟩ := h
  refine ⟨_, rfl, by cases target <;> rfl, ?_⟩
  have hargs : List.Forall₂ r (call₀.arguments.map f) call₀.arguments := by
    rw [List.forall₂_map_left_iff]
    exact List.forall₂_same.2 hf
  cases target <;> exact hargs

theorem to_call {call : Call} (h : op₀.Renders r (.call call)) : ∃ call₀, op₀ = .call call₀ := by
  obtain ⟨f, target, heq, -⟩ := h
  cases op₀ with
  | call call₀ => exact ⟨call₀, rfl⟩
  | _ => exact Operation.noConfusion heq

theorem of_call_receiver {call₀ call : Call} {w : ValueId}
    (h : (Operation.call call₀).Renders r (.call call)) (hw : call₀.receiver? = some w) :
    ∃ u, call.receiver? = some u ∧ r u w := by
  obtain ⟨call', hcall, -, hargs⟩ := h.of_call
  obtain rfl := Operation.call.inj hcall
  simp only [Call.receiver?] at hw ⊢
  generalize call.arguments = l, call₀.arguments = l₀ at hw hargs
  cases hargs with
  | nil => simp at hw
  | cons hr _ =>
    obtain rfl := Option.some.inj hw
    exact ⟨_, rfl, hr⟩

theorem exists_receiver {call₀ call : Call} {u : ValueId}
    (h : (Operation.call call₀).Renders r (.call call)) (hu : call.receiver? = some u) :
    ∃ w, call₀.receiver? = some w ∧ r u w := by
  obtain ⟨call', hcall, -, hargs⟩ := h.of_call
  obtain rfl := Operation.call.inj hcall
  simp only [Call.receiver?] at hu ⊢
  generalize call.arguments = l, call₀.arguments = l₀ at hu hargs
  cases hargs with
  | nil => simp at hu
  | cons hr _ =>
    obtain rfl := Option.some.inj hu
    exact ⟨_, rfl, hr⟩

end Renders

end Operation

namespace Body

variable {c₀ c d : Body} {b p q s t : BlockId} {i k : InstrId} {u v w : ValueId} {op op₀ : Operation}
  {x x₀ y : Block} {n : Nat}

/-- Those of the instructions that the body has itself. -/
def own (c₀ : Body) (l : List InstrId) : List InstrId :=
  l.filter fun i => i.index < c₀.instructions.length

section Own

variable {l : List InstrId}

theorem own_cons (hi : c₀.HasInstruction i) : c₀.own (i :: l) = i :: c₀.own l :=
  List.filter_cons_of_pos (decide_eq_true hi)

theorem own_cons_of_not (hi : ¬ c₀.HasInstruction i) : c₀.own (i :: l) = c₀.own l :=
  List.filter_cons_of_neg (decide_eq_false hi ▸ Bool.false_ne_true)

theorem hasInstruction_of_mem_own (hi : i ∈ c₀.own l) : c₀.HasInstruction i :=
  of_decide_eq_true (List.mem_filter.1 hi).2

theorem mem_own (hi : c₀.HasInstruction i) (hmem : i ∈ l) : i ∈ c₀.own l :=
  List.mem_filter.2 ⟨hmem, decide_eq_true hi⟩

end Own

/-- The value `u` is the old value `w` or has been made from it by new casts. -/
inductive Stands (c₀ c : Body) : ValueId → ValueId → Prop
  | old {w : ValueId} (hw : c₀.HasValue w) : Stands c₀ c w w
  | cast {k : InstrId} {u r w : ValueId} {name : TypeName} (hk : ¬ c₀.HasInstruction k)
      (hop : c.operation k = .ok (.cast u r name)) (hr : Stands c₀ c r w) : Stands c₀ c u w

/-- The new block `t` is the tail of the block `b`. -/
def TailOf (c₀ c : Body) (b t : BlockId) : Prop := c.Jumps b t ∧ ¬ c₀.HasBlock t

/-- The old block that a block has come from. -/
def Origin (c₀ c : Body) (q p : BlockId) : Prop :=
  c₀.HasBlock p ∧ (q = p ∨ TailOf c₀ c p q)

def IsCall (c : Body) (i : InstrId) : Prop := ∃ call, c.operation i = .ok (.call call)

/-- The instruction is a virtual call. -/
def Dispatches (c : Body) (i : InstrId) : Prop :=
  ∃ call, c.operation i = .ok (.call call) ∧ call.kind = .virtual

/-- The new cast `k` is made for the call `i`, whose receiver it casts. -/
def Anchors (c₀ c : Body) (k i : InstrId) : Prop :=
  ∃ u r name call₀ w, c.operation k = .ok (.cast u r name) ∧
    c₀.operation i = .ok (.call call₀) ∧ call₀.receiver? = some w ∧ Stands c₀ c r w ∧
    c.Dispatches i

/-- The instructions are those of an old block, with new casts before calls. -/
structure Spells (c₀ c : Body) (x₀ : Block) (l : List InstrId) : Prop where
  old : l.filter (fun i => i.index < c₀.instructions.length) = x₀.instructions
  last : l.getLast? = x₀.instructions.getLast?
  anchored : l.IsChain fun k i => ¬ c₀.HasInstruction k → Anchors c₀ c k i

/-- The block is the head of an old one, and `t` its tail, which begins with a call. -/
structure Cut (c₀ c : Body) (b t : BlockId) (x₀ x : Block) : Prop where
  guarded : x₀.isGuarded = true
  new : ¬ c₀.HasBlock t
  parts : ∃ l k y i rest, x.instructions = l ++ [k] ∧ ¬ c₀.HasInstruction k ∧
    c.operation k = .ok (.goto t) ∧ c.block t = .ok y ∧ y.instructions = i :: rest ∧
    (c₀.IsCall i ∧ c.Dispatches i) ∧ Spells c₀ c x₀ (l ++ y.instructions) ∧
    y.predecessors = [b] ∧ y.phis = [] ∧ y.handlers = x₀.handlers

/-- The edge `e` into a block goes back to the edge `e₀` into the old block. -/
def GoesBack (c₀ c : Body) (x₀ x : Block) (e e₀ : Nat) : Prop :=
  ∃ q p, x.predecessors[e]? = some q ∧ x₀.predecessors[e₀]? = some p ∧ Origin c₀ c q p ∧
    (e < x₀.predecessors.length → e₀ = e) ∧ (x₀.predecessors.length ≤ e → ¬ c₀.HasBlock q)

/-- The edges into a block and its phis, compared with those of the old block. -/
structure Inflow (c₀ c : Body) (s : BlockId) (x₀ x : Block) : Prop where
  /-- Old edges come from where they came from, or from a tail that has taken over the jump. -/
  sources : ∀ (e : Nat) p, x₀.predecessors[e]? = some p → ∃ q, x.predecessors[e]? = some q ∧
    ((q = p ∧ (c₀.Jumps p s → ∀ t, ¬ TailOf c₀ c p t)) ∨ (TailOf c₀ c p q ∧ c₀.Jumps p s))
  back : ∀ e < x.predecessors.length, ∃ e₀, GoesBack c₀ c x₀ x e e₀
  arity : ∀ phi ∈ x.phis, phi.operands.length = x.predecessors.length
  outs : x.phis.map (·.out) = x₀.phis.map (·.out)
  inputs : ∀ (n : Nat) phi₀ phi, x₀.phis[n]? = some phi₀ → x.phis[n]? = some phi →
    ∀ e < x.predecessors.length, ∃ e₀ u w, GoesBack c₀ c x₀ x e e₀ ∧
      phi.operands[e]? = some u ∧ phi₀.operands[e₀]? = some w ∧ Stands c₀ c u w

/-- The second body has come from the first one by devirtualization. -/
structure Rewritten (c₀ c : Body) : Prop where
  method_eq : c.method = c₀.method
  hasBlock : ∀ {b}, c₀.HasBlock b → c.HasBlock b
  hasInstruction : ∀ {i}, c₀.HasInstruction i → c.HasInstruction i
  hasValue : ∀ {v}, c₀.HasValue v → c.HasValue v
  operation : ∀ {i op₀}, c₀.operation i = .ok op₀ →
    ∃ op, c.operation i = .ok op ∧ op₀.Renders (Stands c₀ c) op
  created : ∀ {k op}, c.operation k = .ok op → ¬ c₀.HasInstruction k →
    (∃ t, op = .goto t ∧ ¬ c₀.HasBlock t) ∨ ∃ u r name, op = .cast u r name ∧ ¬ c₀.HasValue u
  handlers : ∀ {b x₀ x}, c₀.block b = .ok x₀ → c.block b = .ok x → x.handlers = x₀.handlers
  contents : ∀ {b x₀ x}, c₀.block b = .ok x₀ → c.block b = .ok x →
    Spells c₀ c x₀ x.instructions ∨ ∃ t, Cut c₀ c b t x₀ x
  inflow : ∀ {b x₀ x}, c₀.block b = .ok x₀ → c.block b = .ok x → Inflow c₀ c b x₀ x
  tail : ∀ {t}, c.HasBlock t → ¬ c₀.HasBlock t → ∃ b, c₀.HasBlock b ∧ TailOf c₀ c b t

/-- New casts make new values, and a new value is made once. -/
structure CastsAnew (c₀ c : Body) : Prop where
  fresh : ∀ {k u r name}, ¬ c₀.HasInstruction k → c.operation k = .ok (.cast u r name) →
    ¬ c₀.HasValue u
  once : ∀ {i j u}, ¬ c₀.HasValue u → c.Outputs i u → c.Outputs j u → i = j

namespace Stands

theorem eq_of_fresh (hfresh : ∀ {k u r name}, ¬ c₀.HasInstruction k →
    c.operation k = .ok (.cast u r name) → ¬ c₀.HasValue u) (h : Stands c₀ c u w)
    (hu : c₀.HasValue u) : u = w := by
  cases h with
  | old _ => rfl
  | cast hk hop _ => exact absurd hu (hfresh hk hop)

/-- Reading through casts leads to one value only. -/
theorem functional (hc : CastsAnew c₀ c) (h : Stands c₀ c u w) (h' : Stands c₀ c u v) : w = v := by
  induction h with
  | old hw => exact h'.eq_of_fresh hc.fresh hw
  | @cast k u r w name hk hop _ ih =>
    have hu := hc.fresh hk hop
    cases h' with
    | old hv => exact absurd hv hu
    | cast hk' hop' hr' =>
      obtain rfl := hc.once hu ⟨_, hop, rfl⟩ ⟨_, hop', rfl⟩
      obtain ⟨-, rfl, -⟩ := Operation.cast.inj (Except.ok.inj (hop.symm.trans hop'))
      exact ih hr'

end Stands

theorem Rewritten.fresh {r : ValueId} {name : TypeName} (hr : Rewritten c₀ c)
    (hk : ¬ c₀.HasInstruction k) (hop : c.operation k = .ok (.cast u r name)) :
    ¬ c₀.HasValue u := by
  rcases hr.created hop hk with ⟨t, h, -⟩ | ⟨u', r', name', h, hu'⟩
  · exact Operation.noConfusion h
  · obtain ⟨rfl, -, -⟩ := Operation.cast.inj h
    exact hu'

namespace Stands

/-- An old value stands for itself alone. -/
theorem eq_of_old (hr : Rewritten c₀ c) (h : Stands c₀ c u w) (hu : c₀.HasValue u) : u = w :=
  h.eq_of_fresh hr.fresh hu

theorem unique (hr : Rewritten c₀ c) (hc : c.TracksInstructions) (h : Stands c₀ c u w)
    (h' : Stands c₀ c u v) : w = v :=
  h.functional ⟨hr.fresh, fun _ => hc.eq_of_outputs⟩ h'

end Stands

namespace Inflow

theorem length_phis (h : Inflow c₀ c s x₀ x) : x.phis.length = x₀.phis.length := by
  simpa using congrArg List.length h.outs

/-- What an old phi read on an edge is read, through new casts, where the edge comes from now. -/
theorem exists_input (h : Inflow c₀ c s x₀ x) {phi₀ : Phi} (hphi₀ : phi₀ ∈ x₀.phis)
    (hmem : (w, p) ∈ phi₀.operands.zip x₀.predecessors) :
    ∃ phi u q, phi ∈ x.phis ∧ (u, q) ∈ phi.operands.zip x.predecessors ∧ Stands c₀ c u w ∧
      ((q = p ∧ (c₀.Jumps p s → ∀ t, ¬ TailOf c₀ c p t)) ∨ (TailOf c₀ c p q ∧ c₀.Jumps p s)) := by
  obtain ⟨e, he⟩ := List.mem_iff_getElem?.1 hmem
  obtain ⟨hw, hp⟩ := List.getElem?_zip_eq_some.1 he
  obtain ⟨q, hq, hsource⟩ := h.sources e p hp
  obtain ⟨n, hn₀⟩ := List.mem_iff_getElem?.1 hphi₀
  have hlt : n < x.phis.length := by
    rw [h.length_phis]
    exact (List.getElem?_eq_some_iff.1 hn₀).1
  obtain ⟨e₀, u, w', ⟨-, -, -, -, -, hsame, -⟩, hu, hw', hstands⟩ :=
    h.inputs n phi₀ _ hn₀ (List.getElem?_eq_getElem hlt) e (List.getElem?_eq_some_iff.1 hq).1
  obtain rfl := hsame (List.getElem?_eq_some_iff.1 hp).1
  obtain rfl := Option.some.inj (hw.symm.trans hw')
  exact ⟨_, u, q, List.getElem_mem hlt,
    List.mem_iff_getElem?.2 ⟨e₀, List.getElem?_zip_eq_some.2 ⟨hu, hq⟩⟩, hstands, hsource⟩

/-- What a phi reads on an edge was read, before new casts, on the edge that this one goes back to. -/
theorem exists_input_old (h : Inflow c₀ c s x₀ x) {phi : Phi} (hphi : phi ∈ x.phis)
    (hmem : (u, q) ∈ phi.operands.zip x.predecessors) :
    ∃ phi₀ w p, phi₀ ∈ x₀.phis ∧ (w, p) ∈ phi₀.operands.zip x₀.predecessors ∧
      Stands c₀ c u w ∧ Origin c₀ c q p := by
  obtain ⟨e, he⟩ := List.mem_iff_getElem?.1 hmem
  obtain ⟨hu, hq⟩ := List.getElem?_zip_eq_some.1 he
  obtain ⟨n, hn⟩ := List.mem_iff_getElem?.1 hphi
  have hlt : n < x₀.phis.length := by
    rw [← h.length_phis]
    exact (List.getElem?_eq_some_iff.1 hn).1
  obtain ⟨e₀, u', w, ⟨q', p, hq', hp, horigin, -⟩, hu', hw, hstands⟩ :=
    h.inputs n _ phi (List.getElem?_eq_getElem hlt) hn e (List.getElem?_eq_some_iff.1 hq).1
  obtain rfl := Option.some.inj (hq.symm.trans hq')
  obtain rfl := Option.some.inj (hu.symm.trans hu')
  exact ⟨_, w, p, List.getElem_mem hlt,
    List.mem_iff_getElem?.2 ⟨e₀, List.getElem?_zip_eq_some.2 ⟨hw, hp⟩⟩, hstands, horigin⟩

end Inflow

theorem Spells.mem_iff {l : List InstrId} (h : Spells c₀ c x₀ l) (hi : c₀.HasInstruction i) :
    i ∈ l ↔ i ∈ x₀.instructions := by
  rw [← h.old, List.mem_filter, decide_eq_true_eq]
  exact (and_iff_left hi).symm

/-- A new instruction of a spelled block is followed by the call it is made for. -/
theorem Spells.exists_next {l : List InstrId} (h : Spells c₀ c x₀ l) (hk : k ∈ l)
    (hnew : ¬ c₀.HasInstruction k) : ∃ l₁ i l₂, l = l₁ ++ k :: i :: l₂ ∧ Anchors c₀ c k i := by
  obtain ⟨l₁, l₂, rfl⟩ := List.append_of_mem hk
  cases l₂ with
  | nil =>
    have hlast := h.last
    rw [List.getLast?_concat, eq_comm] at hlast
    have hmem := List.mem_of_getLast? hlast
    rw [← h.old, List.mem_filter] at hmem
    exact absurd (of_decide_eq_true hmem.2) hnew
  | cons i l₂ =>
    exact ⟨l₁, i, l₂, rfl, List.isChain_iff_forall_rel_of_append_cons_cons.1 h.anchored rfl hnew⟩

theorem Spells.exists_anchors {l : List InstrId} (h : Spells c₀ c x₀ l) (hk : k ∈ l)
    (hnew : ¬ c₀.HasInstruction k) : ∃ i ∈ x₀.instructions, Anchors c₀ c k i := by
  obtain ⟨l₁, i, l₂, rfl, hanchors⟩ := h.exists_next hk hnew
  refine ⟨i, ?_, hanchors⟩
  obtain ⟨-, -, -, call₀, -, -, hcall, -⟩ := hanchors
  exact (h.mem_iff (hasInstruction_of_operation hcall)).1 (by simp)

theorem Cut.jumps_head (hcut : Cut c₀ c b t x₀ x) (hx : c.block b = .ok x) :
    c.Jumps b s ↔ s = t := by
  obtain ⟨l, k, y, i, rest, hins, -, hop, -⟩ := hcut.parts
  constructor
  · rintro ⟨x', i', op, hx', hl, hop', hs⟩
    obtain rfl : x = x' := Except.ok.inj (hx.symm.trans hx')
    obtain rfl : k = i' := by simpa [hins] using hl
    obtain rfl := Except.ok.inj (hop.symm.trans hop')
    simpa [Operation.targets] using hs
  · rintro rfl
    exact ⟨x, k, _, hx, by simp [hins], hop, by simp [Operation.targets]⟩

namespace Rewritten

variable (hr : Rewritten c₀ c) (h₀ : c₀.Arranged) (hclosed : c₀.Closed)

/-! ### Heads and tails -/

include hr h₀ in
/-- Blocks that end alike jump alike. -/
theorem jumps_of_last (hx₀ : c₀.block b = .ok x₀) (hx : c.block q = .ok x)
    (hlast : x.instructions.getLast? = x₀.instructions.getLast?) :
    c.Jumps q s ↔ c₀.Jumps b s := by
  constructor
  · rintro ⟨x', i, op, hx', hl, hop, hs⟩
    obtain rfl : x = x' := Except.ok.inj (hx.symm.trans hx')
    rw [hlast] at hl
    obtain ⟨op₀, hop₀⟩ := h₀.exists_operation hx₀ (List.mem_of_getLast? hl)
    obtain ⟨op', hop', hrender⟩ := hr.operation hop₀
    obtain rfl : op = op' := Except.ok.inj (hop.symm.trans hop')
    exact ⟨x₀, i, op₀, hx₀, hl, hop₀, hrender.targets_eq ▸ hs⟩
  · rintro ⟨x', i, op₀, hx', hl, hop₀, hs⟩
    obtain rfl : x₀ = x' := Except.ok.inj (hx₀.symm.trans hx')
    obtain ⟨op, hop, hrender⟩ := hr.operation hop₀
    exact ⟨x, i, op, hx, hlast.trans hl, hop, hrender.targets_eq.symm ▸ hs⟩

include hr h₀ in
theorem jumps_of_spells (hx₀ : c₀.block b = .ok x₀) (hx : c.block b = .ok x)
    (h : Spells c₀ c x₀ x.instructions) : c.Jumps b s ↔ c₀.Jumps b s :=
  hr.jumps_of_last h₀ hx₀ hx h.last

include hr h₀ in
theorem jumps_tail (hx₀ : c₀.block b = .ok x₀) (hcut : Cut c₀ c b t x₀ x) :
    c.Jumps t s ↔ c₀.Jumps b s := by
  obtain ⟨l, k, y, i, rest, -, -, -, hy, hins, -, hspells, -⟩ := hcut.parts
  refine hr.jumps_of_last h₀ hx₀ hy ?_
  rw [← hspells.last, hins, List.getLast?_append_cons]

include hr h₀ hclosed in
/-- Only an old block that has been cut has a tail. -/
theorem exists_cut (h : TailOf c₀ c b t) :
    ∃ x₀ x, c₀.block b = .ok x₀ ∧ c.block b = .ok x ∧ Cut c₀ c b t x₀ x := by
  obtain ⟨hjump, ht⟩ := h
  have hof : ∀ {p}, c₀.HasBlock p → ∀ {t}, c.Jumps p t → ¬ c₀.HasBlock t →
      ∃ x₀ x, c₀.block p = .ok x₀ ∧ c.block p = .ok x ∧ Cut c₀ c p t x₀ x := by
    intro p hp t hjump ht
    obtain ⟨x₀, hx₀⟩ := exists_block_iff.2 hp
    obtain ⟨x, hx⟩ := exists_block_iff.2 (hr.hasBlock hp)
    refine ⟨x₀, x, hx₀, hx, ?_⟩
    rcases hr.contents hx₀ hx with hspells | ⟨t', hcut⟩
    · exact absurd (hclosed _ _ (.inl ((hr.jumps_of_spells h₀ hx₀ hx hspells).1 hjump))) ht
    · obtain rfl := (hcut.jumps_head hx).1 hjump
      exact hcut
  by_cases hb : c₀.HasBlock b
  · exact hof hb hjump ht
  · -- a tail jumps to old blocks only
    obtain ⟨y, -, -, hy, -⟩ := id hjump
    obtain ⟨p, hp, htail⟩ := hr.tail (hasBlock_of_block hy) hb
    obtain ⟨x₀, x, hx₀, hx, hcut⟩ := hof hp htail.1 htail.2
    exact absurd (hclosed _ _ (.inl ((hr.jumps_tail h₀ hx₀ hcut).1 hjump))) ht

include hr h₀ hclosed in
theorem hasBlock_of_tailOf (h : TailOf c₀ c b t) : c₀.HasBlock b := by
  obtain ⟨x₀, -, hx₀, -⟩ := hr.exists_cut h₀ hclosed h
  exact hasBlock_of_block hx₀

include hr h₀ hclosed in
theorem tailOf_unique (h : TailOf c₀ c b t) (h' : TailOf c₀ c b s) : t = s := by
  obtain ⟨x₀, x, -, hx, hcut⟩ := hr.exists_cut h₀ hclosed h
  exact ((hcut.jumps_head hx).1 h'.1).symm

include hr h₀ hclosed in
theorem predecessors_tail (h : TailOf c₀ c b t) (hy : c.block t = .ok y) :
    y.predecessors = [b] ∧ y.phis = [] := by
  obtain ⟨x₀, x, -, -, hcut⟩ := hr.exists_cut h₀ hclosed h
  obtain ⟨-, -, y', -, -, -, -, -, hy', -, -, -, hpreds, hphis, -⟩ := hcut.parts
  obtain rfl : y = y' := Except.ok.inj (hy.symm.trans hy')
  exact ⟨hpreds, hphis⟩

include hr h₀ hclosed in
theorem tailOf_injective (h : TailOf c₀ c b t) (h' : TailOf c₀ c p t) : b = p := by
  obtain ⟨x₀, x, -, -, hcut⟩ := hr.exists_cut h₀ hclosed h
  obtain ⟨-, -, y, -, -, -, -, -, hy, -⟩ := hcut.parts
  have h1 := (hr.predecessors_tail h₀ hclosed h hy).1
  have h2 := (hr.predecessors_tail h₀ hclosed h' hy).1
  simpa using h1.symm.trans h2

/-! ### The old block behind a block -/

include hr in
theorem exists_origin (hq : c.HasBlock q) : ∃ p, Origin c₀ c q p := by
  by_cases hold : c₀.HasBlock q
  · exact ⟨q, hold, .inl rfl⟩
  · obtain ⟨p, hp, htail⟩ := hr.tail hq hold
    exact ⟨p, hp, .inr htail⟩

theorem origin_self (hp : c₀.HasBlock p) : Origin c₀ c p p := ⟨hp, .inl rfl⟩

theorem eq_of_origin (h : Origin c₀ c q p) (hq : c₀.HasBlock q) : q = p := by
  rcases h.2 with h | h
  · exact h
  · exact absurd hq h.2

include hr h₀ hclosed in
theorem origin_unique (h : Origin c₀ c q p) (h' : Origin c₀ c q s) : p = s := by
  rcases h with ⟨hp, rfl | htail⟩
  · exact eq_of_origin h' hp
  · rcases h' with ⟨hs, rfl | htail'⟩
    · exact absurd hs htail.2
    · exact hr.tailOf_injective h₀ hclosed htail htail'

include hr h₀ hclosed in
theorem handles_iff (h : Origin c₀ c q p) : c.Handles q s ↔ c₀.Handles p s := by
  have hsame : ∃ x₀ y, c₀.block p = .ok x₀ ∧ c.block q = .ok y ∧ y.handlers = x₀.handlers := by
    rcases h with ⟨hp, rfl | htail⟩
    · obtain ⟨x₀, hx₀⟩ := exists_block_iff.2 hp
      obtain ⟨x, hx⟩ := exists_block_iff.2 (hr.hasBlock hp)
      exact ⟨x₀, x, hx₀, hx, hr.handlers hx₀ hx⟩
    · obtain ⟨x₀, x, hx₀, -, hcut⟩ := hr.exists_cut h₀ hclosed htail
      obtain ⟨-, -, y, -, -, -, -, -, hy, -, -, -, -, -, hhandlers⟩ := hcut.parts
      exact ⟨x₀, y, hx₀, hy, hhandlers⟩
  obtain ⟨x₀, y, hx₀, hy, hhandlers⟩ := hsame
  constructor
  · rintro ⟨y', hy', hmem⟩
    obtain rfl : y = y' := Except.ok.inj (hy.symm.trans hy')
    exact ⟨x₀, hx₀, hhandlers ▸ hmem⟩
  · rintro ⟨x', hx', hmem⟩
    obtain rfl : x₀ = x' := Except.ok.inj (hx₀.symm.trans hx')
    exact ⟨y, hy, hhandlers.symm ▸ hmem⟩

include hr h₀ hclosed in
/-- A block jumps where the old one did, unless it is a head. -/
theorem jumps_origin (h : Origin c₀ c q p) (hjump : c.Jumps q s) :
    (q = p ∧ TailOf c₀ c p s) ∨ c₀.Jumps p s := by
  rcases h with ⟨hp, rfl | htail⟩
  · obtain ⟨x₀, hx₀⟩ := exists_block_iff.2 hp
    obtain ⟨x, hx⟩ := exists_block_iff.2 (hr.hasBlock hp)
    rcases hr.contents hx₀ hx with hspells | ⟨t, hcut⟩
    · exact .inr ((hr.jumps_of_spells h₀ hx₀ hx hspells).1 hjump)
    · obtain rfl := (hcut.jumps_head hx).1 hjump
      exact .inl ⟨rfl, hjump, hcut.new⟩
  · obtain ⟨x₀, x, hx₀, -, hcut⟩ := hr.exists_cut h₀ hclosed htail
    exact .inr ((hr.jumps_tail h₀ hx₀ hcut).1 hjump)

include hr h₀ hclosed in
theorem edge_origin (h : Origin c₀ c q p) (hedge : c.Edge q s) :
    (q = p ∧ TailOf c₀ c p s) ∨ c₀.Edge p s := by
  rcases hedge with hjump | hhandle
  · exact (hr.jumps_origin h₀ hclosed h hjump).imp_right .inl
  · exact .inr (.inr ((hr.handles_iff h₀ hclosed h).1 hhandle))

include hr h₀ in
/-- An old jump is made by the block itself or by its tail. -/
theorem jumps_lift (hjump : c₀.Jumps p s) :
    (c.Jumps p s ∧ ∀ t, c.Jumps p t → c₀.Jumps p t) ∨ ∃ t, TailOf c₀ c p t ∧ c.Jumps t s := by
  obtain ⟨x₀, -, -, hx₀, -⟩ := id hjump
  obtain ⟨x, hx⟩ := exists_block_iff.2 (hr.hasBlock (hasBlock_of_block hx₀))
  rcases hr.contents hx₀ hx with hspells | ⟨t, hcut⟩
  · have hiff : ∀ {s}, c.Jumps p s ↔ c₀.Jumps p s := hr.jumps_of_spells h₀ hx₀ hx hspells
    exact .inl ⟨hiff.2 hjump, fun t ht => hiff.1 ht⟩
  · exact .inr ⟨t, ⟨(hcut.jumps_head hx).2 rfl, hcut.new⟩, (hr.jumps_tail h₀ hx₀ hcut).2 hjump⟩

/-! ### Paths -/

include hr h₀ hclosed in
theorem reachable_origin (hq : c.Reachable q) (h : Origin c₀ c q p) : c₀.Reachable p := by
  have hentry : Origin c₀ c c.entry c₀.entry := origin_self h₀.entry
  induction hq generalizing p with
  | refl =>
    obtain rfl := hr.origin_unique h₀ hclosed hentry h
    exact .refl
  | @tail r q _ hedge ih =>
    obtain ⟨y, hy⟩ := hedge.exists_block
    obtain ⟨r₀, hr₀⟩ := hr.exists_origin (hasBlock_of_block hy)
    rcases hr.edge_origin h₀ hclosed hr₀ hedge with ⟨-, htail⟩ | hedge
    · obtain rfl := hr.origin_unique h₀ hclosed ⟨hr₀.1, .inr htail⟩ h
      exact ih hr₀
    · obtain rfl := eq_of_origin h (hclosed _ _ hedge)
      exact (ih hr₀).tail hedge

include hr h₀ hclosed in
/-- A path around a block that has not been cut is a path around the old block. -/
theorem avoids_origin {a a₀ : BlockId} (hwhole : ∀ t, ¬ TailOf c₀ c b t)
    (hq : Avoids c.Edge a b q) (ha : Origin c₀ c a a₀) (h : Origin c₀ c q p) :
    Avoids c₀.Edge a₀ b p := by
  have hne : ∀ {q p}, q ≠ b → Origin c₀ c q p → p ≠ b := by
    rintro q _ hq ⟨-, rfl | htail⟩ rfl
    · exact hq rfl
    · exact hwhole _ htail
  obtain ⟨hab, hpath⟩ := hq
  induction hpath generalizing p with
  | refl =>
    obtain rfl := hr.origin_unique h₀ hclosed ha h
    exact ⟨hne hab ha, .refl⟩
  | @tail r q _ hstep ih =>
    obtain ⟨hedge, hqb⟩ := hstep
    obtain ⟨y, hy⟩ := hedge.exists_block
    obtain ⟨r₀, hr₀⟩ := hr.exists_origin (hasBlock_of_block hy)
    rcases hr.edge_origin h₀ hclosed hr₀ hedge with ⟨-, htail⟩ | hedge
    · obtain rfl := hr.origin_unique h₀ hclosed ⟨hr₀.1, .inr htail⟩ h
      exact ih hr₀
    · obtain rfl := eq_of_origin h (hclosed _ _ hedge)
      exact (ih hr₀).tail hedge hqb

include hr h₀ hclosed in
/-- An old path is still there, through the tails of the blocks that have been cut. -/
theorem path_lift {P : BlockId → Prop} {a : BlockId}
    (h : ReflTransGen (fun p q => c₀.Edge p q ∧ (∀ t, TailOf c₀ c p t → P t) ∧ P q) a s) :
    ReflTransGen (fun p q => c.Edge p q ∧ P q) a s := by
  induction h with
  | refl => exact .refl
  | @tail p q _ hstep ih =>
    obtain ⟨hedge, htails, hq⟩ := hstep
    rcases hedge with hjump | hhandle
    · rcases hr.jumps_lift h₀ hjump with ⟨hjump, -⟩ | ⟨t, htail, hjump⟩
      · exact ih.tail ⟨.inl hjump, hq⟩
      · exact (ih.tail ⟨.inl htail.1, htails t htail⟩).tail ⟨.inl hjump, hq⟩
    · obtain ⟨x₀, hx₀, -⟩ := id hhandle
      have := (hr.handles_iff h₀ hclosed (origin_self (hasBlock_of_block hx₀))).2 hhandle
      exact ih.tail ⟨.inr this, hq⟩

include hr h₀ hclosed in
theorem reachable_lift (h : c₀.Reachable s) : c.Reachable s := by
  have hlift := hr.path_lift h₀ hclosed (P := fun _ => True)
    (ReflTransGen.mono (fun _ _ hedge => ⟨hedge, fun _ _ => trivial, trivial⟩) _ _ h)
  exact ReflTransGen.mono (fun _ _ hedge => hedge.1) _ _ hlift

include hr h₀ hclosed in
theorem closed : c.Closed := by
  intro q s hedge
  obtain ⟨y, hy⟩ := hedge.exists_block
  obtain ⟨p, hp⟩ := hr.exists_origin (hasBlock_of_block hy)
  rcases hr.edge_origin h₀ hclosed hp hedge with ⟨-, htail⟩ | hedge
  · obtain ⟨x₀, x, -, -, hcut⟩ := hr.exists_cut h₀ hclosed htail
    obtain ⟨-, -, z, -, -, -, -, -, hz, -⟩ := hcut.parts
    exact hasBlock_of_block hz
  · exact hr.hasBlock (hclosed _ _ hedge)

/-! ### The places of old instructions -/

include hr h₀ hclosed in
theorem blockOf_origin (hc : c.Arranged) (hi : c₀.HasInstruction i) (hof : c.blockOf i = .ok q) :
    ∃ p, Origin c₀ c q p ∧ c₀.blockOf i = .ok p := by
  obtain ⟨y, hy, hmem⟩ := hc.recorded hof
  obtain ⟨p, hp⟩ := hr.exists_origin (hasBlock_of_block hy)
  obtain ⟨x₀, hx₀⟩ := exists_block_iff.2 hp.1
  refine ⟨p, hp, h₀.placed hx₀ i ?_⟩
  rcases hp with ⟨hp, rfl | htail⟩
  · rcases hr.contents hx₀ hy with hspells | ⟨t, hcut⟩
    · exact (hspells.mem_iff hi).1 hmem
    · obtain ⟨l, k, z, j, rest, hins, hk, -, -, -, -, hspells, -⟩ := hcut.parts
      rw [hins, List.mem_append, List.mem_singleton] at hmem
      rcases hmem with hmem | rfl
      · exact (hspells.mem_iff hi).1 (List.mem_append_left _ hmem)
      · exact absurd hi hk
  · obtain ⟨x₀', x, hx₀', -, hcut⟩ := hr.exists_cut h₀ hclosed htail
    obtain rfl : x₀ = x₀' := Except.ok.inj (hx₀.symm.trans hx₀')
    obtain ⟨l, k, z, j, rest, -, -, -, hz, -, -, hspells, -⟩ := hcut.parts
    obtain rfl : y = z := Except.ok.inj (hy.symm.trans hz)
    exact (hspells.mem_iff hi).1 (List.mem_append_right _ hmem)

include hr h₀ in
theorem exists_blockOf (hc : c.Arranged) (hof : c₀.blockOf i = .ok p) :
    ∃ q, Origin c₀ c q p ∧ c.blockOf i = .ok q := by
  obtain ⟨x₀, hx₀, hmem⟩ := h₀.recorded hof
  have hp := hasBlock_of_block hx₀
  obtain ⟨z, hz, -⟩ := blockOf_eq_ok.1 hof
  have hi := exists_instruction_iff.1 ⟨z, hz⟩
  obtain ⟨x, hx⟩ := exists_block_iff.2 (hr.hasBlock hp)
  rcases hr.contents hx₀ hx with hspells | ⟨t, hcut⟩
  · exact ⟨p, origin_self hp, hc.placed hx i ((hspells.mem_iff hi).2 hmem)⟩
  · obtain ⟨l, k, y, j, rest, hins, -, -, hy, -, -, hspells, -⟩ := hcut.parts
    rcases List.mem_append.1 ((hspells.mem_iff hi).2 hmem) with hmem | hmem
    · exact ⟨p, origin_self hp, hc.placed hx i (by simp [hins, hmem])⟩
    · exact ⟨t, ⟨hp, .inr ⟨(hcut.jumps_head hx).2 rfl, hcut.new⟩⟩, hc.placed hy i hmem⟩

include hr h₀ hclosed in
/-- Every block belongs to a list of instructions that spells the old block behind it. -/
theorem exists_spells (hy : c.block q = .ok y) (h : Origin c₀ c q p) :
    ∃ x₀ l, c₀.block p = .ok x₀ ∧ Spells c₀ c x₀ l ∧
      ∀ k ∈ y.instructions, k ∈ l ∨ ∃ t, c.operation k = .ok (.goto t) := by
  obtain ⟨x₀, hx₀⟩ := exists_block_iff.2 h.1
  rcases h with ⟨-, rfl | htail⟩
  · rcases hr.contents hx₀ hy with hspells | ⟨t, hcut⟩
    · exact ⟨x₀, _, hx₀, hspells, fun k hk => .inl hk⟩
    · obtain ⟨l, k, z, i, rest, hins, -, hgoto, -, -, -, hspells, -⟩ := hcut.parts
      refine ⟨x₀, _, hx₀, hspells, fun j hj => ?_⟩
      rw [hins, List.mem_append, List.mem_singleton] at hj
      rcases hj with hj | rfl
      · exact .inl (List.mem_append_left _ hj)
      · exact .inr ⟨t, hgoto⟩
  · obtain ⟨x₀', x, hx₀', -, hcut⟩ := hr.exists_cut h₀ hclosed htail
    obtain rfl := Except.ok.inj (hx₀.symm.trans hx₀')
    obtain ⟨l, k, z, i, rest, -, -, -, hz, -, -, hspells, -⟩ := hcut.parts
    obtain rfl := Except.ok.inj (hy.symm.trans hz)
    exact ⟨x₀, _, hx₀, hspells, fun j hj => .inl (List.mem_append_right _ hj)⟩

include hr h₀ hclosed in
/-- A new cast is made for a call of the old block behind its own. -/
theorem exists_anchors {r : ValueId} {name : TypeName} (hc : c.Arranged)
    (hk : ¬ c₀.HasInstruction k) (hop : c.operation k = .ok (.cast u r name))
    (hof : c.blockOf k = .ok q) :
    ∃ i p, Anchors c₀ c k i ∧ c₀.blockOf i = .ok p ∧ Origin c₀ c q p := by
  obtain ⟨y, hy, hmem⟩ := hc.recorded hof
  obtain ⟨p, hp⟩ := hr.exists_origin (hasBlock_of_block hy)
  obtain ⟨x₀, l, hx₀, hspells, hl⟩ := hr.exists_spells h₀ hclosed hy hp
  rcases hl k hmem with hkl | ⟨t, hgoto⟩
  · obtain ⟨i, hi, hanchors⟩ := hspells.exists_anchors hkl hk
    exact ⟨i, p, hanchors, h₀.placed hx₀ i hi, hp⟩
  · exact Operation.noConfusion (Except.ok.inj (hop.symm.trans hgoto))

include hr h₀ hclosed in
/-- What reads an old value has taken the place of an instruction that read it, in a block that has
come from the same old one. -/
theorem exists_reads_old (hc : c.Arranged) (hv : c₀.HasValue v) (hreads : c.Reads i v)
    (hof : c.blockOf i = .ok q) :
    ∃ j p, c₀.Reads j v ∧ c₀.blockOf j = .ok p ∧ Origin c₀ c q p := by
  obtain ⟨op, hop, hmem⟩ := hreads
  by_cases hi : c₀.HasInstruction i
  · obtain ⟨op₀, hop₀⟩ := hi.exists_operation
    obtain ⟨op', hop', hrender⟩ := hr.operation hop₀
    obtain rfl := Except.ok.inj (hop.symm.trans hop')
    obtain ⟨w, hw, hstands⟩ := hrender.exists_of_mem hmem
    obtain rfl := hstands.eq_of_old hr hv
    obtain ⟨p, hp, hof⟩ := hr.blockOf_origin h₀ hclosed hc hi hof
    exact ⟨i, p, ⟨_, hop₀, hw⟩, hof, hp⟩
  · -- a new cast reads the value for the call it stands before
    rcases hr.created hop hi with ⟨t, rfl, -⟩ | ⟨u, r, name, rfl, -⟩
    · simp [Operation.operands] at hmem
    · obtain rfl : v = r := by simpa [Operation.operands] using hmem
      obtain ⟨j, p, hanchors, hj, hp⟩ := hr.exists_anchors h₀ hclosed hc hi hop hof
      obtain ⟨_, _, _, call₀, w, hcast, hcall, hw, hstands, -⟩ := hanchors
      obtain ⟨-, rfl, -⟩ := Operation.cast.inj (Except.ok.inj (hop.symm.trans hcast))
      obtain rfl := hstands.eq_of_old hr hv
      exact ⟨j, p, ⟨_, hcall, List.mem_of_head? hw⟩, hj, hp⟩

/-! ### Calls not treated yet -/

include hr in
theorem isCall_old (hi : c₀.HasInstruction i) (hcall : c.IsCall i) : c₀.IsCall i := by
  obtain ⟨call, hcall⟩ := hcall
  obtain ⟨op₀, hop₀⟩ := hi.exists_operation
  obtain ⟨op, hop, hrender⟩ := hr.operation hop₀
  obtain rfl := Except.ok.inj (hcall.symm.trans hop)
  obtain ⟨call₀, hcall₀⟩ := hrender.to_call
  exact ⟨call₀, hop₀.trans (congrArg _ hcall₀)⟩

include hr h₀ in
/-- A call that is not virtual yet stands in a block that has not been cut, and no cast has been
placed before it. -/
theorem whole_of_not_dispatches (h : c₀.Consistent) (hI : c.Arranged) (hx : c.block q = .ok x)
    (hn : x.instructions[n]? = some i) (hi : c₀.HasInstruction i) (hcall : c.IsCall i)
    (hnot : ¬ c.Dispatches i) :
    ∃ x₀, c₀.block q = .ok x₀ ∧ Spells c₀ c x₀ x.instructions ∧
      ∀ j ∈ (x.instructions.take n).getLast?, c₀.HasInstruction j := by
  have hof := hI.placed hx i (List.mem_of_getElem? hn)
  obtain ⟨call₀, hcall₀⟩ := hr.isCall_old hi hcall
  -- the tail of a cut block begins with the only throwing instruction of the old block
  have hcut : ∀ {p t x₀ z}, c₀.block p = .ok x₀ → c.block p = .ok z → Cut c₀ c p t x₀ z →
      c.blockOf i ≠ .ok p ∧ c.blockOf i ≠ .ok t := by
    intro p t x₀ z hx₀ hz hcut
    obtain ⟨l, k, y, j, rest, hins, hk, -, hy, hyins, ⟨⟨call₁, hcall₁⟩, hdispatches⟩, hspells, -⟩ :=
      hcut.parts
    have hmem : i ∉ l ++ y.instructions := by
      intro hmem
      have hj : c₀.HasInstruction j := hasInstruction_of_operation hcall₁
      refine hnot ((h.throws hx₀ hcut.guarded i ((hspells.mem_iff hi).1 hmem) j
        ((hspells.mem_iff hj).1 (by simp [hyins])) _ _ hcall₀ hcall₁ rfl rfl) ▸ hdispatches)
    constructor
    · intro hof
      obtain ⟨z', hz', hmem'⟩ := hI.recorded hof
      obtain rfl := Except.ok.inj (hz.symm.trans hz')
      rw [hins, List.mem_append, List.mem_singleton] at hmem'
      rcases hmem' with hmem' | rfl
      · exact hmem (List.mem_append_left _ hmem')
      · exact hk hi
    · intro hof
      obtain ⟨y', hy', hmem'⟩ := hI.recorded hof
      obtain rfl := Except.ok.inj (hy.symm.trans hy')
      exact hmem (List.mem_append_right _ hmem')
  obtain ⟨p, hp, rfl | htail⟩ := hr.exists_origin (hasBlock_of_block hx)
  · obtain ⟨x₀, hx₀⟩ := exists_block_iff.2 hp
    rcases hr.contents hx₀ hx with hspells | ⟨t, hc⟩
    · refine ⟨x₀, hx₀, hspells, fun j hj => ?_⟩
      by_contra hjnew
      have hsplit : x.instructions = x.instructions.take n ++ i :: x.instructions.drop (n + 1) := by
        obtain ⟨hlt, rfl⟩ := List.getElem?_eq_some_iff.1 hn
        rw [← List.drop_eq_getElem_cons hlt, List.take_append_drop]
      have hchain := hspells.anchored
      rw [hsplit, List.isChain_append] at hchain
      obtain ⟨-, -, -, -, -, -, -, -, -, hdispatches⟩ := hchain.2.2 j hj i (by simp) hjnew
      exact hnot hdispatches
    · exact absurd hof (hcut hx₀ hx hc).1
  · obtain ⟨x₀, z, hx₀, hz, hc⟩ := hr.exists_cut h₀ h.closed htail
    exact absurd hof (hcut hx₀ hz hc).2

end Rewritten

end Body

end Devirt
