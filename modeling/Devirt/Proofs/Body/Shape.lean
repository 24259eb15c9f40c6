import Devirt.Proofs.Body.Consistency
import Devirt.Proofs.Body.Uses

/-!
Edits that change what instructions and phis read, or which methods are called, leave the shape of
a body alone: its control flow and the places of all definitions. Such an edit keeps a body
consistent as long as every new operand is there where it is read.
-/

namespace Devirt

open Relation

/-- What the shape of a body takes from a block. -/
def Block.outline (x : Block) : List InstrId × List BlockId × List Handler × List ValueId :=
  (x.instructions, x.predecessors, x.handlers, x.phis.map (·.out))

/-- What the shape of a body takes from an operation. -/
def Operation.outline (op : Operation) : Option ValueId × List BlockId × Bool × Bool :=
  (op.out?, op.targets, op.canThrow, op.isTerminator)

namespace Body

/-- The second body differs from the first one at most in operands, calls and values. -/
structure SameShape (c d : Body) : Prop where
  outline_block : ∀ b, Block.outline <$> d.block b = Block.outline <$> c.block b
  outline_operation : ∀ i, Operation.outline <$> d.operation i = Operation.outline <$> c.operation i
  blockOf_eq : ∀ i, d.blockOf i = c.blockOf i

namespace SameShape

variable {c d e : Body} {a b p s : BlockId} {i : InstrId} {v : ValueId} {op : Operation} {n : Nat}

theorem refl (c : Body) : SameShape c c := ⟨fun _ => rfl, fun _ => rfl, fun _ => rfl⟩

theorem trans (h : SameShape c d) (h' : SameShape d e) : SameShape c e :=
  ⟨fun b => (h'.outline_block b).trans (h.outline_block b),
    fun i => (h'.outline_operation i).trans (h.outline_operation i),
    fun i => (h'.blockOf_eq i).trans (h.blockOf_eq i)⟩

theorem symm (h : SameShape c d) : SameShape d c :=
  ⟨fun b => (h.outline_block b).symm, fun i => (h.outline_operation i).symm,
    fun i => (h.blockOf_eq i).symm⟩

theorem exists_block (h : SameShape c d) {x : Block} (hx : c.block b = .ok x) :
    ∃ y, d.block b = .ok y ∧ y.instructions = x.instructions ∧ y.predecessors = x.predecessors ∧
      y.handlers = x.handlers ∧ y.phis.map (·.out) = x.phis.map (·.out) := by
  have := h.outline_block b
  rw [hx] at this
  obtain ⟨y, hy, heq⟩ := map_eq_ok.1 this
  simp only [Block.outline, Prod.mk.injEq] at heq
  exact ⟨y, hy, heq⟩

theorem exists_operation (h : SameShape c d) (hop : c.operation i = .ok op) :
    ∃ op', d.operation i = .ok op' ∧ op'.out? = op.out? ∧ op'.targets = op.targets ∧
      op'.canThrow = op.canThrow ∧ op'.isTerminator = op.isTerminator := by
  have := h.outline_operation i
  rw [hop] at this
  obtain ⟨op', hop', heq⟩ := map_eq_ok.1 this
  simp only [Operation.outline, Prod.mk.injEq] at heq
  exact ⟨op', hop', heq⟩

private theorem jumps_mono (h : SameShape c d) (hj : c.Jumps b s) : d.Jumps b s := by
  obtain ⟨x, i, op, hx, hlast, hop, hs⟩ := hj
  obtain ⟨y, hy, hins, -⟩ := h.exists_block hx
  obtain ⟨op', hop', -, htargets, -⟩ := h.exists_operation hop
  exact ⟨y, i, op', hy, hins ▸ hlast, hop', htargets ▸ hs⟩

private theorem handles_mono (h : SameShape c d) (hh : c.Handles b s) : d.Handles b s := by
  obtain ⟨x, hx, hmem⟩ := hh
  obtain ⟨y, hy, -, -, hhandlers, -⟩ := h.exists_block hx
  exact ⟨y, hy, hhandlers ▸ hmem⟩

theorem jumps_iff (h : SameShape c d) : d.Jumps b s ↔ c.Jumps b s :=
  ⟨h.symm.jumps_mono, h.jumps_mono⟩

theorem handles_iff (h : SameShape c d) : d.Handles b s ↔ c.Handles b s :=
  ⟨h.symm.handles_mono, h.handles_mono⟩

theorem edge_eq (h : SameShape c d) : d.Edge = c.Edge := by
  funext b s
  exact propext (or_congr h.jumps_iff h.handles_iff)

theorem reachable_iff (h : SameShape c d) : d.Reachable b ↔ c.Reachable b := by
  rw [Reachable, h.edge_eq, Reachable]
  rfl

theorem dominates_iff (h : SameShape c d) : d.Dominates a b ↔ c.Dominates a b := by
  rw [Dominates, h.edge_eq, Dominates]
  rfl

private theorem outputs_mono (h : SameShape c d) (hi : c.Outputs i v) : d.Outputs i v := by
  obtain ⟨op, hop, hout⟩ := hi
  obtain ⟨op', hop', hout', -⟩ := h.exists_operation hop
  exact ⟨op', hop', hout' ▸ hout⟩

theorem outputs_iff (h : SameShape c d) : d.Outputs i v ↔ c.Outputs i v :=
  ⟨h.symm.outputs_mono, h.outputs_mono⟩

private theorem exists_phi_mono (h : SameShape c d) (hb : ∃ phi, c.HasPhi b phi ∧ phi.out = v) :
    ∃ phi, d.HasPhi b phi ∧ phi.out = v := by
  obtain ⟨phi, ⟨x, hx, hphi⟩, rfl⟩ := hb
  obtain ⟨y, hy, -, -, -, houts⟩ := h.exists_block hx
  have : phi.out ∈ y.phis.map (·.out) := houts ▸ List.mem_map_of_mem hphi
  obtain ⟨phi', hphi', hout⟩ := List.mem_map.1 this
  exact ⟨phi', ⟨y, hy, hphi'⟩, hout⟩

theorem exists_phi_iff (h : SameShape c d) :
    (∃ phi, d.HasPhi b phi ∧ phi.out = v) ↔ ∃ phi, c.HasPhi b phi ∧ phi.out = v :=
  ⟨h.symm.exists_phi_mono, h.exists_phi_mono⟩

theorem isDefined_iff (h : SameShape c d) : d.IsDefined v ↔ c.IsDefined v := by
  simp only [IsDefined, h.outputs_iff, h.exists_phi_iff]

theorem terminator?_eq (h : SameShape c d) : d.terminator? b = c.terminator? b := by
  refine bind_congr_of_map (h.outline_block b) fun x y _ _ houtline => ?_
  have hins : y.instructions = x.instructions := congrArg (·.1) houtline
  rw [hins]
  cases x.instructions.getLast? with
  | none => rfl
  | some i =>
    refine bind_congr_of_map (h.outline_operation i) fun op op' _ _ houtline => ?_
    have hterm : op'.isTerminator = op.isTerminator := congrArg (·.2.2.2) houtline
    rw [hterm]

theorem normalSuccessors_eq (h : SameShape c d) : d.normalSuccessors b = c.normalSuccessors b := by
  unfold normalSuccessors
  rw [h.terminator?_eq]
  congr 1
  funext o
  cases o with
  | none => rfl
  | some i =>
    refine bind_congr_of_map (h.outline_operation i) fun op op' _ _ houtline => ?_
    have htargets : op'.targets = op.targets := congrArg (·.2.1) houtline
    rw [htargets]

theorem successors_eq (h : SameShape c d) : d.successors b = c.successors b := by
  unfold successors
  rw [h.normalSuccessors_eq]
  congr 1
  funext jumps
  refine bind_congr_of_map (h.outline_block b) fun x y _ _ houtline => ?_
  have hhandlers : y.handlers = x.handlers := congrArg (·.2.2.1) houtline
  rw [hhandlers]

/-- Dominance is read off the shape. -/
theorem dominators_eq (h : SameShape c d) (horder : d.order = c.order)
    (hversion : d.version = c.version) : d.dominators = c.dominators := by
  unfold dominators flow
  simp only [horder, hversion, h.successors_eq]
  rfl

private theorem resultFrom_mono (h : SameShape c d) {op' : Operation} {r : BlockId}
    (hthrow : op'.canThrow = op.canThrow) (ha : c.ResultFrom op r a) : d.ResultFrom op' r a := by
  obtain ⟨x, hx, hcond⟩ := ha
  obtain ⟨y, hy, -, -, hhandlers, -⟩ := h.exists_block hx
  refine ⟨y, hy, ?_⟩
  have hguard : y.isGuarded = x.isGuarded := by rw [Block.isGuarded, hhandlers, Block.isGuarded]
  rw [hthrow, hguard]
  split
  · rename_i hif
    rw [if_pos hif] at hcond
    obtain ⟨hnext, z, hz, hpred⟩ := hcond
    obtain ⟨z', hz', -, hpred', -⟩ := h.exists_block hz
    exact ⟨h.normalSuccessors_eq.trans hnext, z', hz', hpred'.trans hpred⟩
  · rename_i hif
    rwa [if_neg hif] at hcond

private theorem availableFrom_mono (h : SameShape c d) (ha : c.AvailableFrom v a) :
    d.AvailableFrom v a := by
  rcases ha with hphi | ⟨i, op, r, hop, hout, hr, ha⟩
  · exact .inl (h.exists_phi_mono hphi)
  · obtain ⟨op', hop', hout', -, hthrow, -⟩ := h.exists_operation hop
    exact .inr ⟨i, op', r, hop', hout' ▸ hout, (h.blockOf_eq i).trans hr, h.resultFrom_mono hthrow ha⟩

theorem availableFrom_iff (h : SameShape c d) : d.AvailableFrom v a ↔ c.AvailableFrom v a :=
  ⟨h.symm.availableFrom_mono, h.availableFrom_mono⟩

theorem ready_iff (h : SameShape c d) : d.Ready v b n ↔ c.Ready v b n := by
  simp only [Ready, h.outputs_iff, h.blockOf_eq, h.availableFrom_iff, h.dominates_iff]
  refine or_congr ?_ Iff.rfl
  constructor
  · rintro ⟨i, y, k, hi, hy, hk⟩
    obtain ⟨x, hx, hins, -⟩ := h.symm.exists_block hy
    exact ⟨i, x, k, hi, hx, hins ▸ hk⟩
  · rintro ⟨i, x, k, hi, hx, hk⟩
    obtain ⟨y, hy, hins, -⟩ := h.exists_block hx
    exact ⟨i, y, k, hi, hy, hins ▸ hk⟩

private theorem onEdge_mono (h : SameShape c d) (ho : c.OnEdge v p b) : d.OnEdge v p b := by
  rcases ho with ⟨i, op, hop, hout, hof, hcond⟩ | ⟨hnot, a, ha, hdom⟩
  · obtain ⟨op', hop', hout', -, hthrow, -⟩ := h.exists_operation hop
    refine .inl ⟨i, op', hop', hout' ▸ hout, (h.blockOf_eq i).trans hof, fun ht hh => ?_⟩
    exact h.jumps_iff.2 (hcond (hthrow ▸ ht) (h.handles_iff.1 hh))
  · refine .inr ⟨fun i hi => ?_, a, h.availableFrom_iff.2 ha, h.dominates_iff.2 hdom⟩
    rw [h.blockOf_eq]
    exact hnot i (h.outputs_iff.1 hi)

theorem onEdge_iff (h : SameShape c d) : d.OnEdge v p b ↔ c.OnEdge v p b :=
  ⟨h.symm.onEdge_mono, h.onEdge_mono⟩

/-- The control flow stays in order. -/
theorem controlled (h : SameShape c d) (hc : c.Controlled)
    (harity : ∀ {b y}, d.block b = .ok y → ∀ phi ∈ y.phis,
      phi.operands.length = y.predecessors.length) : d.Controlled where
  terminated hy := by
    obtain ⟨x, hx, hins, -⟩ := h.symm.exists_block hy
    obtain ⟨i, op, hlast, hop, hterm⟩ := hc.terminated hx
    obtain ⟨op', hop', -, -, -, hterm'⟩ := h.exists_operation hop
    exact ⟨i, op', hins ▸ hlast, hop', hterm'.trans hterm⟩
  inner hy i hi op hop := by
    obtain ⟨x, hx, hins, -⟩ := h.symm.exists_block hy
    obtain ⟨op', hop', -, -, -, hterm⟩ := h.symm.exists_operation hop
    rw [← hterm]
    exact hc.inner hx i (hins ▸ hi) op' hop'
  symmetric_out hedge := by
    rw [h.edge_eq] at hedge
    obtain ⟨x, hx, hmem⟩ := hc.symmetric_out hedge
    obtain ⟨y, hy, -, hpred, -⟩ := h.exists_block hx
    exact ⟨y, hy, hpred ▸ hmem⟩
  symmetric_in hy p hp := by
    obtain ⟨x, hx, -, hpred, -⟩ := h.symm.exists_block hy
    rw [h.edge_eq]
    exact hc.symmetric_in hx p (hpred ▸ hp)
  throws hy hguard i hi j hj op op' hop hop' ht ht' := by
    obtain ⟨x, hx, hins, -, hhandlers, -⟩ := h.symm.exists_block hy
    obtain ⟨o, ho, -, -, hthrow, -⟩ := h.symm.exists_operation hop
    obtain ⟨o', ho', -, -, hthrow', -⟩ := h.symm.exists_operation hop'
    refine hc.throws hx ?_ i (hins ▸ hi) j (hins ▸ hj) o o' ho ho' (hthrow ▸ ht) (hthrow' ▸ ht')
    rwa [Block.isGuarded, hhandlers]
  arity := harity

/-- What an edit has to show when it leaves the shape alone. -/
theorem consistent (h : SameShape c d) (hc : c.Consistent)
    (harity : ∀ {b y}, d.block b = .ok y → ∀ phi ∈ y.phis,
      phi.operands.length = y.predecessors.length)
    (hoperands : ∀ {b y n i op}, d.block b = .ok y → y.instructions[n]? = some i →
      d.operation i = .ok op → ∀ v ∈ op.operands,
        c.IsDefined v ∧ (c.Reachable b → c.Ready v b n))
    (hinputs : ∀ {b y phi}, d.block b = .ok y → phi ∈ y.phis →
      ∀ q ∈ phi.operands.zip y.predecessors,
        c.IsDefined q.1 ∧ (c.Reachable q.2 → c.OnEdge q.1 q.2 b)) : d.Consistent := by
  refine (h.controlled hc.controlled harity).consistent ?_ ?_
  · intro b y n i op hy hn hop v hv
    rw [h.isDefined_iff, h.reachable_iff, h.ready_iff]
    exact hoperands hy hn hop v hv
  · intro b y phi hy hphi q hq
    rw [h.isDefined_iff, h.reachable_iff, h.onEdge_iff]
    exact hinputs hy hphi q hq

end SameShape

/-! ### The edits that keep the shape -/

variable {c : Body} {b p : BlockId} {i : InstrId} {v old new phi : ValueId} {op op' : Operation}
  {x : Block}

theorem sameShape_updateValues {g : ValueId → Value → Value} : SameShape c (c.updateValues g) :=
  ⟨fun _ => rfl, fun _ => rfl, fun _ => rfl⟩

theorem sameShape_createValue {t : StaticType} : SameShape c (c.createValue t).2 :=
  ⟨fun _ => rfl, fun _ => rfl, fun _ => rfl⟩

theorem sameShape_replaced (hop : c.operation i = .ok op) (houtline : op'.outline = op.outline) :
    SameShape c (c.replaced i op op') where
  outline_block _ := rfl
  outline_operation j := by
    rw [replaced, operation_updateValues]
    refine map_operation_updateOperation (fun o ho => ?_) j
    obtain rfl : o = op := Except.ok.inj (ho.symm.trans hop)
    exact houtline
  blockOf_eq _ := blockOf_replaced

theorem sameShape_redirected : SameShape c (c.redirected i old new) where
  outline_block _ := rfl
  outline_operation j := by
    rw [redirected, operation_updateValues]
    refine map_operation_updateOperation (fun o _ => ?_) j
    simp [Operation.outline, Operation.replaceOperand]
  blockOf_eq _ := blockOf_redirected

private theorem map_out_modify {l : List Phi} {n : Nat} {operands : List ValueId} :
    (l.modify n fun q => { q with operands }).map (·.out) = l.map (·.out) := by
  refine List.ext_getElem? fun m => ?_
  simp only [List.getElem?_map, List.getElem?_modify]
  split
  · cases l[m]? <;> rfl
  · cases l[m]? <;> rfl

theorem sameShape_phiRedirected {operands : List ValueId} :
    SameShape c (c.phiRedirected b old new phi operands) where
  outline_block s := by
    rw [phiRedirected, block_updateValues]
    refine map_block_updateBlocks (fun s x => ?_) s
    split
    · simp only [Block.outline, Block.modifyPhi, map_out_modify]
    · rfl
  outline_operation _ := rfl
  blockOf_eq _ := rfl

/-- What values know of types and names does not matter. -/
theorem SameShape.consistent_of_operations {d : Body} (h : SameShape c d) (hc : c.Consistent)
    (hblock : ∀ b, d.block b = c.block b)
    (hoperation : ∀ i op', d.operation i = .ok op' →
      ∃ op, c.operation i = .ok op ∧ op'.operands = op.operands) : d.Consistent := by
  refine h.consistent hc (fun hy => hc.arity (hblock _ ▸ hy)) ?_ fun hy => hc.inputs (hblock _ ▸ hy)
  intro b y n i op' hy hn hop'
  obtain ⟨op, hop, heq⟩ := hoperation i op' hop'
  rw [heq]
  exact hc.operands (hblock b ▸ hy) hn hop

theorem Consistent.updateValues (hc : c.Consistent) {g : ValueId → Value → Value} :
    (c.updateValues g).Consistent :=
  sameShape_updateValues.consistent_of_operations hc (fun _ => rfl) fun _ op h => ⟨op, h, rfl⟩

theorem Consistent.createValue (hc : c.Consistent) (t : StaticType) :
    (c.createValue t).2.Consistent :=
  sameShape_createValue.consistent_of_operations hc (fun _ => rfl) fun _ op h => ⟨op, h, rfl⟩

theorem Consistent.replaced (hc : c.Consistent) (hop : c.operation i = .ok op)
    (houtline : op'.outline = op.outline) (hoperands : op'.operands = op.operands) :
    (c.replaced i op op').Consistent := by
  refine (sameShape_replaced hop houtline).consistent_of_operations hc (fun _ => rfl) ?_
  intro j o ho
  obtain ⟨o', ho', rfl⟩ := operation_replaced.1 ho
  refine ⟨o', ho', ?_⟩
  split
  · rename_i hji
    subst hji
    obtain rfl : o' = op := Except.ok.inj (ho'.symm.trans hop)
    exact hoperands
  · rfl

/-- An instruction may read another value that is there. -/
theorem Consistent.redirected (hc : c.Consistent) (hdef : c.IsDefined new)
    (hready : ∀ {b x n}, c.block b = .ok x → x.instructions[n]? = some i → c.Reachable b →
      c.Ready new b n) : (c.redirected i old new).Consistent := by
  refine sameShape_redirected.consistent hc (fun hy => hc.arity hy) ?_ fun hy => hc.inputs hy
  intro b x n j op' hx hn hop' v hv
  obtain ⟨op, hop, rfl⟩ := operation_redirected.1 hop'
  split at hv
  · rename_i hji
    subst hji
    rcases Operation.mem_operands_replaceOperand.1 hv with ⟨rfl, -⟩ | ⟨-, hv⟩
    · exact ⟨hdef, hready hx hn⟩
    · exact hc.operands hx hn hop v hv
  · exact hc.operands hx hn hop v hv

/-- A phi may read another value on the edges where it is there. -/
theorem Consistent.phiRedirected (hc : c.Consistent) (hI : c.Intact) (hx : c.block b = .ok x)
    {q : Phi} (hq : q ∈ x.phis) {edges : List Bool}
    (hdef : c.IsDefined new)
    (hedges : ∀ (n : Nat) p, x.predecessors[n]? = some p → edges[n]? = some true → c.Reachable p →
      c.OnEdge new p b) :
    (c.phiRedirected b old new phi (redirectInputs old new q.operands edges)).Consistent := by
  have hphis : ∀ {s y r}, (c.phiRedirected b old new phi
      (redirectInputs old new q.operands edges)).block s = .ok y → r ∈ y.phis →
      ∃ z, c.block s = .ok z ∧ y.predecessors = z.predecessors ∧
        (r ∈ z.phis ∨
          (s = b ∧ z = x ∧ r.operands = redirectInputs old new q.operands edges)) := by
    intro s y r hy hr
    obtain ⟨z, hz, rfl⟩ := block_phiRedirected.1 hy
    refine ⟨z, hz, by split <;> rfl, ?_⟩
    split at hr
    · rename_i hs
      subst hs
      obtain rfl : x = z := Except.ok.inj (hx.symm.trans hz)
      rw [Block.modifyPhi_phis (hI.phi_nodup hx), List.mem_map] at hr
      obtain ⟨r', hr', rfl⟩ := hr
      split
      · exact .inr ⟨rfl, rfl, rfl⟩
      · exact .inl hr'
    · exact .inl hr
  refine sameShape_phiRedirected.consistent hc ?_ ?_ ?_
  · intro s y hy r hr
    obtain ⟨z, hz, hpred, hr | ⟨-, rfl, hoperands⟩⟩ := hphis hy hr
    · rw [hpred, hc.arity hz r hr]
    · rw [hpred, hoperands, length_redirectInputs, hc.arity hx q hq]
  · intro s y n j o hy hn ho
    obtain ⟨z, hz, rfl⟩ := block_phiRedirected.1 hy
    exact hc.operands hz (by split at hn <;> exact hn) ho
  · intro s y r hy hr e he
    obtain ⟨z, hz, hpred, hr | ⟨rfl, rfl, hoperands⟩⟩ := hphis hy hr
    · exact hc.inputs hz hr e (hpred ▸ he)
    · obtain ⟨n, hn⟩ := List.mem_iff_getElem?.1 he
      rw [hoperands, hpred] at hn
      obtain ⟨hv, hp⟩ := List.getElem?_zip_eq_some.1 hn
      rw [getElem?_redirectInputs, Option.map_eq_some_iff] at hv
      obtain ⟨w, hw, hv⟩ := hv
      split at hv
      · rename_i hopen
        rw [← hv]
        exact ⟨hdef, hedges n e.2 hp hopen.2⟩
      · refine hc.inputs hx hq e (List.mem_iff_getElem?.2 ⟨n, List.getElem?_zip_eq_some.2 ⟨?_, hp⟩⟩)
        rw [hw, hv]

end Body

end Devirt
