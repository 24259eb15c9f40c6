import Devirt.Proofs.Body.Editing

/-!
What sealing makes of a draft. Every block gets one predecessor for each edge that leads to it, and
every pending phi gets for each predecessor the first value given for it. A sealed body whose values
are all defined can be inconsistent in its flow and in the number of operands of its phis only.
-/

namespace Devirt

/-! ### Operands of a phi -/

/-- The value of the first pair that is given for the block. -/
def FirstFor (incoming : List (BlockId × ValueId)) (p : BlockId) (v : ValueId) : Prop :=
  ∃ before after, incoming = before ++ (p, v) :: after ∧ ∀ e ∈ before, e.1 ≠ p

namespace PendingPhi

variable (q : PendingPhi) {preds : List BlockId} {p : BlockId} {v : ValueId}

theorem lookup_eq_some_iff : q.incoming.lookup p = some v ↔ FirstFor q.incoming p v := by
  rw [List.lookup_eq_some_iff, FirstFor]
  simp only [bne_iff_ne, ne_comm]

theorem isSome_lookup_iff : (q.incoming.lookup p).isSome = true ↔ ∃ v, (p, v) ∈ q.incoming := by
  constructor
  · intro h
    obtain ⟨v, hv⟩ := Option.isSome_iff_exists.1 h
    obtain ⟨before, after, heq, -⟩ := q.lookup_eq_some_iff.1 hv
    exact ⟨v, by simp [heq]⟩
  · rintro ⟨v, hv⟩
    cases hlookup : q.incoming.lookup p with
    | some w => rfl
    | none => simpa using List.lookup_eq_none_iff.1 hlookup _ hv

theorem exists_mem_incoming (hv : v ∈ q.operands preds) : ∃ p, (p, v) ∈ q.incoming := by
  obtain ⟨p, -, hp⟩ := List.mem_filterMap.1 hv
  obtain ⟨before, after, heq, -⟩ := q.lookup_eq_some_iff.1 hp
  exact ⟨p, by simp [heq]⟩

/-- Operands are missing only for predecessors without a pair. -/
theorem length_operands_eq_iff :
    (q.operands preds).length = preds.length ↔ ∀ p ∈ preds, ∃ v, (p, v) ∈ q.incoming := by
  rw [operands, List.filterMap_length_eq_length]
  simp only [isSome_lookup_iff]

theorem forall₂_operands (h : ∀ p ∈ preds, ∃ v, (p, v) ∈ q.incoming) :
    List.Forall₂ (FirstFor q.incoming) preds (q.operands preds) := by
  induction preds with
  | nil => exact .nil
  | cons p preds ih =>
    rw [List.forall_mem_cons] at h
    obtain ⟨v, hv⟩ := Option.isSome_iff_exists.1 (q.isSome_lookup_iff.2 h.1)
    have hcons : q.operands (p :: preds) = v :: q.operands preds := List.filterMap_cons_some hv
    rw [hcons]
    exact .cons (q.lookup_eq_some_iff.1 hv) (ih h.2)

end PendingPhi

namespace Body

variable {c d : Body} {b p s : BlockId} {v : ValueId} {x : Block}

/-! ### Predecessors -/

theorem edge_updateBlocks {g : BlockId → Block → Block}
    (hg : ∀ b x, (g b x).instructions = x.instructions ∧ (g b x).handlers = x.handlers) :
    (c.updateBlocks g).Edge b s ↔ c.Edge b s := by
  refine ⟨edge_of_updateBlocks hg, ?_⟩
  rintro (⟨x, i, op, hx, hlast, hop, hs⟩ | ⟨x, hx, h, hh, hs⟩)
  · exact .inl ⟨g b x, i, op, block_updateBlocks.2 ⟨x, hx, rfl⟩, by rwa [(hg b x).1], hop, hs⟩
  · exact .inr ⟨g b x, block_updateBlocks.2 ⟨x, hx, rfl⟩, h, by rwa [(hg b x).2], hs⟩

/-- The body with other predecessors. -/
def withPredecessors (c : Body) (preds : BlockId → List BlockId) : Body :=
  c.updateBlocks fun b x => { x with predecessors := preds b }

theorem hasBlock_withPredecessors {preds : BlockId → List BlockId} :
    (c.withPredecessors preds).HasBlock b ↔ c.HasBlock b := hasBlock_updateBlocks

theorem edge_withPredecessors {preds : BlockId → List BlockId} :
    (c.withPredecessors preds).Edge b s ↔ c.Edge b s :=
  edge_updateBlocks fun _ _ => ⟨rfl, rfl⟩

/-- The block enters the predecessors of each of its targets, once for each time it is one. -/
theorem foldlM_enter {preds : BlockId → List BlockId} {targets : List BlockId}
    (htargets : ∀ s ∈ targets, c.HasBlock s) :
    targets.foldlM (fun c s => c.modifyBlock s fun x =>
        { x with predecessors := x.predecessors ++ [b] }) (c.withPredecessors preds) =
      .ok (c.withPredecessors fun s => preds s ++ List.replicate (targets.count s) b) := by
  induction targets generalizing preds with
  | nil => simp
  | cons s targets ih =>
    rw [List.forall_mem_cons] at htargets
    have henter : ((c.withPredecessors preds).modifyBlock s fun x =>
        { x with predecessors := x.predecessors ++ [b] }) =
        .ok (c.withPredecessors fun r => preds r ++ if r = s then [b] else []) := by
      refine modifyBlock_eq_ok.2 ⟨hasBlock_withPredecessors.2 htargets.1, ?_⟩
      rw [withPredecessors, withPredecessors, updateBlocks_updateBlocks]
      congr
      funext r x
      split <;> simp
    rw [List.foldlM_cons, henter, ok_bind, ih htargets.2]
    congr
    funext r
    rw [List.append_assoc, List.count_cons, Nat.add_comm, List.replicate_add]
    congr 2
    by_cases hrs : r = s
    · simp [hrs]
    · simp [hrs, Ne.symm hrs]

theorem foldlM_enterAll (preds : BlockId → List BlockId) {edges : List (BlockId × List BlockId)}
    (hedges : ∀ e ∈ edges, ∀ s ∈ e.2, c.HasBlock s) :
    edges.foldlM (fun c e => e.2.foldlM (fun c s => c.modifyBlock s fun x =>
        { x with predecessors := x.predecessors ++ [e.1] }) c) (c.withPredecessors preds) =
      .ok (c.withPredecessors fun s =>
        preds s ++ edges.flatMap fun e => List.replicate (e.2.count s) e.1) := by
  induction edges generalizing preds with
  | nil => simp
  | cons e edges ih =>
    rw [List.forall_mem_cons] at hedges
    rw [List.foldlM_cons, foldlM_enter hedges.1, ok_bind, ih _ hedges.2]
    congr
    funext s
    rw [List.flatMap_cons, List.append_assoc]

theorem connect_eq (c : Body) :
    c.connect = (do
      let edges ← c.order.mapM fun b => do
        return (b, ← (c.withPredecessors fun _ => []).successors b)
      edges.foldlM (fun c e => e.2.foldlM (fun c s => c.modifyBlock s fun x =>
          { x with predecessors := x.predecessors ++ [e.1] }) c)
        (c.withPredecessors fun _ => [])) := by
  have hblank : { c with blocks := (c.blocks.map fun x => { x with predecessors := [] }) } =
      c.withPredecessors fun _ => [] := by
    have hmap : (c.blocks.map fun x => { x with predecessors := [] }) =
        c.blocks.mapIdx fun _ x => { x with predecessors := [] } := List.ext_getElem? (by simp)
    rw [hmap]
    rfl
  rw [← hblank]
  rfl

/-- If all edges lead to blocks, predecessors can be settled, and they are what edges come from. -/
theorem exists_connect (hc : c.Arranged) (hclosed : c.Closed) :
    ∃ preds, c.connect = .ok (c.withPredecessors preds) ∧ ∀ p s, p ∈ preds s ↔ c.Edge p s := by
  have hblank : (c.withPredecessors fun _ => []).Arranged :=
    hc.congr rfl (map_block_updateBlocks fun _ _ => rfl) fun _ => rfl
  obtain ⟨edges, hedges⟩ : ∃ edges, (c.order.mapM fun b => do
      return (b, ← (c.withPredecessors fun _ => []).successors b)) = .ok edges := by
    refine exists_mapM_eq_ok.2 fun b hb => ?_
    obtain ⟨x, hx⟩ := exists_block_iff.2 ((hblank.mem_order b).1 hb)
    obtain ⟨l, hl⟩ := hblank.exists_successors hx
    exact ⟨(b, l), by simp [hl]⟩
  have hmem : ∀ p l, (p, l) ∈ edges ↔
      p ∈ c.order ∧ (c.withPredecessors fun _ => []).successors p = .ok l := by
    intro p l
    rw [mem_of_mapM_eq_ok hedges]
    simp [and_left_comm]
  have hedge : ∀ p l, (p, l) ∈ edges → ∀ s, s ∈ l ↔ c.Edge p s := by
    intro p l hl s
    rw [mem_successors ((hmem p l).1 hl).2, edge_withPredecessors]
  have hthere : ∀ e ∈ edges, ∀ s ∈ e.2, c.HasBlock s := fun e he s hs =>
    hclosed e.1 s ((hedge e.1 e.2 he s).1 hs)
  refine ⟨_, by rw [connect_eq, hedges, ok_bind, foldlM_enterAll _ hthere], fun p s => ?_⟩
  simp only [List.nil_append, List.mem_flatMap, List.mem_replicate]
  constructor
  · rintro ⟨⟨q, l⟩, he, hcount, rfl⟩
    exact (hedge p l he s).1 (List.count_pos_iff.1 (Nat.pos_of_ne_zero hcount))
  · intro hps
    obtain ⟨x, hx⟩ := hps.exists_block
    obtain ⟨l, hl⟩ := hblank.exists_successors (block_updateBlocks.2 ⟨x, hx, rfl⟩)
    have he : (p, l) ∈ edges := (hmem p l).2 ⟨(hc.mem_order p).2 (hasBlock_of_block hx), hl⟩
    exact ⟨(p, l), he, Nat.pos_iff_ne_zero.1 (List.count_pos_iff.2 ((hedge p l he s).2 hps)), rfl⟩

/-! ### Phis -/

/-- The body with the pending phis placed, the operands of each one chosen by the predecessors of
its block. -/
def placePhis (c : Body) (phis : List PendingPhi) : Except Fault Body :=
  phis.foldlM (fun c p => do
    let x ← c.block p.block
    c.placePhi p.block { out := p.out, operands := p.operands x.predecessors }) c

/-- What placing the phis makes of a block. -/
def filled (phis : List PendingPhi) (b : BlockId) (x : Block) : Block :=
  { x with
    phis := x.phis ++ (phis.filter (·.block = b)).map fun p =>
      { out := p.out, operands := p.operands x.predecessors } }

/-- Phis of blocks and values that are there can be placed, and only the phis of blocks change. -/
theorem exists_placePhis {phis : List PendingPhi}
    (hphis : ∀ q ∈ phis, c.HasBlock q.block ∧ c.HasValue q.out ∧
      ∀ e ∈ q.incoming, c.HasValue e.2) :
    ∃ d, c.placePhis phis = .ok d ∧
      (∀ b y, d.block b = .ok y ↔ ∃ x, c.block b = .ok x ∧ filled phis b x = y) ∧
      (∀ i, d.operation i = c.operation i) ∧ ∀ v, d.HasValue v ↔ c.HasValue v := by
  induction phis generalizing c with
  | nil => exact ⟨c, rfl, by simp [filled], fun _ => rfl, fun _ => Iff.rfl⟩
  | cons q phis ih =>
    rw [List.forall_mem_cons] at hphis
    obtain ⟨⟨hb, hout, hincoming⟩, hphis⟩ := hphis
    obtain ⟨x, hx⟩ := exists_block_iff.2 hb
    have hoperands : ∀ v ∈ q.operands x.predecessors, c.HasValue v := by
      intro v hv
      obtain ⟨p, hp⟩ := q.exists_mem_incoming hv
      exact hincoming _ hp
    have hhas : ∀ v phi, (c.withPhi q.block phi).HasValue v ↔ c.HasValue v := by
      intro v phi
      simp [Body.withPhi]
    obtain ⟨d, hd, hblock, hop, hvalue⟩ := ih (c := c.withPhi q.block
        { out := q.out, operands := q.operands x.predecessors }) fun r hr => by
      simpa [Body.withPhi] using hphis r hr
    refine ⟨d, ?_, fun b y => ?_, fun i => hop i, fun v => (hvalue v).trans (hhas v _)⟩
    · rw [placePhis, List.foldlM_cons, hx, ok_bind,
        placePhi_eq_ok.2 ⟨hb, hout, hoperands, rfl⟩]
      exact hd
    · simp only [hblock, block_withPhi]
      constructor
      · rintro ⟨_, ⟨z, hz, rfl⟩, rfl⟩
        refine ⟨z, hz, ?_⟩
        by_cases hbq : b = q.block
        · subst hbq
          obtain rfl : x = z := Except.ok.inj (hx.symm.trans hz)
          simp [filled]
        · simp [filled, hbq, Ne.symm hbq]
      · rintro ⟨z, hz, rfl⟩
        refine ⟨_, ⟨z, hz, rfl⟩, ?_⟩
        by_cases hbq : b = q.block
        · subst hbq
          obtain rfl : x = z := Except.ok.inj (hx.symm.trans hz)
          simp [filled]
        · simp [filled, hbq, Ne.symm hbq]

end Body

/-! ### Faults that records cannot show -/

/-- Faults in where control goes and where values are read. -/
def Violation.isOfFlow : Violation → Bool
  | .useNotDominated _ _ | .multipleThrowing _ _ | .missingTerminator _
  | .misplacedTerminator _ _ => true
  | _ => false

namespace Body

variable {c : Body} {b p : BlockId} {v : ValueId} {x : Block} {i : InstrId} {op : Operation}
  {n : Nat} {t : DominatorTree} {sites : List DefinitionSite} {l : List Violation} {e : Violation}

theorem isOfFlow_of_mem_terminatorViolations (h : c.terminatorViolations b x = .ok l)
    (he : e ∈ l) : e.isOfFlow = true := by
  simp only [terminatorViolations, bind_eq_ok, pure_eq_ok, Except.ok.injEq] at h
  obtain ⟨operations, -, rfl⟩ := h
  rcases List.mem_append.1 he with he | he
  · split at he
    · cases he
    · obtain rfl := List.mem_singleton.1 he
      rfl
  · obtain ⟨q, -, rfl⟩ := List.mem_map.1 he
    rfl

theorem isOfFlow_of_mem_guardViolations (h : c.guardViolations b x = .ok l) (he : e ∈ l) :
    e.isOfFlow = true := by
  simp only [guardViolations, bind_eq_ok, pure_eq_ok, Except.ok.injEq] at h
  obtain ⟨operations, -, rfl⟩ := h
  split at he
  · obtain rfl := List.mem_singleton.1 he
    rfl
  · cases he

/-- An operand that is defined and knows its reader can only be read in the wrong place. -/
theorem isOfFlow_of_mem_operandViolations (hc : c.Intact) (hsites : ∀ s, s ∈ sites ↔ c.Sites s)
    (hop : c.operation i = .ok op) (hv : v ∈ op.operands) (hdefined : c.IsDefined v)
    (h : c.operandViolations t sites b i n v = .ok l) (he : e ∈ l) : e.isOfFlow = true := by
  obtain ⟨s, hlast⟩ := (exists_last?_iff hc.toArranged hsites).2 hdefined
  obtain ⟨y, hy⟩ := hc.exists_value hop hv
  have huser : c.hasUser v i = .ok true := by
    simp [hasUser, hy, (hc.users hy i).2 ⟨op, hop, hv⟩]
  simp only [operandViolations, hlast, huser, ok_bind, if_true, List.nil_append, bind_eq_ok,
    pure_eq_ok, Except.ok.injEq] at h
  obtain ⟨defined, -, rfl⟩ := h
  split at he
  · obtain rfl := List.mem_singleton.1 he
    rfl
  · cases he

theorem isOfFlow_of_mem_inputViolations (hc : c.Arranged) (hsites : ∀ s, s ∈ sites ↔ c.Sites s)
    {phi : ValueId} (hdefined : c.IsDefined v) (h : c.inputViolations t sites b phi v p = .ok l)
    (he : e ∈ l) : e.isOfFlow = true := by
  obtain ⟨s, hlast⟩ := (exists_last?_iff hc hsites).2 hdefined
  simp only [inputViolations, hlast] at h
  split at h
  · simp only [bind_eq_ok, pure_eq_ok, Except.ok.injEq] at h
    obtain ⟨available, -, rfl⟩ := h
    split at he
    · cases he
    · obtain rfl := List.mem_singleton.1 he
      rfl
  · obtain rfl := Except.ok.inj h
    cases he

/-- What is found in a block of defined values whose edges are known on both ends. -/
theorem isOfFlow_of_mem_blockViolations (hc : c.Intact) (hsites : ∀ s, s ∈ sites ↔ c.Sites s)
    (hedges : ∀ {b x}, c.block b = .ok x → ∀ p, p ∈ x.predecessors ↔ c.Edge p b)
    (hclosed : c.Closed) (hdefined : ∀ v, c.HasValue v → c.IsDefined v)
    (hx : c.block b = .ok x) (h : c.blockViolations t sites b x = .ok l) (he : e ∈ l) :
    e.isOfFlow = true := by
  simp only [blockViolations, bind_eq_ok, pure_eq_ok, Except.ok.injEq] at h
  obtain ⟨ends, hends, edges, hedge, guards, hguards, operands, hoperands, inputs, hinputs, rfl⟩ :=
    h
  have hnone : c.edgeViolations b x = .ok [] := by
    refine (edgeViolations_eq_nil hc.toArranged hx).2 ⟨fun s hs => ?_, fun p => (hedges hx p).1⟩
    obtain ⟨y, hy⟩ := exists_block_iff.2 (hclosed b s hs)
    exact ⟨y, hy, (hedges hy b).2 hs⟩
  obtain rfl := Except.ok.inj (hnone.symm.trans hedge)
  simp only [List.append_nil, List.mem_append] at he
  rcases he with ((he | he) | he) | he
  · exact isOfFlow_of_mem_terminatorViolations hends he
  · exact isOfFlow_of_mem_guardViolations hguards he
  · simp only [instructionViolations, bind_eq_ok, pure_eq_ok, Except.ok.injEq] at hoperands
    obtain ⟨found, hfound, rfl⟩ := hoperands
    obtain ⟨r, hr, he⟩ := List.mem_flatten.1 he
    obtain ⟨q, -, hq⟩ := (mem_of_mapM_eq_ok hfound).1 hr
    simp only [bind_eq_ok, Except.ok.injEq] at hq
    obtain ⟨op, hop, lists, hlists, rfl⟩ := hq
    obtain ⟨r, hr, he⟩ := List.mem_flatten.1 he
    obtain ⟨v, hv, hr⟩ := (mem_of_mapM_eq_ok hlists).1 hr
    have hhas := hc.hasValue hop v (List.mem_append_right _ hv)
    exact isOfFlow_of_mem_operandViolations hc hsites hop hv (hdefined v hhas) hr he
  · simp only [phiViolations, bind_eq_ok, pure_eq_ok, Except.ok.injEq] at hinputs
    obtain ⟨found, hfound, rfl⟩ := hinputs
    obtain ⟨r, hr, he⟩ := List.mem_flatten.1 he
    obtain ⟨phi, hphi, hq⟩ := (mem_of_mapM_eq_ok hfound).1 hr
    simp only [bind_eq_ok, Except.ok.injEq] at hq
    obtain ⟨lists, hlists, rfl⟩ := hq
    obtain ⟨r, hr, he⟩ := List.mem_flatten.1 he
    obtain ⟨q, hq, hr⟩ := (mem_of_mapM_eq_ok hlists).1 hr
    have hhas := hc.phi_hasValue ⟨x, hx, hphi⟩ q.1 (List.mem_cons_of_mem _ (List.of_mem_zip hq).1)
    exact isOfFlow_of_mem_inputViolations hc.toArranged hsites (hdefined q.1 hhas) hr he

/-- Where no value has two sites, only the numbers of operands can be wrong. -/
theorem mem_siteViolations {seen : List ValueId} (hnodup : (sites.map (·.value)).Nodup)
    (hseen : ∀ s ∈ sites, s.value ∉ seen) :
    e ∈ DefinitionSite.violations seen sites ↔ ∃ s ∈ sites, e ∈ s.arityViolations := by
  induction sites generalizing seen with
  | nil => simp [DefinitionSite.violations]
  | cons s sites ih =>
    rw [List.map_cons, List.nodup_cons] at hnodup
    rw [List.forall_mem_cons] at hseen
    have hrest : ∀ s' ∈ sites, s'.value ∉ s.value :: seen := by
      intro s' hs' hmem
      rcases List.mem_cons.1 hmem with heq | hmem
      · exact hnodup.1 (List.mem_map.2 ⟨s', hs', heq⟩)
      · exact hseen.2 s' hs' hmem
    simp [DefinitionSite.violations, hseen.1, ih hnodup.2 hrest]

/-- A phi with a wrong number of operands. -/
def WrongArity (c : Body) (e : Violation) : Prop :=
  ∃ b x phi, c.block b = .ok x ∧ phi ∈ x.phis ∧
    phi.operands.length ≠ x.predecessors.length ∧
      e = .phiArity phi.out b phi.operands.length x.predecessors.length

theorem mem_arityViolations (hsites : ∀ s, s ∈ sites ↔ c.Sites s) :
    (∃ s ∈ sites, e ∈ s.arityViolations) ↔ c.WrongArity e := by
  constructor
  · rintro ⟨s, hs, he⟩
    rcases (hsites s).1 hs with ⟨x, phi, hx, hphi, hout, -, harity⟩ | ⟨_, _, _, -, -, -, -, harity⟩
    · simp only [DefinitionSite.arityViolations, harity] at he
      split at he
      · cases he
      · exact ⟨s.block, x, phi, hx, hphi, ‹_›, by rw [hout]; exact List.mem_singleton.1 he⟩
    · simp [DefinitionSite.arityViolations, harity] at he
  · rintro ⟨b, x, phi, hx, hphi, hne, rfl⟩
    refine ⟨⟨phi.out, b, none, some (phi.operands.length, x.predecessors.length)⟩,
      (hsites _).2 (.inl ⟨x, phi, hx, hphi, rfl, rfl, rfl⟩), ?_⟩
    simp [DefinitionSite.arityViolations, hne]

/-- The check of a body of defined values whose edges are known on both ends finds faults of its
flow and wrong numbers of operands, and nothing else. -/
theorem exists_violations_of_defined (hc : c.Intact)
    (hedges : ∀ {b x}, c.block b = .ok x → ∀ p, p ∈ x.predecessors ↔ c.Edge p b)
    (hclosed : c.Closed) (hdefined : ∀ v, c.HasValue v → c.IsDefined v) :
    ∃ l, c.violations = .ok l ∧ ∀ e, e.isOfFlow = false → (e ∈ l ↔ c.WrongArity e) := by
  obtain ⟨l, hl⟩ := exists_violations hc hclosed fun {b x} hx p hp => by
    obtain ⟨y, hy⟩ := ((hedges hx p).1 hp).exists_block
    exact hasBlock_of_block hy
  refine ⟨l, hl, fun e he => ?_⟩
  obtain ⟨sites', hsites', hmem⟩ := exists_definitionSites hc.toArranged
  obtain ⟨placed', hplaced', hmemPlaced⟩ := hc.exists_placed
  simp only [violations, hsites', hplaced', ok_bind, bind_eq_ok, pure_eq_ok,
    Except.ok.injEq] at hl
  obtain ⟨t, -, layout, hlayout, blocks, hblocks, records, hrecords, rfl⟩ := hl
  have hsite : e ∈ DefinitionSite.violations [] sites' ↔ c.WrongArity e := by
    rw [mem_siteViolations (nodup_definitionSites hc hsites') (by simp), mem_arityViolations hmem]
  have hblock : e ∉ blocks.flatten := by
    intro hin
    obtain ⟨r, hr, hin⟩ := List.mem_flatten.1 hin
    obtain ⟨q, hq, hr⟩ := (mem_of_mapM_eq_ok hblocks).1 hr
    have hflow := isOfFlow_of_mem_blockViolations hc hmem hedges hclosed hdefined
      ((mem_layout hc.toArranged hlayout).1 hq) hr hin
    exact Bool.noConfusion (he.symm.trans hflow)
  have hrecord : e ∉ records.flatten := by
    intro hin
    obtain ⟨r, hr, hin⟩ := List.mem_flatten.1 hin
    obtain ⟨q, hq, hr⟩ := (mem_of_mapM_eq_ok hrecords).1 hr
    have hnil := recordViolations_eq_nil (v := ⟨q.2⟩) hc hmemPlaced
      (value_eq_ok.2 (List.mem_zipIdx_iff_getElem?.1 hq))
    obtain rfl := Except.ok.inj (hnil.symm.trans hr)
    cases hin
  simp [hsite, hblock, hrecord]

end Body

/-! ### Sealed drafts -/

/-- How a sealed body follows from the draft. -/
structure Draft.Settles (d : Draft) (c : Body) : Prop where
  intact : c.Intact
  closed : c.Closed
  mem_predecessors : ∀ {b x}, c.block b = .ok x → ∀ p, p ∈ x.predecessors ↔ c.Edge p b
  phis : ∀ {b x}, c.block b = .ok x → x.phis = (d.phis.filter (·.block = b)).map fun q =>
    { out := q.out, operands := q.operands x.predecessors }
  operation : ∀ i, c.operation i = d.body.operation i
  hasBlock : ∀ b, c.HasBlock b ↔ d.body.HasBlock b
  hasValue : ∀ v, c.HasValue v ↔ d.body.HasValue v

namespace Draft

variable {d : Draft} {c : Body}

/-- A draft can be sealed when all that its jumps, handlers and phis name is there. -/
theorem Sound.exists_seal (hd : d.Sound) (hclosed : d.body.Closed)
    (hphis : ∀ q ∈ d.phis, d.body.HasBlock q.block ∧ ∀ e ∈ q.incoming, d.body.HasValue e.2) :
    ∃ c, d.seal = .ok c ∧ d.Settles c := by
  obtain ⟨preds, hconnect, hpreds⟩ := Body.exists_connect hd.intact.toArranged hclosed
  have hplace : ∀ q ∈ d.phis, (d.body.withPredecessors preds).HasBlock q.block ∧
      d.body.HasValue q.out ∧ ∀ e ∈ q.incoming, d.body.HasValue e.2 := by
    intro q hq
    obtain ⟨y, hy, -⟩ := hd.pending q hq
    exact ⟨Body.hasBlock_withPredecessors.2 (hphis q hq).1, Body.hasValue_of_value hy,
      (hphis q hq).2⟩
  obtain ⟨c, hc, hblock, hop, hvalue⟩ :=
    Body.exists_placePhis (c := d.body.withPredecessors preds) hplace
  have hseal : d.seal = .ok c := by
    rw [Draft.seal, hconnect, ok_bind]
    exact hc
  -- a sealed block is a block of the draft with its predecessors and phis filled in
  have hsealed : ∀ {b y}, c.block b = .ok y ↔ ∃ x, d.body.block b = .ok x ∧
      Body.filled d.phis b { x with predecessors := preds b } = y := by
    intro b y
    rw [hblock]
    simp [Body.withPredecessors]
  have hedge : ∀ b s, c.Edge b s ↔ d.body.Edge b s := by
    intro b s
    constructor
    · rintro (⟨y, i, op, hy, hlast, hi, hs⟩ | ⟨y, hy, hh⟩)
      · obtain ⟨x, hx, rfl⟩ := hsealed.1 hy
        exact .inl ⟨x, i, op, hx, hlast, (hop i).symm.trans hi, hs⟩
      · obtain ⟨x, hx, rfl⟩ := hsealed.1 hy
        exact .inr ⟨x, hx, hh⟩
    · rintro (⟨x, i, op, hx, hlast, hi, hs⟩ | ⟨x, hx, hh⟩)
      · exact .inl ⟨_, i, op, hsealed.2 ⟨x, hx, rfl⟩, hlast, (hop i).trans hi, hs⟩
      · exact .inr ⟨_, hsealed.2 ⟨x, hx, rfl⟩, hh⟩
  have hhas : ∀ b, c.HasBlock b ↔ d.body.HasBlock b := by
    intro b
    rw [← Body.exists_block_iff, ← Body.exists_block_iff]
    simp [hsealed]
  refine ⟨c, hseal, hd.intact_seal hseal, ?_, ?_, ?_, hop, hhas, hvalue⟩
  · intro b s hbs
    rw [hhas]
    exact hclosed b s ((hedge b s).1 hbs)
  · intro b y hy p
    obtain ⟨x, -, rfl⟩ := hsealed.1 hy
    rw [hedge]
    exact hpreds p b
  · intro b y hy
    obtain ⟨x, hx, rfl⟩ := hsealed.1 hy
    simp [Body.filled, hd.blank b x hx]

/-- Every value of the draft has an instruction or a pending phi that gives it. -/
def Covered (d : Draft) : Prop :=
  ∀ v, d.body.HasValue v → (∃ i, d.body.Outputs i v) ∨ ∃ q ∈ d.phis, q.out = v

theorem Settles.hasPhi (h : d.Settles c) {q : PendingPhi} (hq : q ∈ d.phis)
    (hb : d.body.HasBlock q.block) :
    ∃ x, c.block q.block = .ok x ∧
      { out := q.out, operands := q.operands x.predecessors } ∈ x.phis := by
  obtain ⟨x, hx⟩ := Body.exists_block_iff.2 ((h.hasBlock _).2 hb)
  refine ⟨x, hx, ?_⟩
  rw [h.phis hx]
  exact List.mem_map.2 ⟨q, List.mem_filter.2 ⟨hq, by simp⟩, rfl⟩

theorem Settles.isDefined (h : d.Settles c) (hd : d.Covered)
    (hphis : ∀ q ∈ d.phis, d.body.HasBlock q.block) {v : ValueId} (hv : c.HasValue v) :
    c.IsDefined v := by
  rcases hd v ((h.hasValue v).1 hv) with ⟨i, op, hop, hout⟩ | ⟨q, hq, rfl⟩
  · exact .inl ⟨i, op, (h.operation i).trans hop, hout⟩
  · obtain ⟨x, hx, hmem⟩ := h.hasPhi hq (hphis q hq)
    exact .inr ⟨q.block, _, ⟨x, hx, hmem⟩, rfl⟩

end Draft

end Devirt
