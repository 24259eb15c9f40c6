import Devirt.Proofs.Body.Checked
import Devirt.Proofs.Body.Editing

/-!
Replacing the uses of a value by another one that is there. Exactly the uses after the definition of
the other value change, and a body without violations stays one. The check asks the same questions
about the new operands that have been answered before they were replaced.
-/

namespace Devirt

/-- Where no edge is open for the old value nothing changes. -/
theorem redirectInputs_eq_self {old new : ValueId} {operands : List ValueId} {edges : List Bool}
    (hclosed : ∀ q ∈ operands.zip edges, q.1 = old → q.2 = false) :
    redirectInputs old new operands edges = operands := by
  refine List.ext_getElem? fun n => ?_
  rw [getElem?_redirectInputs]
  cases hn : operands[n]? with
  | none => rfl
  | some v =>
    refine congrArg some (if_neg ?_)
    rintro ⟨hv, hopen⟩
    have hmem : (v, true) ∈ operands.zip edges :=
      List.mem_of_getElem? (List.getElem?_zip_eq_some.2 ⟨hn, hopen⟩)
    exact absurd (hclosed _ hmem hv) (by simp)

/-- The outputs of the phis, each with the number of operands. -/
def Block.phiOutline (x : Block) : List (ValueId × Nat) :=
  x.phis.map fun q => (q.out, q.operands.length)

/-- Giving a phi as many operands as it has keeps the numbers of operands. -/
theorem Block.phiOutline_modifyPhi {x : Block} {phi : ValueId} {q : Phi}
    {operands : List ValueId} (hq : x.phi? phi = some q)
    (hlength : operands.length = q.operands.length) :
    (x.modifyPhi phi fun q => { q with operands }).phiOutline = x.phiOutline := by
  refine List.ext_getElem? fun n => ?_
  rw [phiOutline, phiOutline, List.getElem?_map, List.getElem?_map]
  cases hn : (x.modifyPhi phi fun q => { q with operands }).phis[n]? with
  | none =>
    have hnone : x.phis[n]? = none := by
      simpa [Block.modifyPhi, List.getElem?_modify] using hn
    rw [hnone]
  | some q' =>
    obtain ⟨q₀, hq₀, hcases⟩ := Block.getElem?_modifyPhi hq hn
    rw [hq₀]
    rcases hcases with rfl | ⟨rfl, rfl⟩
    · rfl
    · simp [hlength]

namespace Body

variable {c d e : Body} {a b p s : BlockId} {i j definer : InstrId} {v old new phi : ValueId}
  {op : Operation} {t : DominatorTree} {n : Nat} {x : Block} {y : Value}

/-! ### Bodies that differ in what is read -/

/-- The second body differs from the first one at most in operands and in the records of users. -/
structure Rewired (c d : Body) : Prop extends SameShape c d where
  order : d.order = c.order
  version : d.version = c.version
  definition : ∀ v, Value.definition <$> d.value v = Value.definition <$> c.value v
  phiOutline_block : ∀ b, Block.phiOutline <$> d.block b = Block.phiOutline <$> c.block b

theorem Rewired.refl (c : Body) : Rewired c c :=
  ⟨.refl c, rfl, rfl, fun _ => rfl, fun _ => rfl⟩

theorem Rewired.trans (hcd : Rewired c d) (hde : Rewired d e) : Rewired c e where
  toSameShape := hcd.toSameShape.trans hde.toSameShape
  order := hde.order.trans hcd.order
  version := hde.version.trans hcd.version
  definition v := (hde.definition v).trans (hcd.definition v)
  phiOutline_block b := (hde.phiOutline_block b).trans (hcd.phiOutline_block b)

theorem map_value_updateValues {α : Type} {f : Value → α} {g : ValueId → Value → Value}
    (hg : ∀ v y, f (g v y) = f y) (v : ValueId) :
    f <$> (c.updateValues g).value v = f <$> c.value v := by
  cases hv : c.value v with
  | error e => rw [value_updateValues_of_error hv]
  | ok y =>
    rw [value_updateValues_of_ok hv]
    exact congrArg Except.ok (hg v y)

theorem map_block_updateBlocks_at {α : Type} {f : Block → α} {g : BlockId → Block → Block}
    (hg : ∀ x, c.block b = .ok x → f (g b x) = f x) :
    f <$> (c.updateBlocks g).block b = f <$> c.block b := by
  cases hb : c.block b with
  | ok x =>
    rw [block_updateBlocks.2 ⟨x, hb, rfl⟩]
    exact congrArg Except.ok (hg x hb)
  | error e =>
    have hsame := map_block_updateBlocks (c := c) (g := g) (f := fun _ => ()) (fun _ _ => rfl) b
    rw [hb] at hsame
    rcases map_eq_map_iff.1 hsame with ⟨e', hd, he⟩ | ⟨_, _, -, h, -⟩
    · rw [hd, ← Except.error.inj he]
    · cases h

theorem rewired_redirected : Rewired c (c.redirected i old new) where
  toSameShape := sameShape_redirected
  order := rfl
  version := rfl
  definition := map_value_updateValues fun _ _ => rfl
  phiOutline_block _ := rfl

theorem rewired_phiRedirected {q : Phi} (hx : c.block b = .ok x) (hq : x.phi? phi = some q)
    {operands : List ValueId} (hlength : operands.length = q.operands.length) :
    Rewired c (c.phiRedirected b old new phi operands) where
  toSameShape := sameShape_phiRedirected
  order := rfl
  version := rfl
  definition := map_value_updateValues fun _ _ => rfl
  phiOutline_block s := by
    rw [phiRedirected, block_updateValues]
    refine map_block_updateBlocks_at fun y hy => ?_
    split
    · rename_i hs
      subst hs
      obtain rfl := Except.ok.inj (hx.symm.trans hy)
      exact Block.phiOutline_modifyPhi hq hlength
    · rfl

namespace Rewired

variable (h : Rewired c d)
include h

theorem dominators_eq : d.dominators = c.dominators :=
  h.toSameShape.dominators_eq h.order h.version

theorem bind_instruction {α : Type} {f g : Instruction → Except Fault α}
    (hnext : ∀ y z, z.block = y.block → z.op.outline = y.op.outline → g z = f y) :
    d.instruction i >>= g = c.instruction i >>= f := by
  have hblock := h.blockOf_eq i
  have hoperation := h.outline_operation i
  simp only [blockOf, operation] at hblock hoperation
  cases hc : c.instruction i with
  | error e =>
    rw [hc] at hblock
    cases hd : d.instruction i with
    | error e' => simpa [hd] using hblock
    | ok z => simp [hd] at hblock
  | ok y =>
    rw [hc] at hblock hoperation
    cases hd : d.instruction i with
    | error e' => simp [hd] at hblock
    | ok z =>
      rw [hd] at hblock hoperation
      exact hnext y z (Except.ok.inj hblock) (Except.ok.inj hoperation)

theorem availableFrom?_eq : d.availableFrom? v = c.availableFrom? v := by
  refine bind_congr_of_map (h.definition v) fun y z _ _ hdefinition => ?_
  rw [hdefinition]
  cases y.definition with
  | undefined => rfl
  | phi b => rfl
  | instruction i =>
    refine h.bind_instruction fun y z hblock houtline => ?_
    have hthrow : z.op.canThrow = y.op.canThrow := congrArg (·.2.2.1) houtline
    simp only [hblock, hthrow, h.normalSuccessors_eq]
    refine bind_congr_of_map (h.outline_block y.block) fun x x' _ _ houtline => ?_
    have hhandlers : x'.handlers = x.handlers := congrArg (·.2.2.1) houtline
    rw [Block.isGuarded, hhandlers, ← Block.isGuarded]
    split
    · congr 1
      funext l
      split
      · refine bind_congr_of_map (h.outline_block _) fun x x' _ _ houtline => ?_
        have hpredecessors : x'.predecessors = x.predecessors := congrArg (·.2.1) houtline
        rw [hpredecessors]
      · rfl
    · rfl

theorem availableIn_eq : d.availableIn t v b = c.availableIn t v b := by
  simp only [availableIn, h.availableFrom?_eq]

theorem leavesByHandler_eq : d.leavesByHandler p b = c.leavesByHandler p b := by
  unfold leavesByHandler
  rw [h.normalSuccessors_eq]
  congr 1
  funext l
  refine bind_congr_of_map (h.outline_block p) fun x y _ _ houtline => ?_
  have hhandles : y.handlesInto b = x.handlesInto b :=
    congrArg (fun o => o.2.2.1.any fun h => h.target = b) houtline
  rw [hhandles]

theorem availableOnEdge_eq : d.availableOnEdge t v p b = c.availableOnEdge t v p b := by
  refine bind_congr_of_map (h.definition v) fun y z _ _ hdefinition => ?_
  simp only [hdefinition, h.availableIn_eq]
  cases y.definition with
  | undefined => rfl
  | phi s => rfl
  | instruction i =>
    refine h.bind_instruction fun y z hblock houtline => ?_
    have hthrow : z.op.canThrow = y.op.canThrow := congrArg (·.2.2.1) houtline
    simp only [hblock, hthrow, h.leavesByHandler_eq]

theorem index?_eq : d.index? i = c.index? i := by
  unfold index?
  rw [h.blockOf_eq]
  congr 1
  funext b
  refine bind_congr_of_map (h.outline_block b) fun x y _ _ houtline => ?_
  have hins : y.instructions = x.instructions := congrArg (·.1) houtline
  rw [hins]

theorem standsAfter_eq : d.standsAfter t definer v i = c.standsAfter t definer v i := by
  simp only [standsAfter, h.blockOf_eq, h.index?_eq, h.availableIn_eq]

theorem definedBefore_eq {site : DefinitionSite} :
    d.definedBefore t site b n = c.definedBefore t site b n := by
  simp only [definedBefore, h.availableIn_eq]

theorem blockSites_eq {z : Block} (hx : c.block b = .ok x) (hz : d.block b = .ok z) :
    d.blockSites b z = c.blockSites b x := by
  have houtline := h.outline_block b
  have hphis := h.phiOutline_block b
  rw [hx, hz] at houtline hphis
  replace houtline : z.outline = x.outline := Except.ok.inj houtline
  replace hphis : z.phiOutline = x.phiOutline := Except.ok.inj hphis
  have hins : z.instructions = x.instructions := congrArg (·.1) houtline
  have hpredecessors : z.predecessors = x.predecessors := congrArg (·.2.1) houtline
  unfold blockSites
  rw [hins, hpredecessors]
  refine bind_congr_of_map (map_mapM_congr fun i _ => h.outline_operation i) ?_
  intro l l' _ _ hl
  have houts : l'.map (·.out?) = l.map (·.out?) := by
    have hfst := congrArg (List.map (·.1)) hl
    rw [List.map_map, List.map_map] at hfst
    exact hfst
  have hsites : ∀ l : List Operation, (l.zipIdx.filterMap fun q => q.1.out?.map fun v =>
      ({ value := v, block := b, index := some q.2 } : DefinitionSite)) =
      (l.map (·.out?)).zipIdx.filterMap fun q => q.1.map fun v =>
        { value := v, block := b, index := some q.2 } := by
    intro l
    rw [List.zipIdx_map, List.filterMap_map]
    rfl
  have hheads : ∀ x' : Block, (x'.phis.map fun q =>
      ({ value := q.out, block := b, index := none
         arity := some (q.operands.length, x.predecessors.length) } : DefinitionSite)) =
      x'.phiOutline.map fun q =>
        { value := q.1, block := b, index := none, arity := some (q.2, x.predecessors.length) } := by
    intro x'
    rw [Block.phiOutline, List.map_map]
    rfl
  exact congrArg Except.ok (by rw [hsites, hsites, houts, hheads, hheads, hphis])

theorem definitionSites_eq {sites : List DefinitionSite} (hsites : c.definitionSites = .ok sites) :
    d.definitionSites = .ok sites := by
  simp only [definitionSites, bind_eq_ok, pure_eq_ok, Except.ok.injEq] at hsites ⊢
  obtain ⟨l, hl, L, hL, rfl⟩ := hsites
  suffices hsame : ∃ l', d.layout = .ok l' ∧ (l'.mapM fun q => d.blockSites q.1 q.2) = .ok L by
    obtain ⟨l', hl', hL'⟩ := hsame
    exact ⟨l', hl', L, hL', rfl⟩
  rw [layout, mapM_eq_ok] at hl
  rw [mapM_eq_ok] at hL
  rw [layout, h.order]
  simp only [mapM_eq_ok]
  generalize c.order = order at hl
  induction hl generalizing L with
  | nil =>
    cases hL
    exact ⟨[], .nil, .nil⟩
  | @cons b q order l hq _ ih =>
    obtain ⟨x, hx, rfl⟩ := map_eq_ok.1 hq
    cases hL with
    | @cons _ r _ L hr hL =>
      obtain ⟨l', hl', hL'⟩ := ih L hL
      obtain ⟨z, hz, -⟩ := h.exists_block hx
      refine ⟨(b, z) :: l', .cons (by simp [hz]) hl', .cons ?_ hL'⟩
      exact (h.blockSites_eq hx hz).trans hr

end Rewired

/-! ### What is left of the check where the records are right -/

variable {sites : List DefinitionSite} {placed : List InstrId}

/-- Every operand has a definition, which is there wherever control can come. -/
structure Supplied (c : Body) (t : DominatorTree) (sites : List DefinitionSite) : Prop where
  operands : ∀ {b x n i op}, c.block b = .ok x → x.instructions[n]? = some i →
    c.operation i = .ok op → ∀ v ∈ op.operands, ∃ site, DefinitionSite.last? sites v = some site ∧
      (t.isReachable b = true → c.definedBefore t site b n = .ok true)
  inputs : ∀ {b x phi}, c.block b = .ok x → phi ∈ x.phis →
    ∀ q ∈ phi.operands.zip x.predecessors, (∃ site, DefinitionSite.last? sites q.1 = some site) ∧
      (t.isReachable q.2 = true → c.availableOnEdge t q.1 q.2 b = .ok true)

namespace Recorded

variable (hc : c.Recorded)
include hc

theorem recordViolations_eq_nil (hplaced : ∀ i, i ∈ placed ↔ c.HasInstruction i)
    (hy : c.value v = .ok y) : c.recordViolations placed v y = .ok [] := by
  have hstale : (y.users.toList.filterM fun i =>
      if i ∈ placed then (do return v ∉ (← c.operation i).operands) else return true) = .ok [] := by
    refine filterM_eq_ok_nil.2 fun i hi => ?_
    obtain ⟨op, hop, hv⟩ := (hc.users hy i).1 hi
    simp [(hplaced i).2 (hasInstruction_of_operation hop), hop, hv]
  rw [recordViolations, hstale]
  cases hdef : y.definition with
  | undefined => rfl
  | phi b => rfl
  | instruction i =>
    obtain ⟨op, hop, hout⟩ := hc.definition_instruction hy hdef
    simp [(hplaced i).2 (hasInstruction_of_operation hop), hop, hout]

theorem operandViolations_eq_nil (hclosed : c.Closed) (hop : c.operation i = .ok op)
    (hv : v ∈ op.operands) :
    c.operandViolations t sites b i n v = .ok [] ↔
      ∃ site, DefinitionSite.last? sites v = some site ∧
        (t.isReachable b = true → c.definedBefore t site b n = .ok true) := by
  obtain ⟨y, hy⟩ := exists_value_iff.2 (hc.hasValue hop v (by simp [Operation.mentions, hv]))
  have huser : c.hasUser v i = .ok true := by
    simp [hasUser, hy, (hc.users hy i).2 ⟨op, hop, hv⟩]
  cases hlast : DefinitionSite.last? sites v with
  | none => simp [operandViolations, hlast]
  | some site =>
    have hvalue : site.value = v := by simpa using List.find?_some hlast
    obtain ⟨r, hr⟩ : ∃ r, c.definedBefore t site b n = .ok r := by
      unfold definedBefore
      split
      · exact ⟨_, rfl⟩
      · exact hc.exists_availableIn hclosed (hvalue ▸ hasValue_of_value hy)
    cases hreach : t.isReachable b <;> cases r <;>
      simp [operandViolations, hlast, huser, hr, hreach]

theorem inputViolations_eq_nil (hclosed : c.Closed) (hv : c.HasValue v) :
    c.inputViolations t sites b phi v p = .ok [] ↔
      (∃ site, DefinitionSite.last? sites v = some site) ∧
        (t.isReachable p = true → c.availableOnEdge t v p b = .ok true) := by
  obtain ⟨r, hr⟩ := hc.exists_availableOnEdge (t := t) (s := p) (b := b) hclosed hv
  cases hlast : DefinitionSite.last? sites v with
  | none => simp [inputViolations, hlast]
  | some site =>
    cases hreach : t.isReachable p <;> cases r <;> simp [inputViolations, hlast, hr, hreach]

/-- The check finds nothing if control flow is in order, nothing is defined twice, and every operand
is there. -/
theorem violations_eq_nil_iff (ht : c.dominators = .ok t) (hsites : c.definitionSites = .ok sites) :
    c.violations = .ok [] ↔
      c.Controlled ∧ (sites.map (·.value)).Nodup ∧ c.Supplied t sites := by
  obtain ⟨sites', hsites', hmem⟩ := exists_definitionSites hc.toArranged
  obtain rfl := Except.ok.inj (hsites.symm.trans hsites')
  obtain ⟨placed, hplaced, hmemPlaced⟩ := hc.exists_placed
  constructor
  · intro hvalid
    have hcontrolled := controlled_of_valid hc.toArranged hvalid
    obtain ⟨hdefinitions, hblocks, -⟩ := (violations_eq_nil hc.toArranged ht hsites hplaced).1 hvalid
    refine ⟨hcontrolled, (DefinitionSite.violations_eq_nil.1 hdefinitions).1, ?_, ?_⟩
    · intro b x n i op hx hn hop v hv
      have hflat := (blockViolations_eq_nil.1 (hblocks b x hx)).2.2.2.1
      exact (hc.operandViolations_eq_nil hcontrolled.closed hop hv).1
        ((instructionViolations_eq_nil_iff hc.toArranged hx).1 hflat n i op hn hop v hv)
    · intro b x phi hx hphi q hq
      have hflat := (blockViolations_eq_nil.1 (hblocks b x hx)).2.2.2.2
      exact (hc.inputViolations_eq_nil hcontrolled.closed (hc.phi_hasValue ⟨x, hx, hphi⟩ q.1
        (List.mem_cons_of_mem _ (List.of_mem_zip hq).1))).1
        (phiViolations_eq_nil_iff.1 hflat phi hphi q hq)
  · rintro ⟨hcontrolled, hnodup, hsupplied⟩
    refine (violations_eq_nil hc.toArranged ht hsites hplaced).2 ⟨?_, fun b x hx => ?_, fun v y hy =>
      hc.recordViolations_eq_nil hmemPlaced hy⟩
    · refine DefinitionSite.violations_eq_nil.2 ⟨hnodup, by simp, fun site hsite => ?_⟩
      rcases (hmem site).1 hsite with ⟨x, phi, hx, hphi, -, -, harity⟩ | ⟨-, -, -, -, -, -, -, harity⟩
      · simp [DefinitionSite.arityViolations, harity, hcontrolled.arity hx phi hphi]
      · simp [DefinitionSite.arityViolations, harity]
    · refine blockViolations_eq_nil.2 ⟨?_, ?_, ?_, ?_, ?_⟩
      · exact (terminatorViolations_eq_nil hc.toArranged hx).2
          ⟨hcontrolled.terminated hx, hcontrolled.inner hx⟩
      · exact (edgeViolations_eq_nil hc.toArranged hx).2
          ⟨fun _ => hcontrolled.symmetric_out, hcontrolled.symmetric_in hx⟩
      · exact (guardViolations_eq_nil hc.toArranged hx).2 (hcontrolled.throws hx)
      · refine (instructionViolations_eq_nil_iff hc.toArranged hx).2 fun n i op hn hop v hv => ?_
        exact (hc.operandViolations_eq_nil hcontrolled.closed hop hv).2
          (hsupplied.operands hx hn hop v hv)
      · refine phiViolations_eq_nil_iff.2 fun phi hphi q hq => ?_
        exact (hc.inputViolations_eq_nil hcontrolled.closed (hc.phi_hasValue ⟨x, hx, hphi⟩ q.1
          (List.mem_cons_of_mem _ (List.of_mem_zip hq).1))).2 (hsupplied.inputs hx hphi q hq)

end Recorded

/-! ### Instructions -/

/-- The instruction comes later in the block of the definition, or it stands in another block, where
the value is available. -/
def ComesLater (c : Body) (t : DominatorTree) (definer : InstrId) (v : ValueId) (i : InstrId) : Prop :=
  ∃ b s, c.blockOf definer = .ok b ∧ c.blockOf i = .ok s ∧
    ((b = s ∧ ∃ (x : Block) (n k : Nat), c.block b = .ok x ∧ x.instructions[n]? = some definer ∧
        x.instructions[k]? = some i ∧ n < k) ∨
      (b ≠ s ∧ c.availableIn t v s = .ok true))

theorem standsAfter_eq_true_iff (hc : c.Arranged) (hdefiner : c.HasInstruction definer)
    (hi : c.HasInstruction i) :
    c.standsAfter t definer v i = .ok true ↔ c.ComesLater t definer v i := by
  obtain ⟨op, hop⟩ := hdefiner.exists_operation
  obtain ⟨op', hop'⟩ := hi.exists_operation
  obtain ⟨b, x, hb, hx, hmem⟩ := hc.exists_place hop
  obtain ⟨s, z, hs, hz, hmem'⟩ := hc.exists_place hop'
  obtain ⟨n, hn⟩ := List.mem_iff_getElem?.1 hmem
  obtain ⟨k, hk⟩ := List.mem_iff_getElem?.1 hmem'
  unfold ComesLater
  simp only [hb, hs, Except.ok.injEq, exists_and_left, exists_eq_left']
  by_cases hbs : b = s
  · subst hbs
    obtain rfl := Except.ok.inj (hx.symm.trans hz)
    simp only [standsAfter, hb, hs, ok_bind, if_true, hc.index?_eq_ok hx hn, hc.index?_eq_ok hx hk,
      pure_eq_ok, Except.ok.injEq, decide_eq_true_eq, true_and, ne_eq, not_true_eq_false, false_and,
      or_false]
    constructor
    · intro hlt
      exact ⟨x, hx, n, hn, k, hk, hlt⟩
    · rintro ⟨x', hx', n', hn', k', hk', hlt⟩
      obtain rfl := Except.ok.inj (hx.symm.trans hx')
      have hnn := (List.getElem?_inj (List.getElem?_eq_some_iff.1 hn).1 (hc.nodup hx)).1
        (hn.trans hn'.symm)
      have hkk := (List.getElem?_inj (List.getElem?_eq_some_iff.1 hk).1 (hc.nodup hx)).1
        (hk.trans hk'.symm)
      omega
  · simp [standsAfter, hb, hs, hbs]

/-- A user that has not been redirected yet follows if it stands after the definition. -/
theorem redirectUser_eq_ok (h : Rewired c e) (hop : e.operation i = .ok op)
    (hold : old ∈ op.operands) {changed : Bool}
    (hd : e.redirectUser t old new definer i = .ok (changed, d)) :
    (changed = true ∧ c.standsAfter t definer new i = .ok true ∧ d = e.redirected i old new) ∨
      (changed = false ∧ c.standsAfter t definer new i ≠ .ok true ∧ d = e) := by
  simp only [redirectUser, h.standsAfter_eq, bind_eq_ok] at hd
  obtain ⟨after, hafter, hd⟩ := hd
  cases after with
  | false =>
    obtain ⟨rfl, rfl⟩ := Prod.mk.inj (Except.ok.inj hd)
    exact .inr ⟨rfl, by simp [hafter], rfl⟩
  | true =>
    obtain ⟨op₁, hop₁, hd⟩ := redirectOperand_eq_ok.1 hd
    obtain rfl := Except.ok.inj (hop.symm.trans hop₁)
    rw [if_pos hold] at hd
    exact .inl ⟨hd.1, hafter, hd.2.2.2⟩

/-- The body after some users have been seen, of which those in the list `done` have been
redirected. -/
structure UsersRedirected (c : Body) (t : DominatorTree) (old new : ValueId) (definer : InstrId)
    (seen done : List InstrId) (e : Body) : Prop where
  rewired : Rewired c e
  recorded : e.Recorded
  block : ∀ b, e.block b = c.block b
  mem_done : ∀ i, i ∈ done ↔ i ∈ seen ∧ c.standsAfter t definer new i = .ok true
  operation : ∀ i op, c.operation i = .ok op →
    e.operation i = .ok (if i ∈ done then op.replaceOperand old new else op)

namespace UsersRedirected

variable {seen done : List InstrId}

/-- One more user is seen. -/
theorem redirectUser (he : c.UsersRedirected t old new definer seen done e) (hi : i ∉ seen)
    (hreads : c.Reads i old) {changed : Bool}
    (hd : e.redirectUser t old new definer i = .ok (changed, d)) :
    c.UsersRedirected t old new definer (seen ++ [i]) (if changed then done ++ [i] else done) d := by
  obtain ⟨op, hop, hold⟩ := hreads
  have hdone : i ∉ done := fun hmem => hi ((he.mem_done i).1 hmem).1
  have hop' : e.operation i = .ok op := by simpa [hdone] using he.operation i op hop
  have hrecorded : d.Recorded := by
    rcases redirectUser_cases hd with heq | hd
    · rw [heq]
      exact he.recorded
    · exact he.recorded.redirectOperand hd
  rcases redirectUser_eq_ok he.rewired hop' hold hd with ⟨rfl, hafter, rfl⟩ | ⟨rfl, hafter, rfl⟩
  · refine ⟨he.rewired.trans rewired_redirected, hrecorded, he.block, fun j => ?_, fun j o ho => ?_⟩
    · simp only [if_true, List.mem_append, List.mem_singleton, he.mem_done]
      constructor
      · rintro (⟨hj, hj'⟩ | rfl)
        · exact ⟨.inl hj, hj'⟩
        · exact ⟨.inr rfl, hafter⟩
      · rintro ⟨hj | rfl, hj'⟩
        · exact .inl ⟨hj, hj'⟩
        · exact .inr rfl
    · refine operation_redirected.2 ⟨_, he.operation j o ho, ?_⟩
      by_cases hji : j = i
      · subst hji
        simp [hdone]
      · simp [hji]
  · refine ⟨he.rewired, hrecorded, he.block, fun j => ?_, he.operation⟩
    simp only [Bool.false_eq_true, if_false, List.mem_append, List.mem_singleton, he.mem_done]
    constructor
    · rintro ⟨hj, hj'⟩
      exact ⟨.inl hj, hj'⟩
    · rintro ⟨hj | rfl, hj'⟩
      · exact ⟨hj, hj'⟩
      · exact absurd hj' hafter

end UsersRedirected

/-! ### Phis -/

/-- On which edges into the block the value may be read. -/
def openEdges (c : Body) (t : DominatorTree) (v : ValueId) (b : BlockId) (x : Block) : List Bool :=
  x.predecessors.map fun source => decide (c.availableOnEdge t v source b = .ok true)

/-- The value is recorded as the output of a phi of the block. -/
def NamesPhi (c : Body) (v : ValueId) (b : BlockId) : Prop :=
  Value.definition <$> c.value v = .ok (.phi b)

instance : Decidable (c.NamesPhi v b) := inferInstanceAs (Decidable (_ = _))

/-- What becomes of a phi of the block once the phis in the list have been seen. -/
def redirectSeen (c : Body) (t : DominatorTree) (old new : ValueId) (seen : List ValueId)
    (b : BlockId) (x : Block) (q : Phi) : Phi :=
  if q.out ∈ seen ∧ c.NamesPhi q.out b then
    { q with operands := redirectInputs old new q.operands (c.openEdges t new b x) }
  else q

@[simp] theorem out_redirectSeen {seen : List ValueId} {q : Phi} :
    (c.redirectSeen t old new seen b x q).out = q.out := by
  unfold redirectSeen
  split <;> rfl

@[simp] theorem length_redirectSeen {seen : List ValueId} {q : Phi} :
    (c.redirectSeen t old new seen b x q).operands.length = q.operands.length := by
  unfold redirectSeen
  split
  · exact length_redirectInputs
  · rfl

/-- The operand of a seen phi follows if the edge is open. -/
theorem getElem?_redirectSeen {seen : List ValueId} {q : Phi}
    (hv : q.operands[n]? = some v) (hp : x.predecessors[n]? = some p) :
    (c.redirectSeen t old new seen b x q).operands[n]? =
      some (if v = old ∧ (q.out ∈ seen ∧ c.NamesPhi q.out b) ∧
        c.availableOnEdge t new p b = .ok true then new else v) := by
  unfold redirectSeen
  by_cases hseen : q.out ∈ seen ∧ c.NamesPhi q.out b
  · rw [if_pos hseen]
    show (redirectInputs old new q.operands (c.openEdges t new b x))[n]? = _
    simp [getElem?_redirectInputs, hv, openEdges, hp, hseen]
  · rw [if_neg hseen, hv, if_neg fun h => hseen h.2.1]

/-- Seeing one more phi matters to it alone. -/
theorem redirectSeen_append {seen : List ValueId} {q : Phi} (hphi : phi ∉ seen) :
    c.redirectSeen t old new (seen ++ [phi]) b x q =
      if q.out = phi ∧ c.NamesPhi phi b then
        { q with operands := redirectInputs old new q.operands (c.openEdges t new b x) }
      else c.redirectSeen t old new seen b x q := by
  unfold redirectSeen
  by_cases hq : q.out = phi
  · subst hq
    simp [hphi]
  · simp [hq]

theorem openEdges_eq_ok (hc : c.Recorded) (hclosed : c.Closed) (hv : c.HasValue v)
    (h : Rewired c e) :
    (x.predecessors.mapM fun source => e.availableOnEdge t v source b) =
      .ok (c.openEdges t v b x) := by
  refine mapM_eq_ok_map fun source _ => ?_
  obtain ⟨r, hr⟩ := hc.exists_availableOnEdge (t := t) (s := source) (b := b) hclosed hv
  cases r <;> simp [h.availableOnEdge_eq, hr]

theorem redirectPhi_of_definition {q : Phi} (hy : c.value phi = .ok y) (hdef : y.definition = .phi b)
    (hx : c.block b = .ok x) (hq : x.phi? phi = some q) {edges : List Bool}
    (hedges : (x.predecessors.mapM fun source => c.availableOnEdge t new source b) = .ok edges)
    {changed : Bool} (hd : c.redirectPhi t old new phi = .ok (changed, d)) :
    (d = c ∧ redirectInputs old new q.operands edges = q.operands) ∨
      d = c.phiRedirected b old new phi (redirectInputs old new q.operands edges) := by
  rcases redirectPhi_eq_ok hd with ⟨rfl, rfl⟩ | ⟨b', x', q', edges', rfl, hx', hq', ⟨y', hy', hdef'⟩,
    hedges', -, -, rfl⟩
  · left
    simp only [redirectPhi, hy, hdef, hx, hq, hedges, ok_bind] at hd
    split at hd
    · rename_i hclosed
      refine ⟨rfl, redirectInputs_eq_self fun q hq hold => ?_⟩
      simpa [hold] using List.all_eq_true.1 hclosed q hq
    · obtain ⟨a, -, hd⟩ := bind_eq_ok.1 hd
      split at hd <;> simp at hd
  · right
    obtain rfl := Except.ok.inj (hy.symm.trans hy')
    obtain rfl := Definition.phi.inj (hdef.symm.trans hdef')
    obtain rfl := Except.ok.inj (hx.symm.trans hx')
    obtain rfl := Option.some.inj (hq.symm.trans hq')
    obtain rfl := Except.ok.inj (hedges.symm.trans hedges')
    rfl

/-- The body after some phis have been seen, which had the operations of `e₀` before. -/
structure PhisRedirected (c : Body) (t : DominatorTree) (old new : ValueId) (seen : List ValueId)
    (e₀ e : Body) : Prop where
  rewired : Rewired c e
  recorded : e.Recorded
  operation : ∀ i, e.operation i = e₀.operation i
  block : ∀ {b x}, c.block b = .ok x →
    e.block b = .ok { x with phis := x.phis.map (c.redirectSeen t old new seen b x) }

namespace PhisRedirected

variable {seen : List ValueId} {e₀ : Body}

/-- A phi may be seen without effect if it reads the old value on no open edge. -/
theorem of_closed (he : c.PhisRedirected t old new seen e₀ e) (hphi : phi ∉ seen)
    (hclosed : ∀ {b x q}, c.block b = .ok x → q ∈ x.phis → q.out = phi → c.NamesPhi phi b →
      redirectInputs old new q.operands (c.openEdges t new b x) = q.operands) :
    c.PhisRedirected t old new (seen ++ [phi]) e₀ e := by
  refine ⟨he.rewired, he.recorded, he.operation, fun {b x} hx => ?_⟩
  rw [he.block hx]
  refine congrArg Except.ok (congrArg (fun phis => { x with phis }) ?_)
  refine List.map_congr_left fun q hq => ?_
  rw [redirectSeen_append hphi]
  split
  · rename_i hcond
    rw [hclosed hx hq hcond.1 hcond.2, redirectSeen, if_neg]
    exact fun h => hphi (hcond.1 ▸ h.1)
  · rfl

/-- The phi is looked up as it was at first, as phis are seen once. -/
theorem phi?_eq_some {q : Phi} (he : c.PhisRedirected t old new seen e₀ e) (hphi : q.out ∉ seen)
    (hx : c.block b = .ok x) (hq : q ∈ x.phis) :
    Block.phi? { x with phis := x.phis.map (c.redirectSeen t old new seen b x) } q.out =
      some q := by
  have hmem := List.mem_map_of_mem (f := c.redirectSeen t old new seen b x) hq
  have hseen : c.redirectSeen t old new seen b x q = q := if_neg fun h => hphi h.1
  obtain ⟨q₂, hfound⟩ : ∃ q₂, Block.phi?
      { x with phis := x.phis.map (c.redirectSeen t old new seen b x) } q.out = some q₂ := by
    rw [← Option.isSome_iff_exists, Block.phi?, List.find?_isSome]
    exact ⟨_, hmem, by simp⟩
  have hout : q₂.out = q.out := by simpa using List.find?_some hfound
  rw [hfound, List.inj_on_of_nodup_map (he.recorded.phi_nodup (he.block hx))
    (List.mem_of_find?_eq_some hfound) hmem (by rw [hout, out_redirectSeen]), hseen]

/-- The operands of a phi are replaced on the open edges. -/
theorem phiRedirected {q : Phi} (hc : c.Recorded) (he : c.PhisRedirected t old new seen e₀ e)
    (hphi : q.out ∉ seen) (hx : c.block b = .ok x) (hq : q ∈ x.phis)
    (hnames : ∀ b', c.NamesPhi q.out b' ↔ b' = b)
    (hrecorded : (e.phiRedirected b old new q.out
      (redirectInputs old new q.operands (c.openEdges t new b x))).Recorded) :
    c.PhisRedirected t old new (seen ++ [q.out]) e₀ (e.phiRedirected b old new q.out
      (redirectInputs old new q.operands (c.openEdges t new b x))) := by
  have hseen : c.redirectSeen t old new seen b x q = q := if_neg fun h => hphi h.1
  refine ⟨he.rewired.trans (rewired_phiRedirected (he.block hx) (he.phi?_eq_some hphi hx hq)
    length_redirectInputs), hrecorded, he.operation, fun {b' x'} hx' => ?_⟩
  refine block_phiRedirected.2 ⟨_, he.block hx', ?_⟩
  by_cases hb : b' = b
  · subst hb
    obtain rfl := Except.ok.inj (hx.symm.trans hx')
    rw [if_pos rfl]
    show { x with phis := (Block.modifyPhi _ q.out _).phis } = _
    rw [Block.modifyPhi_phis (he.recorded.phi_nodup (he.block hx)), List.map_map]
    refine congrArg (fun phis => { x with phis }) (List.map_congr_left fun q' hq' => ?_)
    rw [redirectSeen_append hphi, Function.comp_apply, out_redirectSeen]
    by_cases hout : q'.out = q.out
    · rw [List.inj_on_of_nodup_map (hc.phi_nodup hx) hq' hq hout, hseen, if_pos rfl,
        if_pos ⟨rfl, (hnames _).2 rfl⟩]
    · rw [if_neg hout, if_neg fun h => hout h.1]
  · rw [if_neg hb]
    refine congrArg (fun phis => { x' with phis }) (List.map_congr_left fun q' _ => ?_)
    rw [redirectSeen_append hphi, if_neg fun h => hb ((hnames b').1 h.2)]

/-- One more phi is seen. -/
theorem redirectPhi (hc : c.Recorded) (hclosed : c.Closed) (hnew : c.HasValue new)
    (he : c.PhisRedirected t old new seen e₀ e) (hphi : phi ∉ seen) {changed : Bool}
    (hd : e.redirectPhi t old new phi = .ok (changed, d)) :
    c.PhisRedirected t old new (seen ++ [phi]) e₀ d := by
  obtain ⟨y, hy, hd'⟩ := bind_eq_ok.1 hd
  have hdefinition : Value.definition <$> c.value phi = .ok y.definition := by
    rw [← he.rewired.definition phi, hy]
    rfl
  have hrecorded := he.recorded.redirectPhi hd
  cases hdef : y.definition with
  | undefined | instruction i =>
    rw [hdef] at hd' hdefinition
    obtain ⟨-, rfl⟩ := Prod.mk.inj (Except.ok.inj hd')
    refine he.of_closed hphi fun {b x q} _ _ _ hnames => ?_
    have hother := hdefinition.symm.trans hnames
    simp at hother
  | phi b =>
    rw [hdef] at hdefinition
    have hnames : ∀ b', c.NamesPhi phi b' ↔ b' = b := by
      intro b'
      rw [NamesPhi, hdefinition]
      simp [eq_comm]
    obtain ⟨q₁, ⟨x₁, hx₁, hq₁⟩, hout₁⟩ := he.recorded.definition_phi hy hdef
    obtain ⟨x, hx, -⟩ := he.rewired.symm.exists_block hx₁
    obtain rfl := Except.ok.inj ((he.block hx).symm.trans hx₁)
    obtain ⟨q, hq, rfl⟩ := List.mem_map.1 hq₁
    rw [out_redirectSeen] at hout₁
    subst hout₁
    have hedges : (x.predecessors.mapM fun source => e.availableOnEdge t new source b) =
        .ok (c.openEdges t new b x) := openEdges_eq_ok hc hclosed hnew he.rewired
    rcases redirectPhi_of_definition hy hdef hx₁ (he.phi?_eq_some hphi hx hq) hedges hd with
      ⟨rfl, hsame⟩ | rfl
    · refine he.of_closed hphi fun {b' x' q'} hx' hq' hout' hnames' => ?_
      obtain rfl := (hnames b').1 hnames'
      obtain rfl := Except.ok.inj (hx.symm.trans hx')
      rw [List.inj_on_of_nodup_map (hc.phi_nodup hx) hq' hq hout']
      exact hsame
    · exact he.phiRedirected hc hphi hx hq hnames hrecorded

end PhisRedirected

/-! ### All uses -/

/-- Which users and phis are seen when the uses of a value are replaced. -/
theorem exists_redirected_of_redirectUses (hc : c.Recorded) (hclosed : c.Closed)
    (hnew : c.HasValue new) {excluded : List InstrId} {r : Redirected}
    (hd : c.redirectUses t old new definer excluded = .ok (r, d)) :
    ∃ users seen e, c.UsersRedirected t old new definer users r.instructions e ∧
      c.PhisRedirected t old new seen e d ∧
      (∀ i, i ∈ users ↔ c.Reads i old ∧ i ≠ definer ∧ i ∉ excluded) ∧
      ∀ b q, c.HasPhi b q → old ∈ q.operands → q.out ∈ seen := by
  simp only [redirectUses, bind_eq_ok, pure_eq_ok, Except.ok.injEq, Prod.mk.injEq, Prod.exists] at hd
  obtain ⟨y, hy, done, e, husers, z, hz, done', d', hphis, rfl, rfl⟩ := hd
  have hmem : ∀ i, i ∈ y.users.toList.filter (fun i => i ≠ definer && i ∉ excluded) ↔
      c.Reads i old ∧ i ≠ definer ∧ i ∉ excluded := by
    intro i
    rw [List.mem_filter, OrderedSet.mem_toList, hc.users hy]
    simp
  have he : c.UsersRedirected t old new definer
      (y.users.toList.filter fun i => i ≠ definer && i ∉ excluded) done e := by
    refine foldlM_invariant_append (fun seen q => c.UsersRedirected t old new definer seen q.1 q.2)
      husers ⟨.refl c, hc, fun _ => rfl, by simp, by simp⟩ ?_
    rintro seen i rest ⟨done, e⟩ ⟨done', e'⟩ hparts he hstep
    simp only [bind_eq_ok, Except.ok.injEq, Prod.mk.injEq, Prod.exists] at hstep
    obtain ⟨changed, e₁, hstep, rfl, rfl⟩ := hstep
    have hnodup := y.users.nodup.filter fun i => i ≠ definer && i ∉ excluded
    rw [hparts] at hnodup
    exact he.redirectUser (fun hi => (List.nodup_append.1 hnodup).2.2 i hi i (by simp) rfl)
      ((hmem i).1 (by rw [hparts]; simp)).1 hstep
  have hstart : c.PhisRedirected t old new [] e e := by
    refine ⟨he.rewired, he.recorded, fun _ => rfl, fun {b x} hx => ?_⟩
    have hnone : x.phis.map (c.redirectSeen t old new [] b x) = x.phis :=
      (List.map_congr_left fun q _ => if_neg (by simp)).trans (List.map_id _)
    rw [he.block, hnone, hx]
  refine ⟨_, z.phiUsers.toList, e, he, ?_, hmem, fun b q hq hold => ?_⟩
  · refine foldlM_invariant_append (fun seen q => c.PhisRedirected t old new seen e q.2)
      hphis hstart ?_
    rintro seen phi rest ⟨done, e₁⟩ ⟨done', e₂⟩ hparts he₁ hstep
    simp only [bind_eq_ok, Except.ok.injEq, Prod.mk.injEq, Prod.exists] at hstep
    obtain ⟨changed, e₃, hstep, -, rfl⟩ := hstep
    have hnodup := z.phiUsers.nodup
    rw [hparts] at hnodup
    exact he₁.redirectPhi hc hclosed hnew
      (fun hi => (List.nodup_append.1 hnodup).2.2 phi hi phi (by simp) rfl) hstep
  · obtain ⟨x, hx, hmemq⟩ := hq
    exact (he.recorded.phiUsers hz q.out).2 ⟨b, q, ⟨x, (he.block b).trans hx, hmemq⟩, rfl, hold⟩

section Valid

variable (hc : c.Recorded) (ht : c.dominators = .ok t) (hsites : c.definitionSites = .ok sites)
  (hvalid : c.violations = .ok []) (hop : c.operation definer = .ok op) (hout : op.out? = some new)
include hc ht hsites hvalid hop hout

/-- The site that counts is the place of the definition. -/
theorem last?_of_valid (hx : c.block b = .ok x) (hn : x.instructions[n]? = some definer) :
    DefinitionSite.last? sites new = some ⟨new, b, some n, none⟩ := by
  obtain ⟨sites', hsites', hmem⟩ := exists_definitionSites hc.toArranged
  obtain rfl := Except.ok.inj (hsites.symm.trans hsites')
  obtain ⟨-, hnodup, -⟩ := (hc.violations_eq_nil_iff ht hsites).1 hvalid
  have hsite : (⟨new, b, some n, none⟩ : DefinitionSite) ∈ sites :=
    (hmem _).2 (.inr ⟨x, definer, n, hx, hn, ⟨op, hop, hout⟩, rfl, rfl⟩)
  obtain ⟨site, hlast⟩ := (exists_last?_iff hc.toArranged hmem).2 (.inl ⟨definer, op, hop, hout⟩)
  have hvalue : site.value = new := by simpa using List.find?_some hlast
  have hmem' := List.mem_reverse.1 (List.mem_of_find?_eq_some hlast)
  rw [hlast, List.inj_on_of_nodup_map hnodup hmem' hsite hvalue]

/-- An instruction that comes later finds the value there. -/
theorem ComesLater.definedBefore {z : Block} (hlater : c.ComesLater t definer new i)
    (hz : c.block s = .ok z) (hi : z.instructions[n]? = some i) :
    ∃ site, DefinitionSite.last? sites new = some site ∧ c.definedBefore t site s n = .ok true := by
  obtain ⟨b, x, hb, hx, hmem⟩ := hc.exists_place hop
  obtain ⟨k, hk⟩ := List.mem_iff_getElem?.1 hmem
  refine ⟨_, last?_of_valid hc ht hsites hvalid hop hout hx hk, ?_⟩
  obtain ⟨b', s', hb', hs', hcases⟩ := hlater
  obtain rfl := Except.ok.inj (hb.symm.trans hb')
  obtain rfl := Except.ok.inj ((hc.placed hz i (List.mem_of_getElem? hi)).symm.trans hs')
  rcases hcases with ⟨rfl, x', k', n', hx', hk', hn', hlt⟩ | ⟨hne, havailable⟩
  · obtain rfl := Except.ok.inj (hx.symm.trans hz)
    obtain rfl := Except.ok.inj (hx.symm.trans hx')
    have hkk := (List.getElem?_inj (List.getElem?_eq_some_iff.1 hk).1 (hc.nodup hx)).1
      (hk.trans hk'.symm)
    have hnn := (List.getElem?_inj (List.getElem?_eq_some_iff.1 hi).1 (hc.nodup hx)).1
      (hi.trans hn'.symm)
    have hkn : k < n := by omega
    simp [Body.definedBefore, hkn]
  · simp [Body.definedBefore, hne, havailable]

/-- What has been replaced is there where it is read now. -/
theorem supplied_of_redirected {users : List InstrId} {done : List InstrId} {seen : List ValueId}
    (he : c.UsersRedirected t old new definer users done e)
    (hd : c.PhisRedirected t old new seen e d) : d.Supplied t sites := by
  obtain ⟨-, -, hsupplied⟩ := (hc.violations_eq_nil_iff ht hsites).1 hvalid
  refine ⟨?_, ?_⟩
  · intro b y n i op' hy hn hop' v hv
    obtain ⟨x, hx, hins, -⟩ := hd.rewired.symm.exists_block hy
    obtain ⟨op₀, hop₀, -⟩ := hd.rewired.symm.exists_operation hop'
    rw [← hins] at hn
    rw [hd.operation, he.operation i op₀ hop₀] at hop'
    obtain rfl := Except.ok.inj hop'
    simp only [hd.rewired.definedBefore_eq]
    split at hv
    · rename_i hdone
      rcases Operation.mem_operands_replaceOperand.1 hv with ⟨rfl, -⟩ | ⟨-, hv⟩
      · have hlater := (standsAfter_eq_true_iff hc.toArranged (hasInstruction_of_operation hop)
          (hasInstruction_of_operation hop₀)).1 ((he.mem_done i).1 hdone).2
        obtain ⟨site, hlast, hdefined⟩ :=
          hlater.definedBefore hc ht hsites hvalid hop hout hx hn
        exact ⟨site, hlast, fun _ => hdefined⟩
      · exact hsupplied.operands hx hn hop₀ v hv
    · exact hsupplied.operands hx hn hop₀ v hv
  · intro b y phi' hy hphi' q hq
    obtain ⟨x, hx, -⟩ := hd.rewired.symm.exists_block hy
    obtain rfl := Except.ok.inj ((hd.block hx).symm.trans hy)
    obtain ⟨phi, hphi, rfl⟩ := List.mem_map.1 hphi'
    rw [hd.rewired.availableOnEdge_eq]
    obtain ⟨n, hn⟩ := List.mem_iff_getElem?.1 hq
    obtain ⟨hv, hsource⟩ := List.getElem?_zip_eq_some.1 hn
    have hp : x.predecessors[n]? = some q.2 := hsource
    have hlength : n < phi.operands.length := by
      rw [← length_redirectSeen]
      exact (List.getElem?_eq_some_iff.1 hv).1
    rw [getElem?_redirectSeen (List.getElem?_eq_getElem hlength) hp] at hv
    rw [← Option.some.inj hv]
    split
    · rename_i hopen
      obtain ⟨b', x', -, hx', hmem⟩ := hc.exists_place hop
      obtain ⟨k, hk⟩ := List.mem_iff_getElem?.1 hmem
      exact ⟨⟨_, last?_of_valid hc ht hsites hvalid hop hout hx' hk⟩, fun _ => hopen.2.2⟩
    · exact hsupplied.inputs hx hphi (_, q.2) (List.mem_of_getElem?
        (List.getElem?_zip_eq_some.2 ⟨List.getElem?_eq_getElem hlength, hp⟩))

end Valid

/-- Replacing the uses of a value in a body without violations changes just the uses where the other
value is there, and the body stays without violations. -/
theorem redirectUses_of_valid (hedited : c.Edited) (hvalid : c.violations = .ok [])
    (ht : c.dominators = .ok t) (hop : c.operation definer = .ok op) (hout : op.out? = some new)
    (hold : c.HasValue old) (excluded : List InstrId) :
    ∃ r d, c.redirectUses t old new definer excluded = .ok (r, d) ∧ d.violations = .ok [] ∧
      (∀ i, i ∈ r.instructions ↔ c.Reads i old ∧ i ≠ definer ∧ i ∉ excluded ∧
        c.ComesLater t definer new i) ∧
      (∀ i op, c.operation i = .ok op →
        d.operation i = .ok (if i ∈ r.instructions then op.replaceOperand old new else op)) ∧
      ∀ b x, c.block b = .ok x → ∃ y, d.block b = .ok y ∧ y.instructions = x.instructions ∧
        y.predecessors = x.predecessors ∧ y.handlers = x.handlers ∧
        List.Forall₂ (fun q q' => q'.out = q.out ∧ q'.operands.length = q.operands.length ∧
          ∀ (n : Nat) v source, q.operands[n]? = some v → x.predecessors[n]? = some source →
            q'.operands[n]? = some (if v = old ∧ c.NamesPhi q.out b ∧
              c.availableOnEdge t new source b = .ok true then new else v)) x.phis y.phis := by
  have hc := hedited.recorded
  have hcontrolled := controlled_of_valid hc.toArranged hvalid
  have hnew : c.HasValue new := hc.hasValue hop new (by simp [Operation.mentions, hout])
  have hdefiner := hasInstruction_of_operation hop
  obtain ⟨⟨r, d⟩, hrun⟩ : ∃ q, c.redirectUses t old new definer excluded = .ok q :=
    (hc.exists_redirectUses hcontrolled.closed hdefiner hold hnew).imp fun _ hrun => hrun.1
  obtain ⟨users, seen, e, he, hd, husers, hseen⟩ :=
    exists_redirected_of_redirectUses hc hcontrolled.closed hnew hrun
  obtain ⟨sites, hsites, -⟩ := exists_definitionSites hc.toArranged
  refine ⟨r, d, hrun, ?_, fun i => ?_, fun i o ho => ?_, fun b x hx => ?_⟩
  · have hd' := hd.recorded
    have ht' : d.dominators = .ok t := hd.rewired.dominators_eq.trans ht
    have hsites' : d.definitionSites = .ok sites := hd.rewired.definitionSites_eq hsites
    obtain ⟨-, hnodup, -⟩ := (hc.violations_eq_nil_iff ht hsites).1 hvalid
    refine (hd'.violations_eq_nil_iff ht' hsites').2
      ⟨hd.rewired.toSameShape.controlled hcontrolled ?_, hnodup,
        supplied_of_redirected hc ht hsites hvalid hop hout he hd⟩
    intro b y hy phi' hphi'
    obtain ⟨x, hx, -⟩ := hd.rewired.symm.exists_block hy
    obtain rfl := Except.ok.inj ((hd.block hx).symm.trans hy)
    obtain ⟨phi, hphi, rfl⟩ := List.mem_map.1 hphi'
    rw [length_redirectSeen]
    exact hcontrolled.arity hx phi hphi
  · rw [he.mem_done, husers]
    constructor
    · rintro ⟨⟨hreads, hne, hexcluded⟩, hafter⟩
      obtain ⟨o, ho, -⟩ := id hreads
      exact ⟨hreads, hne, hexcluded,
        (standsAfter_eq_true_iff hc.toArranged hdefiner (hasInstruction_of_operation ho)).1 hafter⟩
    · rintro ⟨hreads, hne, hexcluded, hlater⟩
      obtain ⟨o, ho, -⟩ := id hreads
      exact ⟨⟨hreads, hne, hexcluded⟩,
        (standsAfter_eq_true_iff hc.toArranged hdefiner (hasInstruction_of_operation ho)).2 hlater⟩
  · rw [hd.operation]
    exact he.operation i o ho
  · refine ⟨_, hd.block hx, rfl, rfl, rfl, ?_⟩
    rw [List.forall₂_map_right_iff, List.forall₂_same]
    intro q hq
    refine ⟨out_redirectSeen, length_redirectSeen, fun n v source hv hp => ?_⟩
    rw [getElem?_redirectSeen hv hp]
    congr 1
    refine if_congr (and_congr_right fun hvold => and_congr_left fun _ => ?_) rfl rfl
    exact and_iff_right (hseen b q ⟨x, hx, hq⟩ (hvold ▸ List.mem_of_getElem? hv))

/-- A value is cast in one of two branches, and a phi reads it from both. -/
def castInBranch : List DraftStep :=
  [.newBlock, .newBlock, .newBlock, .argument (.ofClass "A" .maybe), .number ⟨0⟩ 1,
    .branch ⟨0⟩ ⟨1⟩ ⟨1⟩ ⟨2⟩, .call ⟨1⟩ .virtual (.plain "A" "f") [⟨0⟩], .cast ⟨1⟩ ⟨0⟩ "A",
    .call ⟨1⟩ .virtual (.plain "A" "f") [⟨0⟩], .goto ⟨1⟩ ⟨3⟩, .goto ⟨2⟩ ⟨3⟩,
    .phi ⟨3⟩ (.ofClass "A" .maybe) [(⟨1⟩, ⟨0⟩), (⟨2⟩, ⟨0⟩)], .ret ⟨3⟩ (some ⟨0⟩)]

set_option synthInstance.maxSize 256 in
/-- The call after the cast follows and so does the phi on one of its edges. -/
theorem redirectUses_castInBranch :
    ∃ made c, ofSteps (.plain "A" "f") castInBranch = .ok (made, c) ∧ c.violations = .ok [] ∧
      ∃ t, c.dominators = .ok t ∧ ∃ r d, c.redirectUses t ⟨0⟩ ⟨2⟩ ⟨4⟩ [] = .ok (r, d) ∧
        r.instructions = [⟨5⟩] ∧ Block.phis <$> d.block ⟨3⟩ = .ok [⟨⟨3⟩, [⟨2⟩, ⟨0⟩]⟩] ∧
        d.violations = .ok [] := by
  obtain ⟨made, c, hwritten, hvalid, t, ht, hop, hold, r, d, hrun, hchanged, hphis⟩ :
      ∃ made c, ofSteps (.plain "A" "f") castInBranch = .ok (made, c) ∧ c.violations = .ok [] ∧
        ∃ t, c.dominators = .ok t ∧ c.operation ⟨4⟩ = .ok (.cast ⟨2⟩ ⟨0⟩ "A") ∧ c.HasValue ⟨0⟩ ∧
        ∃ r d, c.redirectUses t ⟨0⟩ ⟨2⟩ ⟨4⟩ [] = .ok (r, d) ∧ r.instructions = [⟨5⟩] ∧
        Block.phis <$> d.block ⟨3⟩ = .ok [⟨⟨3⟩, [⟨2⟩, ⟨0⟩]⟩] := by
    decide +kernel
  obtain ⟨r', d', hrun', hvalid', -⟩ :=
    redirectUses_of_valid (.written hwritten) hvalid ht hop rfl hold []
  obtain ⟨rfl, rfl⟩ := Prod.mk.inj (Except.ok.inj (hrun.symm.trans hrun'))
  exact ⟨made, c, hwritten, hvalid, t, ht, r, d, hrun, hchanged, hphis, hvalid'⟩

/-- A cast whose object a phi reads in the next block. -/
def castBeforePhi : List DraftStep :=
  [.newBlock, .argument (.ofClass "A" .maybe), .cast ⟨0⟩ ⟨0⟩ "A", .goto ⟨0⟩ ⟨1⟩,
    .phi ⟨1⟩ (.ofClass "A" .maybe) [(⟨0⟩, ⟨0⟩)], .ret ⟨1⟩ none]

/-- An instruction defines the output of the phi for a while, and then the phi is its only
definition again but not recorded. -/
def definedInBetween : List BodyEdit :=
  [.insertAt ⟨1⟩ 0 (.null ⟨2⟩), .createValue (.ofClass "A" .maybe), .replace ⟨4⟩ (.null ⟨3⟩)]

set_option synthInstance.maxSize 256 in
/-- A phi that is not recorded at its output reads the old value ever after, though the other one is
there on the edge. -/
theorem redirectUses_definedInBetween :
    ∃ made c₀, ofSteps (.plain "A" "f") castBeforePhi = .ok (made, c₀) ∧
      ∃ c, c₀.applyAll definedInBetween = .ok c ∧ c.violations = .ok [] ∧
      ∃ t, c.dominators = .ok t ∧ c.operation ⟨1⟩ = .ok (.cast ⟨1⟩ ⟨0⟩ "A") ∧
      c.availableOnEdge t ⟨1⟩ ⟨0⟩ ⟨1⟩ = .ok true ∧
      ∃ r d, c.redirectUses t ⟨0⟩ ⟨1⟩ ⟨1⟩ [] = .ok (r, d) ∧
        Block.phis <$> d.block ⟨1⟩ = .ok [⟨⟨2⟩, [⟨0⟩]⟩] := by
  decide +kernel

end Body

end Devirt
