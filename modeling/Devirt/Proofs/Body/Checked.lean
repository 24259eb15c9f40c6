import Devirt.Proofs.Body.Made
import Devirt.Proofs.Body.Shape

/-!
What the consistency check says of a body whose records may be wrong. If each value names its
definition, then a body without violations is in single-assignment form: the check compares the
recorded users with the instructions, and it does not look at the phis that are recorded as users.
-/

namespace Devirt

namespace Body

/-- Every value names the instruction or the block of the phi that defines it. -/
structure NamesDefinitions (c : Body) : Prop where
  instruction : ∀ {v x}, c.value v = .ok x → ∀ i, x.definition = .instruction i ↔ c.Outputs i v
  phi : ∀ {v x}, c.value v = .ok x → ∀ b,
    x.definition = .phi b ↔ ∃ phi, c.HasPhi b phi ∧ phi.out = v

variable {c : Body} {b p : BlockId} {i : InstrId} {v w : ValueId} {t : DominatorTree}
  {sites : List DefinitionSite} {placed : List InstrId} {n : Nat} {x : Block} {y : Value}

theorem Intact.namesDefinitions (hc : c.Intact) : c.NamesDefinitions :=
  ⟨hc.definition_instruction, hc.definition_phi⟩

/-! ### What the check looks at -/

section Unread

variable {g : ValueId → Value → Value}

theorem value_updateValues_of_ok (hy : c.value v = .ok y) :
    (c.updateValues g).value v = .ok (g v y) := value_updateValues.2 ⟨y, hy, rfl⟩

theorem value_updateValues_of_error {e : Fault} (hv : c.value v = .error e) :
    (c.updateValues g).value v = .error e := by
  unfold value at hv ⊢
  simp only [updateValues, List.getElem?_mapIdx]
  cases hy : c.values[v.index]? with
  | none => simpa [hy] using hv
  | some y => simp [hy] at hv

variable (hg : ∀ v y, (g v y).users = y.users ∧ (g v y).definition = y.definition)
include hg

theorem availableFrom?_updateValues : (c.updateValues g).availableFrom? v = c.availableFrom? v := by
  cases hv : c.value v with
  | error e => simp only [availableFrom?, hv, value_updateValues_of_error hv, error_bind]
  | ok y =>
    simp only [availableFrom?, hv, value_updateValues_of_ok hv, ok_bind, (hg v y).2]
    rfl

theorem availableIn_updateValues : (c.updateValues g).availableIn t v b = c.availableIn t v b := by
  simp only [availableIn, availableFrom?_updateValues hg]

theorem availableOnEdge_updateValues :
    (c.updateValues g).availableOnEdge t v p b = c.availableOnEdge t v p b := by
  cases hv : c.value v with
  | error e => simp only [availableOnEdge, hv, value_updateValues_of_error hv, error_bind]
  | ok y =>
    simp only [availableOnEdge, hv, value_updateValues_of_ok hv, ok_bind, (hg v y).2,
      availableIn_updateValues hg]
    rfl

theorem hasUser_updateValues : (c.updateValues g).hasUser v i = c.hasUser v i := by
  cases hv : c.value v with
  | error e => simp only [hasUser, hv, value_updateValues_of_error hv, error_bind]
  | ok y => simp only [hasUser, hv, value_updateValues_of_ok hv, ok_bind, (hg v y).1]

theorem operandViolations_updateValues :
    (c.updateValues g).operandViolations t sites b i n = c.operandViolations t sites b i n := by
  funext v
  simp only [operandViolations, definedBefore, hasUser_updateValues hg, availableIn_updateValues hg]

theorem blockViolations_updateValues :
    (c.updateValues g).blockViolations t sites b x = c.blockViolations t sites b x := by
  have hinstructions : (c.updateValues g).instructionViolations t sites b x =
      c.instructionViolations t sites b x := by
    unfold instructionViolations
    simp only [operandViolations_updateValues hg]
    rfl
  have hphis : (c.updateValues g).phiViolations t sites b x = c.phiViolations t sites b x := by
    simp only [phiViolations, inputViolations, availableOnEdge_updateValues hg]
  simp only [blockViolations, hinstructions, hphis]
  rfl

/-- Of the values the check looks at definitions and users only. -/
theorem violations_updateValues (hc : c.Arranged) (hvalid : c.violations = .ok []) :
    (c.updateValues g).violations = .ok [] := by
  obtain ⟨t, ht⟩ := hc.exists_dominators
  obtain ⟨sites, hsites, -⟩ := exists_definitionSites hc
  obtain ⟨placed, hplaced, -⟩ := hc.exists_placed
  have hc' : (c.updateValues g).Arranged := hc.congr rfl (fun _ => rfl) fun _ => rfl
  obtain ⟨hdefinitions, hblocks, hrecords⟩ :=
    (violations_eq_nil hc ht hsites hplaced).1 hvalid
  refine (violations_eq_nil hc' ht hsites hplaced).2 ⟨hdefinitions, fun b x hx => ?_, ?_⟩
  · rw [blockViolations_updateValues hg]
    exact hblocks b x hx
  · intro v z hz
    obtain ⟨y, hy, rfl⟩ := value_updateValues.1 hz
    rw [← hrecords v y hy]
    simp only [recordViolations, (hg v y).1, (hg v y).2]
    rfl

end Unread

/-! ### The records of a body without violations -/

section Valid

variable (hc : c.Grounded) (hvalid : c.violations = .ok [])
include hc hvalid

theorem users_iff_of_valid (hy : c.value v = .ok y) : i ∈ y.users ↔ c.Reads i v := by
  obtain ⟨t, ht⟩ := hc.exists_dominators
  obtain ⟨sites, hsites, -⟩ := exists_definitionSites hc.toArranged
  obtain ⟨placed, hplaced, hmem⟩ := hc.exists_placed
  obtain ⟨-, hblocks, hrecords⟩ := (violations_eq_nil hc.toArranged ht hsites hplaced).1 hvalid
  constructor
  · intro hi
    have hrecord := hrecords v y hy
    simp only [recordViolations, bind_eq_ok] at hrecord
    obtain ⟨stale, hstale, hrecord⟩ := hrecord
    obtain rfl : stale = [] := by
      split at hrecord
      · split at hrecord
        · simp only [bind_eq_ok, pure_eq_ok, Except.ok.injEq, List.append_eq_nil_iff,
            List.map_eq_nil_iff] at hrecord
          obtain ⟨-, -, -, -, hnil, -⟩ := hrecord
          exact hnil
        · simpa using hrecord
      · simpa using hrecord
    have hone := filterM_eq_ok_nil.1 hstale i hi
    split at hone
    · simpa [Reads] using hone
    · simp at hone
  · rintro ⟨op, hop, hv⟩
    obtain ⟨b, x, -, hx, hi⟩ := hc.exists_place hop
    obtain ⟨n, hn⟩ := List.mem_iff_getElem?.1 hi
    have hflat := (blockViolations_eq_nil.1 (hblocks b x hx)).2.2.2.1
    simp only [instructionViolations, bind_eq_ok, pure_eq_ok, Except.ok.injEq] at hflat
    have hone := mapM_flatten_eq_nil.1 hflat (i, n) (List.mem_zipIdx_iff_getElem?.2 hn)
    simp only [hop, ok_bind, bind_eq_ok, Except.ok.injEq] at hone
    have hoperand := mapM_flatten_eq_nil.1 hone v hv
    simp only [operandViolations] at hoperand
    split at hoperand
    · simp only [hasUser, hy, bind_eq_ok, pure_eq_ok, Except.ok.injEq, ok_bind,
        List.append_eq_nil_iff] at hoperand
      obtain ⟨-, -, hstale, -⟩ := hoperand
      simpa using hstale
    · simp at hoperand

theorem phi_nodup_of_valid (hx : c.block b = .ok x) : (x.phis.map (·.out)).Nodup := by
  obtain ⟨t, ht⟩ := hc.exists_dominators
  obtain ⟨sites, hsites, -⟩ := exists_definitionSites hc.toArranged
  obtain ⟨placed, hplaced, -⟩ := hc.exists_placed
  have hnodup := (DefinitionSite.violations_eq_nil.1
    ((violations_eq_nil hc.toArranged ht hsites hplaced).1 hvalid).1).1
  simp only [definitionSites, bind_eq_ok, pure_eq_ok, Except.ok.injEq] at hsites
  obtain ⟨l, hl, L, hL, rfl⟩ := hsites
  obtain ⟨f, -, hblock⟩ := exists_blockSites hc.toArranged hx
  have hmem := (mem_of_mapM_eq_ok hL).2 ⟨(b, x), (mem_layout hc.toArranged hl).2 hx, hblock⟩
  rw [List.map_flatten, List.nodup_flatten] at hnodup
  have hhere := hnodup.1 _ (List.mem_map_of_mem hmem)
  rw [List.map_append, List.map_map] at hhere
  exact hhere.of_append_left

end Valid

section Contents

variable {g : ValueId → Value → Value}

theorem reads_updateValues : (c.updateValues g).Reads i v ↔ c.Reads i v := Iff.rfl

theorem outputs_updateValues : (c.updateValues g).Outputs i v ↔ c.Outputs i v := Iff.rfl

theorem hasPhi_updateValues {phi : Phi} : (c.updateValues g).HasPhi b phi ↔ c.HasPhi b phi := Iff.rfl

end Contents

/-- The body with the right phis recorded as users. -/
def withPhiUsers (c : Body) : Body :=
  c.updateValues fun v y =>
    { y with
      phiUsers := .ofList
        (((c.blocks.flatMap (·.phis)).filter fun phi => v ∈ phi.operands).map (·.out)) }

theorem intact_withPhiUsers (hc : c.Grounded) (hnames : c.NamesDefinitions)
    (hvalid : c.violations = .ok []) : c.withPhiUsers.Intact := by
  have hphis : ∀ phi, phi ∈ c.blocks.flatMap (·.phis) ↔ ∃ b, c.HasPhi b phi := by
    intro phi
    rw [List.mem_flatMap]
    constructor
    · rintro ⟨x, hx, hphi⟩
      obtain ⟨n, hn⟩ := List.mem_iff_getElem?.1 hx
      exact ⟨⟨n⟩, x, block_eq_ok.2 hn, hphi⟩
    · rintro ⟨b, x, hx, hphi⟩
      exact ⟨x, List.mem_of_getElem? (block_eq_ok.1 hx), hphi⟩
  refine ⟨hc.toArranged.congr rfl (fun _ => rfl) fun _ => rfl, ⟨?_, ?_, ?_⟩, ⟨?_, ?_, ?_, ?_⟩⟩
  · intro v z hz i
    obtain ⟨y, hy, rfl⟩ := value_updateValues.1 hz
    rw [withPhiUsers, reads_updateValues]
    show i ∈ y.users ↔ _
    exact users_iff_of_valid hc hvalid hy
  · intro i op hop v hv
    exact hasValue_updateValues.2 (hc.hasValue hop v hv)
  · intro v z hz i
    obtain ⟨y, hy, rfl⟩ := value_updateValues.1 hz
    rw [withPhiUsers, outputs_updateValues]
    exact hnames.instruction hy i
  · intro v z hz p
    obtain ⟨y, hy, rfl⟩ := value_updateValues.1 hz
    show p ∈ OrderedSet.insertAll ∅ _ ↔ _
    rw [OrderedSet.mem_insertAll, List.mem_map]
    simp only [List.mem_filter, hphis, decide_eq_true_eq, withPhiUsers, hasPhi_updateValues]
    constructor
    · rintro (hnone | ⟨phi, ⟨⟨b, hphi⟩, hv⟩, hout⟩)
      · simp [← OrderedSet.mem_toList] at hnone
      · exact ⟨b, phi, hphi, hout, hv⟩
    · rintro ⟨b, phi, hphi, hout, hv⟩
      exact .inr ⟨phi, ⟨⟨b, hphi⟩, hv⟩, hout⟩
  · intro b phi hphi v hv
    exact hasValue_updateValues.2 (hc.phi_hasValue hphi v hv)
  · intro v z hz b
    obtain ⟨y, hy, rfl⟩ := value_updateValues.1 hz
    simp only [withPhiUsers, hasPhi_updateValues]
    exact hnames.phi hy b
  · intro b x hx
    exact phi_nodup_of_valid hc hvalid (block_updateValues.symm.trans hx)

/-- A body without violations, in which every value names its definition, is in single-assignment
form. -/
theorem consistent_of_valid (hc : c.Grounded) (hnames : c.NamesDefinitions)
    (hvalid : c.violations = .ok []) : c.Consistent := by
  have hconsistent := (violations_eq_nil_iff (intact_withPhiUsers hc hnames hvalid)).1
    (violations_updateValues (fun _ _ => ⟨rfl, rfl⟩) hc.toArranged hvalid)
  exact sameShape_updateValues.symm.consistent_of_operations hconsistent (fun _ => rfl)
    fun _ op hop => ⟨op, hop, rfl⟩

/-! ### Control flow -/

theorem controlled_of_valid (hc : c.Arranged) (hvalid : c.violations = .ok []) : c.Controlled := by
  obtain ⟨t, ht⟩ := hc.exists_dominators
  obtain ⟨sites, hsites, hmem⟩ := exists_definitionSites hc
  obtain ⟨placed, hplaced, -⟩ := hc.exists_placed
  obtain ⟨hdefinitions, hblocks, -⟩ := (violations_eq_nil hc ht hsites hplaced).1 hvalid
  have hterminators : ∀ {b x}, c.block b = .ok x → _ := fun {b x} hx =>
    (terminatorViolations_eq_nil hc hx).1 (blockViolations_eq_nil.1 (hblocks b x hx)).1
  have hedges : ∀ {b x}, c.block b = .ok x → _ := fun {b x} hx =>
    (edgeViolations_eq_nil hc hx).1 (blockViolations_eq_nil.1 (hblocks b x hx)).2.1
  refine ⟨fun hx => (hterminators hx).1, fun hx => (hterminators hx).2, fun hedge => ?_,
    fun hx => (hedges hx).2, fun {b x} hx => ?_, fun {b x} hx phi hphi => ?_⟩
  · obtain ⟨x, hx⟩ := hedge.exists_block
    exact (hedges hx).1 _ hedge
  · exact (guardViolations_eq_nil hc hx).1 (blockViolations_eq_nil.1 (hblocks b x hx)).2.2.1
  · have harity := (DefinitionSite.violations_eq_nil.1 hdefinitions).2.2
      ⟨phi.out, b, none, some (phi.operands.length, x.predecessors.length)⟩
      ((hmem _).2 (.inl ⟨x, phi, hx, hphi, rfl, rfl, rfl⟩))
    simpa [DefinitionSite.arityViolations] using harity

namespace Controlled

variable (hc : c.Controlled)
include hc

theorem closed : c.Closed := by
  intro b s hedge
  obtain ⟨y, hy, -⟩ := hc.symmetric_out hedge
  exact hasBlock_of_block hy

theorem instructions_ne_nil (hx : c.block b = .ok x) : x.instructions ≠ [] := by
  intro hnil
  obtain ⟨i, -, hlast, -⟩ := hc.terminated hx
  simp [hnil] at hlast

/-- What follows a terminator in its block is nothing, and what follows another instruction is
something. -/
theorem terminates_iff {op : Operation} {l : List InstrId} (hx : c.block b = .ok x)
    (hl : i :: l <:+ x.instructions) (hop : c.operation i = .ok op) :
    op.isTerminator = true ↔ l = [] := by
  obtain ⟨front, hfront⟩ := hl
  constructor
  · intro hterm
    by_contra hne
    have hmem : i ∈ x.instructions.dropLast := by
      rw [← hfront, List.dropLast_append_of_ne_nil (by simp)]
      simp [List.dropLast_cons_of_ne_nil hne]
    have hinner := hc.inner hx i hmem op hop
    simp [hterm] at hinner
  · rintro rfl
    obtain ⟨j, op', hlast, hop', hterm⟩ := hc.terminated hx
    obtain rfl : i = j := by simpa [← hfront] using hlast
    obtain rfl := Except.ok.inj (hop.symm.trans hop')
    exact hterm

end Controlled

end Body

end Devirt
