import Devirt.Proofs.Body.Made

/-!
The records of a body that is edited freely. An edit may define a value again that something else
defines already, so an output need not be the definition its value names. All else stays true of the
records: who reads a value is known exactly, and the definition that a value names does output it.
-/

namespace Devirt

namespace Body

/-- The records are right, except that a value names one of its definitions only. The outputs of phis
are always new, and so each of them belongs to one phi. -/
structure Recorded (c : Body) : Prop extends c.Grounded where
  users : ∀ {v x}, c.value v = .ok x → ∀ i, i ∈ x.users ↔ c.Reads i v
  phiUsers : ∀ {v x}, c.value v = .ok x → ∀ p,
    p ∈ x.phiUsers ↔ ∃ b phi, c.HasPhi b phi ∧ phi.out = p ∧ v ∈ phi.operands
  definition_instruction : ∀ {v x i}, c.value v = .ok x → x.definition = .instruction i →
    c.Outputs i v
  definition_phi : ∀ {v x b}, c.value v = .ok x → x.definition = .phi b →
    ∃ phi, c.HasPhi b phi ∧ phi.out = v
  phi_block : ∀ {b s p q}, c.HasPhi b p → c.HasPhi s q → p.out = q.out → b = s
  phi_nodup : ∀ {b x}, c.block b = .ok x → (x.phis.map (·.out)).Nodup

variable {c d : Body} {b s : BlockId} {i j : InstrId} {v old new : ValueId} {op op' : Operation}
  {x : Block} {y : Value} {index : Nat}

theorem recorded_of_intact (hc : c.Intact) : c.Recorded where
  toGrounded := hc.grounded
  users := hc.users
  phiUsers := hc.phiUsers
  definition_instruction hy := (hc.definition_instruction hy _).1
  definition_phi hy := (hc.definition_phi hy _).1
  phi_block hp hq hout := (hc.toTracksPhis.eq_of_out hp hq hout).1
  phi_nodup := hc.phi_nodup

/-! ### Contents and records after an edit -/

theorem mem_users_detached :
    j ∈ (detached i op v y).users ↔ j ∈ y.users ∧ ¬ (j = i ∧ v ∈ op.operands) := by
  show j ∈ (if v ∈ op.operands then y.users.erase i else y.users) ↔ _
  split
  · rename_i hv
    simp [hv, and_comm]
  · rename_i hv
    simp [hv]

/-- An instruction that is attached to a value defines it or leaves its definition alone. -/
theorem definition_attached (i : InstrId) (op : Operation) (v : ValueId) (y : Value) :
    (attached i op v y).definition = .instruction i ∧ op.out? = some v ∨
      (attached i op v y).definition = y.definition ∧ op.out? ≠ some v := by
  unfold attached
  split
  · exact .inl ⟨rfl, ‹_›⟩
  · exact .inr ⟨rfl, ‹_›⟩

/-- An instruction that is detached from its output is no longer its definition. -/
theorem definition_detached {definition : Definition}
    (h : (detached i op v y).definition = definition) (hdefined : definition ≠ .undefined) :
    y.definition = definition ∧ ¬ (op.out? = some v ∧ definition = .instruction i) := by
  unfold detached at h
  split at h
  · exact absurd h.symm hdefined
  · rename_i hnot
    exact ⟨h, h ▸ hnot⟩

theorem reads_replaced (hop : c.operation i = .ok op) :
    (c.replaced i op op').Reads j v ↔ if j = i then v ∈ op'.operands else c.Reads j v := by
  simp only [Reads, operation_replaced]
  split
  · rename_i hji
    subst hji
    constructor
    · rintro ⟨_, ⟨_, -, rfl⟩, hv⟩
      exact hv
    · intro hv
      exact ⟨op', ⟨op, hop, rfl⟩, hv⟩
  · constructor
    · rintro ⟨_, ⟨op₁, hop₁, rfl⟩, hv⟩
      exact ⟨op₁, hop₁, hv⟩
    · rintro ⟨op₁, hop₁, hv⟩
      exact ⟨op₁, ⟨op₁, hop₁, rfl⟩, hv⟩

theorem Outputs.redirected (h : c.Outputs j v) : (c.redirected i old new).Outputs j v := by
  obtain ⟨op, hop, hout⟩ := h
  refine ⟨_, operation_redirected.2 ⟨op, hop, rfl⟩, ?_⟩
  split
  · rwa [Operation.out?_replaceOperand]
  · exact hout

theorem hasPhi_cut {phi : Phi} : (c.cut b index x).HasPhi s phi ↔ c.HasPhi s phi := by
  unfold HasPhi
  constructor
  · rintro ⟨z, hz, hphi⟩
    rcases block_cut.1 hz with ⟨y, hy, rfl⟩ | ⟨-, rfl⟩
    · refine ⟨y, hy, ?_⟩
      split at hphi <;> exact hphi
    · simp [splitTail] at hphi
  · rintro ⟨y, hy, hphi⟩
    refine ⟨_, block_cut.2 (.inl ⟨y, hy, rfl⟩), ?_⟩
    split <;> exact hphi

/-- Phis read the same values after edges have moved. -/
theorem hasPhi_movesEdges {g : BlockId → Block → Block} (hg : MovesEdges g) {p : Phi}
    (hp : (c.updateBlocks g).HasPhi s p) :
    ∃ q, c.HasPhi s q ∧ q.out = p.out ∧ ∀ v, v ∈ q.operands ↔ v ∈ p.operands := by
  obtain ⟨z, hz, hmem⟩ := hp
  obtain ⟨y, hy, rfl⟩ := block_updateBlocks.1 hz
  obtain ⟨-, -, extra, hextra, hphis⟩ := hg s y
  rw [hphis, List.mem_map] at hmem
  obtain ⟨q, hq, rfl⟩ := hmem
  exact ⟨q, ⟨y, hy, hq⟩, rfl, fun v => by simpa using fun h => hextra q h⟩

theorem HasPhi.movesEdges {g : BlockId → Block → Block} (hg : MovesEdges g) {p : Phi}
    (hp : c.HasPhi s p) :
    ∃ q, (c.updateBlocks g).HasPhi s q ∧ q.out = p.out ∧
      ∀ v, v ∈ q.operands ↔ v ∈ p.operands := by
  obtain ⟨y, hy, hmem⟩ := hp
  obtain ⟨-, -, extra, hextra, hphis⟩ := hg s y
  refine ⟨{ p with operands := p.operands ++ extra p },
    ⟨_, block_updateBlocks.2 ⟨y, hy, rfl⟩, ?_⟩, rfl, fun v => ?_⟩
  · rw [hphis]
    exact List.mem_map_of_mem hmem
  · simpa using fun h => hextra p h

/-! ### Every edit keeps the records -/

namespace Recorded

variable (hc : c.Recorded)
include hc

/-- Only one phi outputs a value. -/
theorem eq_of_out {p q : Phi} (hp : c.HasPhi b p) (hq : c.HasPhi s q) (hout : p.out = q.out) :
    b = s ∧ p = q := by
  obtain rfl := hc.phi_block hp hq hout
  obtain ⟨x, hx, hpx⟩ := hp
  obtain ⟨x', hx', hqx⟩ := hq
  obtain rfl := Except.ok.inj (hx.symm.trans hx')
  exact ⟨rfl, List.inj_on_of_nodup_map (hc.phi_nodup hx) hpx hqx hout⟩

theorem withVersion (version : Nat) : { c with version }.Recorded :=
  ⟨hc.toGrounded.withVersion version, hc.users, hc.phiUsers, hc.definition_instruction,
    hc.definition_phi, hc.phi_block, hc.phi_nodup⟩

/-- Types, names and knowledge about run-time classes are no records. -/
theorem updateValues {g : ValueId → Value → Value}
    (hg : ∀ v y, (g v y).users = y.users ∧ (g v y).phiUsers = y.phiUsers ∧
      (g v y).definition = y.definition) : (c.updateValues g).Recorded := by
  refine ⟨hc.toGrounded.updateValues g, ?_, ?_, ?_, ?_, hc.phi_block, hc.phi_nodup⟩
  · intro v z hz
    obtain ⟨y, hy, rfl⟩ := value_updateValues.1 hz
    rw [(hg v y).1]
    exact hc.users hy
  · intro v z hz
    obtain ⟨y, hy, rfl⟩ := value_updateValues.1 hz
    rw [(hg v y).2.1]
    exact hc.phiUsers hy
  · intro v z i hz hdef
    obtain ⟨y, hy, rfl⟩ := value_updateValues.1 hz
    rw [(hg v y).2.2] at hdef
    exact hc.definition_instruction hy hdef
  · intro v z b hz hdef
    obtain ⟨y, hy, rfl⟩ := value_updateValues.1 hz
    rw [(hg v y).2.2] at hdef
    exact hc.definition_phi hy hdef

theorem createBlock : c.createBlock.2.Recorded := by
  refine ⟨hc.toGrounded.createBlock, hc.users, ?_, hc.definition_instruction, ?_, ?_, ?_⟩
  · intro v y hy p
    simpa only [hasPhi_createBlock] using hc.phiUsers hy p
  · intro v y b hy hdef
    simpa only [hasPhi_createBlock] using hc.definition_phi hy hdef
  · intro b s p q hp hq
    exact hc.phi_block (hasPhi_createBlock.1 hp) (hasPhi_createBlock.1 hq)
  · intro b x hx
    rcases block_createBlock.1 hx with hx | ⟨-, rfl⟩
    · exact hc.phi_nodup hx
    · exact List.nodup_nil

/-- Nobody knows a value that has just been created. -/
theorem createValue (type : StaticType) : (c.createValue type).2.Recorded := by
  refine ⟨hc.toGrounded.createValue type, ?_, ?_, ?_, ?_, hc.phi_block, hc.phi_nodup⟩
  · intro v y hy i
    rcases value_createValue.1 hy with hy | ⟨rfl, rfl⟩
    · exact hc.users hy i
    · apply iff_of_false
      · simp [← OrderedSet.mem_toList]
      · rintro ⟨op, hop, hv⟩
        exact not_hasValue_next (hc.hasValue hop _ (List.mem_append_right _ hv))
  · intro v y hy p
    rcases value_createValue.1 hy with hy | ⟨rfl, rfl⟩
    · exact hc.phiUsers hy p
    · apply iff_of_false
      · simp [← OrderedSet.mem_toList]
      · rintro ⟨b, phi, hphi, -, hv⟩
        exact not_hasValue_next (hc.phi_hasValue hphi _ (List.mem_cons_of_mem _ hv))
  · intro v y i hy hdef
    rcases value_createValue.1 hy with hy | ⟨-, rfl⟩
    · exact hc.definition_instruction hy hdef
    · cases hdef
  · intro v y b hy hdef
    rcases value_createValue.1 hy with hy | ⟨-, rfl⟩
    · exact hc.definition_phi hy hdef
    · cases hdef

/-- The output of a new instruction may have been defined before. -/
theorem inserted (hx : c.block b = .ok x) (hindex : index ≤ x.instructions.length)
    (hmentions : ∀ v ∈ op.mentions, c.HasValue v) : (c.inserted b index op).Recorded := by
  refine ⟨hc.toGrounded.inserted hx hindex hmentions, ?_, ?_, ?_, ?_, ?_, ?_⟩
  · intro v z hz i
    obtain ⟨y, hy, rfl⟩ := value_inserted.1 hz
    rw [mem_users_attached, reads_inserted, hc.users hy]
  · intro v z hz p
    obtain ⟨y, hy, rfl⟩ := value_inserted.1 hz
    simp only [hasPhi_inserted]
    exact hc.phiUsers hy p
  · intro v z i hz hdef
    obtain ⟨y, hy, rfl⟩ := value_inserted.1 hz
    rcases definition_attached ⟨c.instructions.length⟩ op v y with
      ⟨hnew, hout⟩ | ⟨hsame, -⟩
    · rw [hnew, Definition.instruction.injEq] at hdef
      exact ⟨op, operation_inserted.2 (.inr ⟨hdef.symm, rfl⟩), hout⟩
    · rw [hsame] at hdef
      exact outputs_inserted.2 (.inl (hc.definition_instruction hy hdef))
  · intro v z s hz hdef
    obtain ⟨y, hy, rfl⟩ := value_inserted.1 hz
    simp only [hasPhi_inserted]
    rcases definition_attached ⟨c.instructions.length⟩ op v y with
      ⟨hnew, -⟩ | ⟨hsame, -⟩
    · rw [hnew] at hdef
      cases hdef
    · rw [hsame] at hdef
      exact hc.definition_phi hy hdef
  · intro r s p q hp hq
    exact hc.phi_block (hasPhi_inserted.1 hp) (hasPhi_inserted.1 hq)
  · intro s z hz
    obtain ⟨y, hy, rfl⟩ := block_inserted.1 hz
    have hnodup := hc.phi_nodup hy
    split <;> exact hnodup

/-- The new operation may have another output and other operands. -/
theorem replaced (hop : c.operation i = .ok op) (hmentions : ∀ v ∈ op'.mentions, c.HasValue v) :
    (c.replaced i op op').Recorded := by
  refine ⟨hc.toGrounded.replaced hmentions, ?_, ?_, ?_, ?_, hc.phi_block, hc.phi_nodup⟩
  · intro v z hz j
    obtain ⟨y, hy, rfl⟩ := value_replaced.1 hz
    have hreads : c.Reads i v ↔ v ∈ op.operands := by
      constructor
      · rintro ⟨op₁, hop₁, hv⟩
        rwa [Except.ok.inj (hop.symm.trans hop₁)]
      · exact fun hv => ⟨op, hop, hv⟩
    rw [mem_users_attached, mem_users_detached, reads_replaced hop, hc.users hy]
    by_cases hji : j = i
    · subst hji
      simp [hreads]
    · simp [hji]
  · intro v z hz p
    obtain ⟨y, hy, rfl⟩ := value_replaced.1 hz
    exact hc.phiUsers hy p
  · intro v z j hz hdef
    obtain ⟨y, hy, rfl⟩ := value_replaced.1 hz
    rcases definition_attached i op' v (detached i op v y) with
      ⟨hnew, hout⟩ | ⟨hsame, -⟩
    · rw [hnew, Definition.instruction.injEq] at hdef
      exact ⟨op', operation_replaced.2 ⟨op, hdef ▸ hop, if_pos hdef.symm⟩, hout⟩
    · obtain ⟨hold, hnot⟩ := definition_detached (hsame.symm.trans hdef) (by simp)
      obtain ⟨op₁, hop₁, hout⟩ := hc.definition_instruction hy hold
      -- the old operation of `i` has lost its output, so this is another instruction
      have hji : j ≠ i := by
        rintro rfl
        rw [Except.ok.inj (hop₁.symm.trans hop)] at hout
        exact hnot ⟨hout, rfl⟩
      exact ⟨op₁, operation_replaced.2 ⟨op₁, hop₁, if_neg hji⟩, hout⟩
  · intro v z b hz hdef
    obtain ⟨y, hy, rfl⟩ := value_replaced.1 hz
    rcases definition_attached i op' v (detached i op v y) with
      ⟨hnew, -⟩ | ⟨hsame, -⟩
    · rw [hnew] at hdef
      cases hdef
    · exact hc.definition_phi hy (definition_detached (hsame.symm.trans hdef) (by simp)).1

theorem redirected (hop : c.operation i = .ok op) (hold : old ∈ op.operands)
    (hnew : c.HasValue new) : (c.redirected i old new).Recorded := by
  refine ⟨hc.toGrounded.redirected hnew, ?_, ?_, ?_, ?_, hc.phi_block, hc.phi_nodup⟩
  · intro v z hz j
    obtain ⟨y, hy, rfl⟩ := value_redirected.1 hz
    have husers := hc.users hy j
    rw [reads_redirected hop hold]
    by_cases hji : j = i <;> by_cases hvn : v = new <;> by_cases hvo : v = old <;> simp_all
  · intro v z hz p
    obtain ⟨y, hy, rfl⟩ := value_redirected.1 hz
    exact hc.phiUsers hy p
  · intro v z j hz hdef
    obtain ⟨y, hy, rfl⟩ := value_redirected.1 hz
    exact (hc.definition_instruction hy hdef).redirected
  · intro v z b hz hdef
    obtain ⟨y, hy, rfl⟩ := value_redirected.1 hz
    exact hc.definition_phi hy hdef

/-- A new phi has an output that no other phi has. -/
theorem withPhi {phi : Phi} (hb : c.HasBlock b) (hphi : ∀ v ∈ phi.out :: phi.operands, c.HasValue v)
    (hfresh : ∀ s q, c.HasPhi s q → q.out ≠ phi.out) : (c.withPhi b phi).Recorded := by
  refine ⟨hc.toGrounded.withPhi hphi, ?_, ?_, ?_, ?_, ?_, ?_⟩
  · intro v z hz i
    obtain ⟨y, hy, rfl⟩ := value_withPhi.1 hz
    exact hc.users hy i
  · intro v z hz p
    obtain ⟨y, hy, rfl⟩ := value_withPhi.1 hz
    exact mem_phiUsers_withPhi hb (hc.phiUsers hy) p
  · intro v z i hz hdef
    obtain ⟨y, hy, rfl⟩ := value_withPhi.1 hz
    dsimp only at hdef
    split at hdef
    · cases hdef
    · exact hc.definition_instruction hy hdef
  · intro v z s hz hdef
    obtain ⟨y, hy, rfl⟩ := value_withPhi.1 hz
    simp only [hasPhi_withPhi hb]
    dsimp only at hdef
    split at hdef
    · rename_i hv
      exact ⟨phi, .inr ⟨(Definition.phi.inj hdef).symm, rfl⟩, hv.symm⟩
    · obtain ⟨q, hq, hout⟩ := hc.definition_phi hy hdef
      exact ⟨q, .inl hq, hout⟩
  · intro r s p q hp hq hout
    rcases (hasPhi_withPhi hb).1 hp with hp' | ⟨hr, hp'⟩ <;>
      rcases (hasPhi_withPhi hb).1 hq with hq' | ⟨hs, hq'⟩
    · exact hc.phi_block hp' hq' hout
    · exact absurd (hout.trans (congrArg _ hq')) (hfresh r p hp')
    · exact absurd (hout.symm.trans (congrArg _ hp')) (hfresh s q hq')
    · rw [hr, hs]
  · intro s z hz
    exact phi_nodup_withPhi hc.phi_nodup hfresh hz

theorem cut (hx : c.block b = .ok x) : (c.cut b index x).Recorded := by
  refine ⟨hc.toGrounded.cut hx, ?_, ?_, ?_, ?_, ?_, ?_⟩
  · intro v y hy i
    simp only [Reads, operation_cut]
    exact hc.users hy i
  · intro v y hy p
    simp only [hasPhi_cut]
    exact hc.phiUsers hy p
  · intro v y i hy hdef
    simp only [Outputs, operation_cut]
    exact hc.definition_instruction hy hdef
  · intro v y s hy hdef
    simp only [hasPhi_cut]
    exact hc.definition_phi hy hdef
  · intro r s p q hp hq
    exact hc.phi_block (hasPhi_cut.1 hp) (hasPhi_cut.1 hq)
  · intro s z hz
    rcases block_cut.1 hz with ⟨y, hy, rfl⟩ | ⟨-, rfl⟩
    · have hnodup := hc.phi_nodup hy
      split <;> exact hnodup
    · exact List.nodup_nil

theorem movesEdges {g : BlockId → Block → Block} (hg : MovesEdges g) :
    (c.updateBlocks g).Recorded := by
  refine ⟨hc.toGrounded.movesEdges hg, hc.users, ?_, hc.definition_instruction, ?_, ?_, ?_⟩
  · intro v y hy p
    rw [hc.phiUsers hy]
    constructor
    · rintro ⟨s, phi, hphi, hout, hv⟩
      obtain ⟨q, hq, hqout, hmem⟩ := hphi.movesEdges hg
      exact ⟨s, q, hq, hqout.trans hout, (hmem v).2 hv⟩
    · rintro ⟨s, q, hq, hout, hv⟩
      obtain ⟨phi, hphi, hqout, hmem⟩ := hasPhi_movesEdges hg hq
      exact ⟨s, phi, hphi, hqout.trans hout, (hmem v).2 hv⟩
  · intro v y s hy hdef
    obtain ⟨phi, hphi, hout⟩ := hc.definition_phi hy hdef
    obtain ⟨q, hq, hqout, -⟩ := hphi.movesEdges hg
    exact ⟨q, hq, hqout.trans hout⟩
  · intro r s p q hp hq hout
    obtain ⟨p', hp', hpout, -⟩ := hasPhi_movesEdges hg hp
    obtain ⟨q', hq', hqout, -⟩ := hasPhi_movesEdges hg hq
    exact hc.phi_block hp' hq' (hpout.trans (hout.trans hqout.symm))
  · intro s z hz
    obtain ⟨y, hy, rfl⟩ := block_updateBlocks.1 hz
    obtain ⟨-, -, extra, -, hphis⟩ := hg s y
    rw [hphis, List.map_map]
    exact hc.phi_nodup hy

theorem split {tail : BlockId} (hd : c.split b index = .ok (tail, d)) : d.Recorded := by
  obtain ⟨x, g, version, hx, hindex, rfl, hg, rfl⟩ := split_cases hc.toArranged hd
  have hhead : ((c.cut b index x).updateBlocks g).block b =
      .ok (g b { x with instructions := x.instructions.take index }) :=
    block_updateBlocks.2 ⟨_, block_cut.2 (.inl ⟨x, hx, if_pos rfl⟩), rfl⟩
  apply Recorded.withVersion
  apply ((hc.cut hx).movesEdges hg).inserted hhead
  · rw [(hg b _).1]
    exact Nat.le_of_eq (List.length_take_of_le hindex).symm
  · simp [Operation.mentions, Operation.out?, Operation.operands]

theorem redirectOperand {changed : Bool} (hd : c.redirectOperand i old new = .ok (changed, d)) :
    d.Recorded := by
  obtain ⟨op, hop, hd⟩ := redirectOperand_eq_ok.1 hd
  split at hd
  · rename_i hold
    obtain ⟨-, -, hnew, rfl⟩ := hd
    exact hc.redirected hop hold hnew
  · rw [hd.2]
    exact hc

theorem redirectPhi {t : DominatorTree} {phi : ValueId} {changed : Bool}
    (hd : c.redirectPhi t old new phi = .ok (changed, d)) : d.Recorded := by
  have hgrounded := hc.toGrounded.redirectPhi hd
  rcases redirectPhi_eq_ok hd with ⟨-, rfl⟩ | ⟨b, x, p, edges, -, hx, hfound, -, -, hmem, -, rfl⟩
  · exact hc
  have hp : c.HasPhi b p := ⟨x, hx, List.mem_of_find?_eq_some hfound⟩
  have hout : p.out = phi := by simpa using List.find?_some hfound
  have hunique : ∀ {s q}, c.HasPhi s q → q.out = phi → s = b ∧ q = p :=
    fun hq hqout => hc.eq_of_out hq hp (hqout.trans hout.symm)
  refine ⟨hgrounded, ?_, ?_, ?_, ?_, ?_, ?_⟩
  · intro v z hz i
    obtain ⟨y, hy, rfl⟩ := value_phiRedirected.1 hz
    exact hc.users hy i
  · intro v z hz q
    obtain ⟨y, hy, rfl⟩ := value_phiRedirected.1 hz
    exact mem_phiUsers_phiRedirected hc.phi_nodup hp hout hunique hmem
      (fun _ => mem_redirectInputs) (fun _ => mem_redirectInputs_of_ne) (hc.phiUsers hy) q
  · intro v z i hz hdef
    obtain ⟨y, hy, rfl⟩ := value_phiRedirected.1 hz
    exact hc.definition_instruction hy hdef
  · intro v z s hz hdef
    obtain ⟨y, hy, rfl⟩ := value_phiRedirected.1 hz
    obtain ⟨q, hq, rfl⟩ := hc.definition_phi hy hdef
    by_cases hqout : q.out = phi
    · obtain ⟨rfl, rfl⟩ := hunique hq hqout
      exact ⟨⟨q.out, redirectInputs old new q.operands edges⟩, (hasPhi_phiRedirected hc.phi_nodup).2
        (.inl ⟨rfl, hqout, rfl, q, hq, hqout⟩), rfl⟩
    · exact ⟨q, (hasPhi_phiRedirected hc.phi_nodup).2 (.inr ⟨fun h => hqout h.2, hq⟩), rfl⟩
  · -- each phi stands where one with the same output stood
    have hback : ∀ {s q}, (c.phiRedirected b old new phi
        (redirectInputs old new p.operands edges)).HasPhi s q → ∃ q', c.HasPhi s q' ∧ q'.out = q.out := by
      intro s q hq
      rcases (hasPhi_phiRedirected hc.phi_nodup).1 hq with ⟨rfl, hqout, -, r, hr, hrout⟩ | ⟨-, hq⟩
      · exact ⟨r, hr, hrout.trans hqout.symm⟩
      · exact ⟨q, hq, rfl⟩
    intro r s q q' hq hq' heq
    obtain ⟨q₁, hq₁, hout₁⟩ := hback hq
    obtain ⟨q₂, hq₂, hout₂⟩ := hback hq'
    exact hc.phi_block hq₁ hq₂ (hout₁.trans (heq.trans hout₂.symm))
  · intro s z hz
    obtain ⟨y, hy, rfl⟩ := block_phiRedirected.1 hz
    split
    · rw [Block.map_out_modifyPhi]
      exact hc.phi_nodup hy
    · exact hc.phi_nodup hy

theorem redirectUses {t : DominatorTree} {definer : InstrId} {excluded : List InstrId}
    {r : Redirected} (hd : c.redirectUses t old new definer excluded = .ok (r, d)) :
    d.Recorded :=
  redirectUses_invariant Recorded hd hc (fun _ _ _ _ _ he => he.redirectOperand)
    fun _ _ _ _ he => he.redirectPhi

end Recorded

end Body

end Devirt
