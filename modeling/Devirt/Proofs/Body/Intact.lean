import Devirt.Proofs.Body.Edit

/-!
The records a body keeps about itself. Every instruction stands once, in the block it names; the
users of a value are the instructions that read it; and the definition of a value is the
instruction or the phi that outputs it. All edits keep these records in order.
-/

namespace Devirt

namespace Body

/-- The instruction has the value among its operands. -/
def Reads (c : Body) (i : InstrId) (v : ValueId) : Prop :=
  ∃ op, c.operation i = .ok op ∧ v ∈ op.operands

def Outputs (c : Body) (i : InstrId) (v : ValueId) : Prop :=
  ∃ op, c.operation i = .ok op ∧ op.out? = some v

def HasPhi (c : Body) (b : BlockId) (phi : Phi) : Prop :=
  ∃ x, c.block b = .ok x ∧ phi ∈ x.phis

/-- The layout holds every block once, and every instruction stands once, in the block it names. -/
structure Arranged (c : Body) : Prop where
  entry : c.HasBlock c.entry
  order_nodup : c.order.Nodup
  mem_order : ∀ b, b ∈ c.order ↔ c.HasBlock b
  placed : ∀ {b x}, c.block b = .ok x → ∀ i ∈ x.instructions, c.blockOf i = .ok b
  recorded : ∀ {i b}, c.blockOf i = .ok b → ∃ x, c.block b = .ok x ∧ i ∈ x.instructions
  nodup : ∀ {b x}, c.block b = .ok x → x.instructions.Nodup

/-- The values know the instructions that read and define them. -/
structure TracksInstructions (c : Body) : Prop where
  users : ∀ {v x}, c.value v = .ok x → ∀ i, i ∈ x.users ↔ c.Reads i v
  hasValue : ∀ {i op}, c.operation i = .ok op → ∀ v ∈ op.mentions, c.HasValue v
  definition_instruction : ∀ {v x}, c.value v = .ok x → ∀ i,
    x.definition = .instruction i ↔ c.Outputs i v

/-- The values know the phis that read and define them. -/
structure TracksPhis (c : Body) : Prop where
  phiUsers : ∀ {v x}, c.value v = .ok x → ∀ p,
    p ∈ x.phiUsers ↔ ∃ b phi, c.HasPhi b phi ∧ phi.out = p ∧ v ∈ phi.operands
  phi_hasValue : ∀ {b phi}, c.HasPhi b phi → ∀ v ∈ phi.out :: phi.operands, c.HasValue v
  definition_phi : ∀ {v x}, c.value v = .ok x → ∀ b,
    x.definition = .phi b ↔ ∃ phi, c.HasPhi b phi ∧ phi.out = v
  phi_nodup : ∀ {b x}, c.block b = .ok x → (x.phis.map (·.out)).Nodup

/-- The records of the body agree with its contents. -/
structure Intact (c : Body) : Prop extends c.Arranged, c.TracksInstructions, c.TracksPhis

variable {c d : Body} {b s : BlockId} {i j : InstrId} {v w : ValueId} {op : Operation}

namespace Arranged

theorem exists_instruction (hc : c.Arranged) {x : Block} (hx : c.block b = .ok x)
    (hi : i ∈ x.instructions) : ∃ y, c.instruction i = .ok y ∧ y.block = b :=
  blockOf_eq_ok.1 (hc.placed hx i hi)

theorem exists_operation (hc : c.Arranged) {x : Block} (hx : c.block b = .ok x)
    (hi : i ∈ x.instructions) : ∃ op, c.operation i = .ok op := by
  obtain ⟨y, hy, -⟩ := hc.exists_instruction hx hi
  exact ⟨y.op, operation_of_instruction hy⟩

/-- An instruction stands in one block only. -/
theorem block_unique (hc : c.Arranged) {x y : Block} (hx : c.block b = .ok x)
    (hy : c.block s = .ok y) (hi : i ∈ x.instructions) (hj : i ∈ y.instructions) : b = s :=
  Except.ok.inj ((hc.placed hx i hi).symm.trans (hc.placed hy i hj))

/-- Placement depends on the layout, the instruction lists and the blocks recorded alone. -/
theorem of_lookups (hc : c.Arranged) (horder : d.order = c.order)
    (hhas : ∀ {b}, c.HasBlock b → d.HasBlock b)
    (hblock : ∀ {b y}, d.block b = .ok y →
      ∃ x, c.block b = .ok x ∧ x.instructions = y.instructions)
    (hof : ∀ i b, d.blockOf i = .ok b ↔ c.blockOf i = .ok b) : d.Arranged := by
  refine ⟨hhas hc.entry, horder ▸ hc.order_nodup, fun b => ?_, ?_, ?_, ?_⟩
  · rw [horder, hc.mem_order]
    refine ⟨hhas, fun hb => ?_⟩
    obtain ⟨y, hy⟩ := exists_block_iff.2 hb
    obtain ⟨x, hx, -⟩ := hblock hy
    exact hasBlock_of_block hx
  · intro b y hy i hi
    obtain ⟨x, hx, hins⟩ := hblock hy
    exact (hof i b).2 (hc.placed hx i (hins ▸ hi))
  · intro i b hi
    obtain ⟨x, hx, hmem⟩ := hc.recorded ((hof i b).1 hi)
    obtain ⟨y, hy⟩ := exists_block_iff.2 (hhas (hasBlock_of_block hx))
    obtain ⟨x', hx', hins⟩ := hblock hy
    obtain rfl : x = x' := Except.ok.inj (hx.symm.trans hx')
    exact ⟨y, hy, hins ▸ hmem⟩
  · intro b y hy
    obtain ⟨x, hx, hins⟩ := hblock hy
    exact hins ▸ hc.nodup hx

theorem congr (hc : c.Arranged) (horder : d.order = c.order)
    (hblock : ∀ b, (·.instructions) <$> d.block b = (·.instructions) <$> c.block b)
    (hof : ∀ i, d.blockOf i = c.blockOf i) : d.Arranged := by
  refine hc.of_lookups horder (fun {b} hb => ?_) (fun {b y} hy => ?_) fun i b => by rw [hof]
  · obtain ⟨x, hx⟩ := exists_block_iff.2 hb
    have hmap := hblock b
    rw [hx] at hmap
    obtain ⟨y, hy, -⟩ := map_eq_ok.1 hmap
    exact hasBlock_of_block hy
  · have hmap := hblock b
    rw [hy] at hmap
    exact map_eq_ok.1 hmap.symm

end Arranged

namespace TracksInstructions

theorem exists_value (hc : c.TracksInstructions) (hop : c.operation i = .ok op)
    (hv : v ∈ op.operands) : ∃ x, c.value v = .ok x :=
  exists_value_iff.2 (hc.hasValue hop v (List.mem_append_right _ hv))

/-- Only one instruction outputs a value. -/
theorem eq_of_outputs (hc : c.TracksInstructions) (hi : c.Outputs i v) (hj : c.Outputs j v) :
    i = j := by
  obtain ⟨op, hop, hout⟩ := hi
  obtain ⟨x, hx⟩ := exists_value_iff.2 (hc.hasValue hop v (by simp [Operation.mentions, hout]))
  have h1 := (hc.definition_instruction hx i).2 ⟨op, hop, hout⟩
  have h2 := (hc.definition_instruction hx j).2 hj
  simpa using h1.symm.trans h2

/-- Only outputs and operands matter, and of the values only what concerns instructions. -/
theorem congr (hc : c.TracksInstructions)
    (hop : ∀ i, (fun op => (op.out?, op.operands)) <$> d.operation i =
      (fun op => (op.out?, op.operands)) <$> c.operation i)
    (hhas : ∀ v, c.HasValue v → d.HasValue v)
    (hvalue : ∀ {v y}, d.value v = .ok y → ∃ x, c.value v = .ok x ∧
      (∀ i, i ∈ y.users ↔ i ∈ x.users) ∧
      ∀ i, y.definition = .instruction i ↔ x.definition = .instruction i) :
    d.TracksInstructions := by
  have hforth : ∀ {i op'}, d.operation i = .ok op' →
      ∃ op, c.operation i = .ok op ∧ op.out? = op'.out? ∧ op.operands = op'.operands := by
    intro i op' hi
    have := hop i
    rw [hi] at this
    simpa using map_eq_ok.1 this.symm
  have hback : ∀ {i op}, c.operation i = .ok op →
      ∃ op', d.operation i = .ok op' ∧ op'.out? = op.out? ∧ op'.operands = op.operands := by
    intro i op hi
    have := hop i
    rw [hi] at this
    simpa using map_eq_ok.1 this
  refine ⟨?_, ?_, ?_⟩
  · intro v y hy i
    obtain ⟨x, hx, husers, -⟩ := hvalue hy
    rw [husers, hc.users hx]
    constructor
    · rintro ⟨op, hi, hv⟩
      obtain ⟨op', hi', -, hoperands⟩ := hback hi
      exact ⟨op', hi', hoperands ▸ hv⟩
    · rintro ⟨op, hi, hv⟩
      obtain ⟨op', hi', -, hoperands⟩ := hforth hi
      exact ⟨op', hi', hoperands ▸ hv⟩
  · intro i op hi v hv
    obtain ⟨op', hi', hout, hoperands⟩ := hforth hi
    refine hhas v (hc.hasValue hi' v ?_)
    rwa [Operation.mentions, hout, hoperands]
  · intro v y hy i
    obtain ⟨x, hx, -, hdef⟩ := hvalue hy
    rw [hdef, hc.definition_instruction hx]
    constructor
    · rintro ⟨op, hi, hv⟩
      obtain ⟨op', hi', hout, -⟩ := hback hi
      exact ⟨op', hi', hout ▸ hv⟩
    · rintro ⟨op, hi, hv⟩
      obtain ⟨op', hi', hout, -⟩ := hforth hi
      exact ⟨op', hi', hout ▸ hv⟩

end TracksInstructions

namespace TracksPhis

/-- Values change only in what does not concern phis. -/
theorem congr (hc : c.TracksPhis)
    (hblock : ∀ b, (·.phis) <$> d.block b = (·.phis) <$> c.block b)
    (hhas : ∀ v, c.HasValue v → d.HasValue v)
    (hvalue : ∀ {v y}, d.value v = .ok y → ∃ x, c.value v = .ok x ∧
      (∀ p, p ∈ y.phiUsers ↔ p ∈ x.phiUsers) ∧
      ∀ b, y.definition = .phi b ↔ x.definition = .phi b) : d.TracksPhis := by
  have hforth : ∀ {b y}, d.block b = .ok y → ∃ x, c.block b = .ok x ∧ x.phis = y.phis := by
    intro b y hy
    have := hblock b
    rw [hy] at this
    exact map_eq_ok.1 this.symm
  have hphi : ∀ b phi, d.HasPhi b phi ↔ c.HasPhi b phi := by
    intro b phi
    constructor
    · rintro ⟨y, hy, hmem⟩
      obtain ⟨x, hx, hphis⟩ := hforth hy
      exact ⟨x, hx, hphis ▸ hmem⟩
    · rintro ⟨x, hx, hmem⟩
      have := hblock b
      rw [hx] at this
      obtain ⟨y, hy, hphis⟩ := map_eq_ok.1 this
      exact ⟨y, hy, hphis ▸ hmem⟩
  refine ⟨?_, ?_, ?_, ?_⟩
  · intro v y hy p
    obtain ⟨x, hx, husers, -⟩ := hvalue hy
    rw [husers, hc.phiUsers hx]
    simp only [hphi]
  · intro b phi h v hv
    exact hhas v (hc.phi_hasValue ((hphi b phi).1 h) v hv)
  · intro v y hy b
    obtain ⟨x, hx, -, hdef⟩ := hvalue hy
    rw [hdef, hc.definition_phi hx]
    simp only [hphi]
  · intro b y hy
    obtain ⟨x, hx, hphis⟩ := hforth hy
    exact hphis ▸ hc.phi_nodup hx

end TracksPhis

/-! ### Edits of values and instructions -/

/-- Types, names and knowledge about run-time classes are no records. -/
theorem Intact.updateValues (hc : c.Intact) {g : ValueId → Value → Value}
    (hg : ∀ v x, (g v x).users = x.users ∧ (g v x).phiUsers = x.phiUsers ∧
      (g v x).definition = x.definition) : (c.updateValues g).Intact := by
  have hvalue : ∀ {v y}, (c.updateValues g).value v = .ok y → ∃ x, c.value v = .ok x ∧
      y.users = x.users ∧ y.phiUsers = x.phiUsers ∧ y.definition = x.definition := by
    intro v y hy
    obtain ⟨x, hx, rfl⟩ := value_updateValues.1 hy
    exact ⟨x, hx, hg v x⟩
  refine ⟨hc.toArranged.congr rfl (fun _ => rfl) fun _ => rfl,
    hc.toTracksInstructions.congr (fun _ => rfl) (fun v => hasValue_updateValues.2) ?_,
    hc.toTracksPhis.congr (fun _ => rfl) (fun v => hasValue_updateValues.2) ?_⟩
  · intro v y hy
    obtain ⟨x, hx, hu, -, hd⟩ := hvalue hy
    exact ⟨x, hx, by simp [hu], by simp [hd]⟩
  · intro v y hy
    obtain ⟨x, hx, -, hp, hd⟩ := hvalue hy
    exact ⟨x, hx, by simp [hp], by simp [hd]⟩

theorem value_createValue {t : StaticType} {x : Value} :
    (c.createValue t).2.value v = .ok x ↔
      c.value v = .ok x ∨ (v = ⟨c.values.length⟩ ∧ x = { type := t }) := by
  obtain ⟨n⟩ := v
  simp only [value_eq_ok, createValue, List.getElem?_append, ValueId.mk.injEq]
  split
  · rename_i hn
    have : n ≠ c.values.length := by omega
    simp [this]
  · rename_i hn
    rw [List.getElem?_singleton, List.getElem?_eq_none (Nat.le_of_not_lt hn)]
    split
    · have : n = c.values.length := by omega
      simp [this, eq_comm]
    · have : n ≠ c.values.length := by omega
      simp [this]

theorem hasValue_createValue {t : StaticType} :
    (c.createValue t).2.HasValue v ↔ c.HasValue v ∨ v = ⟨c.values.length⟩ := by
  obtain ⟨n⟩ := v
  simp only [HasValue, createValue, List.length_append, List.length_singleton, ValueId.mk.injEq]
  omega

theorem not_hasValue_next : ¬ c.HasValue ⟨c.values.length⟩ := Nat.lt_irrefl _

/-- Nobody knows a value that has just been created. -/
theorem Intact.createValue (hc : c.Intact) (t : StaticType) : (c.createValue t).2.Intact := by
  have hreads : ∀ i, ¬ c.Reads i ⟨c.values.length⟩ := by
    rintro i ⟨op, hop, hv⟩
    exact not_hasValue_next (hc.hasValue hop _ (List.mem_append_right _ hv))
  have houtputs : ∀ i, ¬ c.Outputs i ⟨c.values.length⟩ := by
    rintro i ⟨op, hop, hv⟩
    exact not_hasValue_next (hc.hasValue hop _ (by simp [Operation.mentions, hv]))
  have hphis : ∀ b phi, c.HasPhi b phi → (⟨c.values.length⟩ : ValueId) ∉ phi.out :: phi.operands :=
    fun b phi h hmem => not_hasValue_next (hc.phi_hasValue h _ hmem)
  refine ⟨hc.toArranged.congr rfl (fun _ => rfl) fun _ => rfl, ⟨?_, ?_, ?_⟩, ⟨?_, ?_, ?_, ?_⟩⟩
  · intro v y hy i
    rcases value_createValue.1 hy with hy | ⟨rfl, rfl⟩
    · exact hc.users hy i
    · exact iff_of_false (by simp [← OrderedSet.mem_toList]) (hreads i)
  · intro i op hi v hv
    exact hasValue_createValue.2 (.inl (hc.hasValue hi v hv))
  · intro v y hy i
    rcases value_createValue.1 hy with hy | ⟨rfl, rfl⟩
    · exact hc.definition_instruction hy i
    · exact iff_of_false (by simp) (houtputs i)
  · intro v y hy p
    rcases value_createValue.1 hy with hy | ⟨rfl, rfl⟩
    · exact hc.phiUsers hy p
    · refine iff_of_false (by simp [← OrderedSet.mem_toList]) ?_
      rintro ⟨b, phi, h, -, hv⟩
      exact hphis b phi h (List.mem_cons_of_mem _ hv)
  · intro b phi h v hv
    exact hasValue_createValue.2 (.inl (hc.phi_hasValue h v hv))
  · intro v y hy b
    rcases value_createValue.1 hy with hy | ⟨rfl, rfl⟩
    · exact hc.definition_phi hy b
    · refine iff_of_false (by simp) ?_
      rintro ⟨phi, h, hout⟩
      exact hphis b phi h (by simp [hout])
  · exact fun hy => hc.phi_nodup hy

/-! ### Contents after an insertion -/

section Inserted

variable {index : Nat} {y : Value}

theorem mem_users_attached :
    j ∈ (attached i op v y).users ↔ j ∈ y.users ∨ (j = i ∧ v ∈ op.operands) := by
  show j ∈ (if v ∈ op.operands then y.users.insert i else y.users) ↔ _
  split <;> simp [*]

theorem reads_inserted :
    (c.inserted b index op).Reads j v ↔
      c.Reads j v ∨ (j = ⟨c.instructions.length⟩ ∧ v ∈ op.operands) := by
  simp only [Reads, operation_inserted]
  constructor
  · rintro ⟨op', hop | ⟨hj, rfl⟩, hv⟩
    · exact .inl ⟨op', hop, hv⟩
    · exact .inr ⟨hj, hv⟩
  · rintro (⟨op', hop, hv⟩ | ⟨hj, hv⟩)
    · exact ⟨op', .inl hop, hv⟩
    · exact ⟨op, .inr ⟨hj, rfl⟩, hv⟩

theorem hasPhi_inserted {phi : Phi} :
    (c.inserted b index op).HasPhi s phi ↔ c.HasPhi s phi := by
  constructor
  · rintro ⟨z, hz, hmem⟩
    obtain ⟨y, hy, rfl⟩ := block_inserted.1 hz
    refine ⟨y, hy, ?_⟩
    split at hmem <;> exact hmem
  · rintro ⟨y, hy, hmem⟩
    refine ⟨_, block_inserted.2 ⟨y, hy, rfl⟩, ?_⟩
    split <;> exact hmem

theorem outputs_inserted :
    (c.inserted b index op).Outputs i v ↔
      c.Outputs i v ∨ (i = ⟨c.instructions.length⟩ ∧ op.out? = some v) := by
  simp only [Outputs, operation_inserted]
  constructor
  · rintro ⟨op', hop' | ⟨hi, rfl⟩, hout⟩
    · exact .inl ⟨op', hop', hout⟩
    · exact .inr ⟨hi, hout⟩
  · rintro (⟨op', hop', hout⟩ | ⟨hi, hout⟩)
    · exact ⟨op', .inl hop', hout⟩
    · exact ⟨op, .inr ⟨hi, rfl⟩, hout⟩

end Inserted

theorem Arranged.inserted (hc : c.Arranged) {x : Block} {index : Nat} (hx : c.block b = .ok x)
    (hindex : index ≤ x.instructions.length) : (c.inserted b index op).Arranged := by
  have hnew : ∀ {s y}, c.block s = .ok y → (⟨c.instructions.length⟩ : InstrId) ∉ y.instructions :=
    fun hy hmem => blockOf_next_ne_ok (hc.placed hy _ hmem)
  refine ⟨hasBlock_inserted.2 hc.entry, hc.order_nodup, fun s => ?_, ?_, ?_, ?_⟩
  · rw [hasBlock_inserted]
    exact hc.mem_order s
  · intro s y hy i hi
    obtain ⟨z, hz, rfl⟩ := block_inserted.1 hy
    rw [blockOf_inserted]
    split at hi
    · rename_i hs
      subst hs
      obtain rfl : z = x := Except.ok.inj (hz.symm.trans hx)
      rcases (List.mem_insertIdx hindex).1 hi with rfl | hi
      · exact .inr ⟨rfl, rfl⟩
      · exact .inl (hc.placed hz i hi)
    · exact .inl (hc.placed hz i hi)
  · intro i s hi
    rcases blockOf_inserted.1 hi with hi | ⟨rfl, rfl⟩
    · obtain ⟨y, hy, hmem⟩ := hc.recorded hi
      refine ⟨_, block_inserted.2 ⟨y, hy, rfl⟩, ?_⟩
      split
      · rename_i hs
        subst hs
        obtain rfl : y = x := Except.ok.inj (hy.symm.trans hx)
        exact (List.mem_insertIdx hindex).2 (.inr hmem)
      · exact hmem
    · exact ⟨_, block_inserted.2 ⟨x, hx, rfl⟩, by simp [List.mem_insertIdx hindex]⟩
  · intro s y hy
    obtain ⟨z, hz, rfl⟩ := block_inserted.1 hy
    split
    · rename_i hs
      subst hs
      obtain rfl : z = x := Except.ok.inj (hz.symm.trans hx)
      have hperm := List.perm_insertIdx (⟨c.instructions.length⟩ : InstrId) z.instructions hindex
      exact hperm.nodup_iff.2 (List.nodup_cons.2 ⟨hnew hz, hc.nodup hz⟩)
    · exact hc.nodup hz

/-- A new instruction may define a value that nothing defines yet. -/
theorem Intact.inserted (hc : c.Intact) {x : Block} {index : Nat} (hx : c.block b = .ok x)
    (hindex : index ≤ x.instructions.length) (hmentions : ∀ v ∈ op.mentions, c.HasValue v)
    (hfresh : ∀ v y, op.out? = some v → c.value v = .ok y → y.definition = .undefined) :
    (c.inserted b index op).Intact := by
  refine ⟨hc.toArranged.inserted hx hindex, ⟨?_, ?_, ?_⟩, ?_⟩
  · intro v y hy i
    obtain ⟨z, hz, rfl⟩ := value_inserted.1 hy
    rw [mem_users_attached, reads_inserted, hc.users hz]
  · intro i op' hi v hv
    rw [hasValue_inserted]
    rcases operation_inserted.1 hi with hi | ⟨-, rfl⟩
    · exact hc.hasValue hi v hv
    · exact hmentions v hv
  · intro v y hy i
    obtain ⟨z, hz, rfl⟩ := value_inserted.1 hy
    have hdef := hc.definition_instruction hz i
    rw [outputs_inserted, attached]
    by_cases hout : op.out? = some v
    · have hundef := hfresh v z hout hz
      rw [if_pos hout, Definition.instruction.injEq]
      constructor
      · rintro rfl
        exact .inr ⟨rfl, hout⟩
      · rintro (hold | ⟨rfl, -⟩)
        · exact absurd (hdef.2 hold) (by simp [hundef])
        · rfl
    · rw [if_neg hout, hdef]
      simp [hout]
  · refine hc.toTracksPhis.congr ?_ (fun v => hasValue_inserted.2) ?_
    · intro s
      rw [Body.inserted, block_updateValues]
      exact map_block_updateBlocks (fun s y => by split <;> rfl) s
    · intro v y hy
      obtain ⟨z, hz, rfl⟩ := value_inserted.1 hy
      refine ⟨z, hz, fun _ => Iff.rfl, fun b => ?_⟩
      by_cases hout : op.out? = some v
      · simp [attached, hout, hfresh v z hout hz]
      · simp [attached, hout]

/-- An operation may be replaced by one with the same output and the same operands. -/
theorem Intact.replaced (hc : c.Intact) {old new : Operation} (hold : c.operation i = .ok old)
    (hout : new.out? = old.out?) (hoperands : new.operands = old.operands) :
    (c.replaced i old new).Intact := by
  have hvalue : ∀ {v y}, (c.replaced i old new).value v = .ok y → ∃ x, c.value v = .ok x ∧
      (∀ j, j ∈ y.users ↔ j ∈ x.users) ∧ y.definition = x.definition ∧
      y.phiUsers = x.phiUsers := by
    intro v y hy
    obtain ⟨x, hx, rfl⟩ := value_replaced.1 hy
    refine ⟨x, hx, fun j => ?_, ?_, rfl⟩
    · simp only [attached, detached, hoperands]
      split
      · rename_i hv
        have := (hc.users hx i).2 ⟨old, hold, hv⟩
        simp only [OrderedSet.mem_insert, OrderedSet.mem_erase]
        by_cases hj : j = i
        · simp [hj, this]
        · simp [hj]
      · rfl
    · simp only [attached, detached, hout]
      split
      · rename_i hv
        exact ((hc.definition_instruction hx i).2 ⟨old, hold, hv⟩).symm
      · rename_i hv
        rw [if_neg fun h => hv h.1]
  refine ⟨hc.toArranged.congr rfl (fun _ => rfl) fun _ => blockOf_replaced,
    hc.toTracksInstructions.congr ?_ (fun v => hasValue_replaced.2) ?_,
    hc.toTracksPhis.congr (fun _ => rfl) (fun v => hasValue_replaced.2) ?_⟩
  · intro j
    rw [Body.replaced, operation_updateValues]
    refine map_operation_updateOperation (fun op hop => ?_) j
    obtain rfl : op = old := Except.ok.inj (hop.symm.trans hold)
    rw [hout, hoperands]
  · intro v y hy
    obtain ⟨x, hx, husers, hdef, -⟩ := hvalue hy
    exact ⟨x, hx, husers, by simp [hdef]⟩
  · intro v y hy
    obtain ⟨x, hx, -, hdef, hphi⟩ := hvalue hy
    exact ⟨x, hx, by simp [hphi], by simp [hdef]⟩

/-- Who reads what after an operand has been redirected. -/
theorem reads_redirected {old new : ValueId} (hop : c.operation i = .ok op)
    (hold : old ∈ op.operands) :
    (c.redirected i old new).Reads j v ↔
      if j = i then v = new ∨ (v ≠ old ∧ c.Reads i v) else c.Reads j v := by
  simp only [Reads, operation_redirected]
  split
  · rename_i hji
    subst hji
    constructor
    · rintro ⟨_, ⟨op', hop', rfl⟩, hv⟩
      rcases Operation.mem_operands_replaceOperand.1 hv with ⟨rfl, -⟩ | ⟨hne, hv⟩
      · exact .inl rfl
      · exact .inr ⟨hne, op', hop', hv⟩
    · rintro (rfl | ⟨hne, op', hop', hv⟩)
      · exact ⟨_, ⟨op, hop, rfl⟩, Operation.mem_operands_replaceOperand.2 (.inl ⟨rfl, hold⟩)⟩
      · exact ⟨_, ⟨op', hop', rfl⟩, Operation.mem_operands_replaceOperand.2 (.inr ⟨hne, hv⟩)⟩
  · constructor
    · rintro ⟨_, ⟨op', hop', rfl⟩, hv⟩
      exact ⟨op', hop', hv⟩
    · rintro ⟨op', hop', hv⟩
      exact ⟨_, ⟨op', hop', rfl⟩, hv⟩

/-- One instruction may read another existing value instead of one of its operands. -/
theorem Intact.redirected (hc : c.Intact) {old new : ValueId} (hop : c.operation i = .ok op)
    (hold : old ∈ op.operands) (hnew : c.HasValue new) : (c.redirected i old new).Intact := by
  refine ⟨hc.toArranged.congr rfl (fun _ => rfl) fun _ => blockOf_redirected, ⟨?_, ?_, ?_⟩,
    hc.toTracksPhis.congr (fun _ => rfl) (fun v => hasValue_redirected.2) ?_⟩
  · intro v y hy j
    obtain ⟨x, hx, rfl⟩ := value_redirected.1 hy
    rw [reads_redirected hop hold]
    by_cases hji : j = i
    · subst hji
      have husers := hc.users hx j
      by_cases hvn : v = new <;> by_cases hvo : v = old <;> simp_all
    · have husers := hc.users hx j
      by_cases hvn : v = new <;> by_cases hvo : v = old <;> simp_all
  · intro j op' hj v hv
    rw [hasValue_redirected]
    obtain ⟨op'', hop'', rfl⟩ := operation_redirected.1 hj
    have hmentions := hc.hasValue hop''
    split at hv
    · rcases List.mem_append.1 hv with hv | hv
      · exact hmentions v (List.mem_append_left _ (by simpa [Operation.replaceOperand] using hv))
      · rcases Operation.mem_operands_replaceOperand.1 hv with ⟨rfl, -⟩ | ⟨-, hv⟩
        · exact hnew
        · exact hmentions v (List.mem_append_right _ hv)
    · exact hmentions v hv
  · intro v y hy j
    obtain ⟨x, hx, rfl⟩ := value_redirected.1 hy
    rw [show ∀ u, ({ x with users := u } : Value).definition = x.definition from fun _ => rfl,
      hc.definition_instruction hx]
    simp only [Outputs, operation_redirected]
    constructor
    · rintro ⟨op', hop', hv⟩
      refine ⟨_, ⟨op', hop', rfl⟩, ?_⟩
      split
      · simpa [Operation.replaceOperand] using hv
      · exact hv
    · rintro ⟨_, ⟨op', hop', rfl⟩, hv⟩
      refine ⟨op', hop', ?_⟩
      split at hv
      · simpa [Operation.replaceOperand] using hv
      · exact hv
  · intro v y hy
    obtain ⟨x, hx, rfl⟩ := value_redirected.1 hy
    exact ⟨x, hx, fun _ => Iff.rfl, fun _ => Iff.rfl⟩

end Body

end Devirt
