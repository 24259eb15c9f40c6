import Devirt.Body.Edit
import Devirt.Proofs.Outcome

/-!
The stores of a body as functions of their numbers. Every edit is written as a change that is
applied to all blocks, instructions or values alike, so that lookups after an edit are computed
from lookups before it.
-/

namespace Devirt

namespace Body

variable {c d : Body} {b s : BlockId} {i j : InstrId} {v w : ValueId}

def HasBlock (c : Body) (b : BlockId) : Prop := b.index < c.blocks.length

def HasInstruction (c : Body) (i : InstrId) : Prop := i.index < c.instructions.length

def HasValue (c : Body) (v : ValueId) : Prop := v.index < c.values.length

instance : Decidable (c.HasBlock b) := inferInstanceAs (Decidable (_ < _))

instance : Decidable (c.HasInstruction i) := inferInstanceAs (Decidable (_ < _))

instance : Decidable (c.HasValue v) := inferInstanceAs (Decidable (_ < _))

theorem block_eq_ok {x : Block} : c.block b = .ok x ↔ c.blocks[b.index]? = some x := by
  unfold block
  cases c.blocks[b.index]? <;> simp

theorem instruction_eq_ok {x : Instruction} :
    c.instruction i = .ok x ↔ c.instructions[i.index]? = some x := by
  unfold instruction
  cases c.instructions[i.index]? <;> simp

theorem value_eq_ok {x : Value} : c.value v = .ok x ↔ c.values[v.index]? = some x := by
  unfold value
  cases c.values[v.index]? <;> simp

theorem operation_eq_ok {op : Operation} :
    c.operation i = .ok op ↔ ∃ x, c.instruction i = .ok x ∧ x.op = op := by
  simp [operation]

theorem blockOf_eq_ok : c.blockOf i = .ok b ↔ ∃ x, c.instruction i = .ok x ∧ x.block = b := by
  simp [blockOf]

theorem exists_block_iff : (∃ x, c.block b = .ok x) ↔ c.HasBlock b := by
  simp [block_eq_ok, HasBlock, List.getElem?_eq_some_iff]

theorem exists_instruction_iff : (∃ x, c.instruction i = .ok x) ↔ c.HasInstruction i := by
  simp [instruction_eq_ok, HasInstruction, List.getElem?_eq_some_iff]

theorem exists_value_iff : (∃ x, c.value v = .ok x) ↔ c.HasValue v := by
  simp [value_eq_ok, HasValue, List.getElem?_eq_some_iff]

theorem hasBlock_of_block {x : Block} (h : c.block b = .ok x) : c.HasBlock b :=
  exists_block_iff.1 ⟨x, h⟩

theorem hasValue_of_value {x : Value} (h : c.value v = .ok x) : c.HasValue v :=
  exists_value_iff.1 ⟨x, h⟩

theorem hasInstruction_of_operation {op : Operation} (h : c.operation i = .ok op) :
    c.HasInstruction i := by
  obtain ⟨x, hx, -⟩ := operation_eq_ok.1 h
  exact exists_instruction_iff.1 ⟨x, hx⟩

theorem operation_of_instruction {x : Instruction} (h : c.instruction i = .ok x) :
    c.operation i = .ok x.op := operation_eq_ok.2 ⟨x, h, rfl⟩

theorem HasInstruction.exists_operation (hi : c.HasInstruction i) :
    ∃ op, c.operation i = .ok op := by
  obtain ⟨y, hy⟩ := exists_instruction_iff.2 hi
  exact ⟨y.op, operation_of_instruction hy⟩

theorem ne_of_call_of_cast {call : Call} {name : TypeName}
    (hcall : c.operation i = .ok (.call call)) (hcast : c.operation j = .ok (.cast v w name)) :
    i ≠ j := by
  rintro rfl
  exact Operation.noConfusion (Except.ok.inj (hcall.symm.trans hcast))

theorem blockOf_of_instruction {x : Instruction} (h : c.instruction i = .ok x) :
    c.blockOf i = .ok x.block := blockOf_eq_ok.2 ⟨x, h, rfl⟩

/-- Changes every block by a function of its number. -/
def updateBlocks (c : Body) (g : BlockId → Block → Block) : Body :=
  { c with blocks := c.blocks.mapIdx fun n => g ⟨n⟩ }

/-- Changes every instruction by a function of its number. -/
def updateInstructions (c : Body) (g : InstrId → Instruction → Instruction) : Body :=
  { c with instructions := c.instructions.mapIdx fun n => g ⟨n⟩ }

/-- Changes every value by a function of its number. -/
def updateValues (c : Body) (g : ValueId → Value → Value) : Body :=
  { c with values := c.values.mapIdx fun n => g ⟨n⟩ }

section Update

variable {g f : BlockId → Block → Block} {gi : InstrId → Instruction → Instruction}
  {gv fv : ValueId → Value → Value}

@[simp] theorem block_updateBlocks {y : Block} :
    (c.updateBlocks g).block b = .ok y ↔ ∃ x, c.block b = .ok x ∧ g b x = y := by
  simp [block_eq_ok, updateBlocks, List.getElem?_mapIdx]

@[simp] theorem instruction_updateInstructions {y : Instruction} :
    (c.updateInstructions gi).instruction i = .ok y ↔
      ∃ x, c.instruction i = .ok x ∧ gi i x = y := by
  simp [instruction_eq_ok, updateInstructions, List.getElem?_mapIdx]

@[simp] theorem value_updateValues {y : Value} :
    (c.updateValues gv).value v = .ok y ↔ ∃ x, c.value v = .ok x ∧ gv v x = y := by
  simp [value_eq_ok, updateValues, List.getElem?_mapIdx]

/-- What a change to the blocks leaves alone is found as before. -/
theorem map_block_updateBlocks {α : Type} {f : Block → α} (h : ∀ b x, f (g b x) = f x)
    (b : BlockId) : f <$> (c.updateBlocks g).block b = f <$> c.block b := by
  cases hb : c.block b with
  | ok x =>
    have : (c.updateBlocks g).block b = .ok (g b x) := block_updateBlocks.2 ⟨x, hb, rfl⟩
    rw [this]
    exact congrArg Except.ok (h b x)
  | error e =>
    have : (c.updateBlocks g).block b = .error e := by
      simp only [block] at hb ⊢
      simp only [updateBlocks, List.getElem?_mapIdx]
      cases hx : c.blocks[b.index]? <;> simp_all
    rw [this]

/-- Operations are found as before if they are left alone. -/
theorem operation_updateInstructions (g : InstrId → Instruction → Instruction)
    (h : ∀ i x, (g i x).op = x.op) : (c.updateInstructions g).operation i = c.operation i := by
  simp only [operation, instruction, updateInstructions, List.getElem?_mapIdx]
  cases c.instructions[i.index]? with
  | none => rfl
  | some x => exact congrArg Except.ok (h _ x)

@[simp] theorem instruction_updateBlocks :
    (c.updateBlocks g).instruction i = c.instruction i := rfl

@[simp] theorem value_updateBlocks : (c.updateBlocks g).value v = c.value v := rfl

@[simp] theorem order_updateBlocks : (c.updateBlocks g).order = c.order := rfl

@[simp] theorem block_updateInstructions : (c.updateInstructions gi).block b = c.block b := rfl

@[simp] theorem value_updateInstructions : (c.updateInstructions gi).value v = c.value v := rfl

@[simp] theorem order_updateInstructions : (c.updateInstructions gi).order = c.order := rfl

@[simp] theorem block_updateValues : (c.updateValues gv).block b = c.block b := rfl

@[simp] theorem instruction_updateValues :
    (c.updateValues gv).instruction i = c.instruction i := rfl

@[simp] theorem operation_updateValues : (c.updateValues gv).operation i = c.operation i := rfl

@[simp] theorem blockOf_updateValues : (c.updateValues gv).blockOf i = c.blockOf i := rfl

@[simp] theorem order_updateValues : (c.updateValues gv).order = c.order := rfl

@[simp] theorem operation_updateBlocks : (c.updateBlocks g).operation i = c.operation i := rfl

@[simp] theorem blockOf_updateBlocks : (c.updateBlocks g).blockOf i = c.blockOf i := rfl

@[simp] theorem hasBlock_updateBlocks : (c.updateBlocks g).HasBlock b ↔ c.HasBlock b := by
  simp [HasBlock, updateBlocks]

@[simp] theorem hasValue_updateValues : (c.updateValues gv).HasValue v ↔ c.HasValue v := by
  simp [HasValue, updateValues]

@[simp] theorem hasInstruction_updateInstructions :
    (c.updateInstructions gi).HasInstruction i ↔ c.HasInstruction i := by
  simp [HasInstruction, updateInstructions]

@[simp] theorem hasBlock_updateValues : (c.updateValues gv).HasBlock b ↔ c.HasBlock b := Iff.rfl

@[simp] theorem hasInstruction_updateValues :
    (c.updateValues gv).HasInstruction i ↔ c.HasInstruction i := Iff.rfl

@[simp] theorem hasValue_updateBlocks : (c.updateBlocks g).HasValue v ↔ c.HasValue v := Iff.rfl

@[simp] theorem hasInstruction_updateBlocks :
    (c.updateBlocks g).HasInstruction i ↔ c.HasInstruction i := Iff.rfl

@[simp] theorem hasBlock_updateInstructions :
    (c.updateInstructions gi).HasBlock b ↔ c.HasBlock b := Iff.rfl

@[simp] theorem hasValue_updateInstructions :
    (c.updateInstructions gi).HasValue v ↔ c.HasValue v := Iff.rfl

theorem updateValues_updateValues :
    (c.updateValues fv).updateValues gv = c.updateValues fun v x => gv v (fv v x) := by
  simp [updateValues, List.mapIdx_mapIdx, Function.comp_def]

theorem updateInstructions_updateValues :
    (c.updateValues fv).updateInstructions gi = (c.updateInstructions gi).updateValues fv := rfl

theorem updateBlocks_updateBlocks :
    (c.updateBlocks f).updateBlocks g = c.updateBlocks fun b x => g b (f b x) := by
  simp [updateBlocks, List.mapIdx_mapIdx, Function.comp_def]

theorem updateValues_id : (c.updateValues fun _ x => x) = c := by
  have : c.values.mapIdx (fun _ x => x) = c.values := List.ext_getElem? (by simp)
  simp [updateValues, this]

end Update

private theorem modify_eq_mapIdx {α : Type} (l : List α) (n : Nat) (f : α → α) :
    l.modify n f = l.mapIdx fun k x => if k = n then f x else x := by
  apply List.ext_getElem?
  intro k
  rw [List.getElem?_modify, List.getElem?_mapIdx]
  by_cases hk : n = k
  · simp [hk]
  · have : ¬ k = n := fun h => hk h.symm
    simp [hk, this]

theorem modifyBlock_eq_ok {f : Block → Block} :
    c.modifyBlock b f = .ok d ↔
      c.HasBlock b ∧ d = c.updateBlocks fun s x => if s = b then f x else x := by
  obtain ⟨n⟩ := b
  rw [← exists_block_iff]
  simp [modifyBlock, modify_eq_mapIdx, updateBlocks, @eq_comm Body d]

theorem modifyInstruction_eq_ok {f : Instruction → Instruction} :
    c.modifyInstruction i f = .ok d ↔
      c.HasInstruction i ∧ d = c.updateInstructions fun j x => if j = i then f x else x := by
  obtain ⟨n⟩ := i
  rw [← exists_instruction_iff]
  simp [modifyInstruction, modify_eq_mapIdx, updateInstructions, @eq_comm Body d]

theorem modifyValue_eq_ok {f : Value → Value} :
    c.modifyValue v f = .ok d ↔
      c.HasValue v ∧ d = c.updateValues fun w x => if w = v then f x else x := by
  obtain ⟨n⟩ := v
  rw [← exists_value_iff]
  simp [modifyValue, modify_eq_mapIdx, updateValues, @eq_comm Body d]

/-- Making the same change to several values, where making it again makes no difference. -/
theorem foldlM_modifyValue_eq_ok {f : Value → Value} (hf : ∀ x, f (f x) = f x)
    {l : List ValueId} :
    l.foldlM (fun c v => c.modifyValue v f) c = .ok d ↔
      (∀ v ∈ l, c.HasValue v) ∧ d = c.updateValues fun w x => if w ∈ l then f x else x := by
  induction l generalizing c with
  | nil => simp [updateValues_id, eq_comm]
  | cons v l ih =>
    simp only [List.foldlM_cons, bind_eq_ok, modifyValue_eq_ok, ih, List.forall_mem_cons]
    constructor
    · rintro ⟨e, ⟨hv, rfl⟩, hl, rfl⟩
      refine ⟨⟨hv, by simpa using hl⟩, ?_⟩
      rw [updateValues_updateValues]
      congr
      funext w x
      by_cases hw : w = v <;> by_cases hl : w ∈ l <;> simp [hw, hl, hf]
    · rintro ⟨⟨hv, hl⟩, rfl⟩
      refine ⟨_, ⟨hv, rfl⟩, by simpa using hl, ?_⟩
      rw [updateValues_updateValues]
      congr
      funext w x
      by_cases hw : w = v <;> by_cases hl : w ∈ l <;> simp [hw, hl, hf]

/-- Making the same change to several instructions, where making it again makes no difference. -/
theorem foldlM_modifyInstruction {f : Instruction → Instruction} (hf : ∀ x, f (f x) = f x)
    {l : List InstrId} (hl : ∀ i ∈ l, c.HasInstruction i) :
    l.foldlM (fun c i => c.modifyInstruction i f) c =
      .ok (c.updateInstructions fun i x => if i ∈ l then f x else x) := by
  induction l generalizing c with
  | nil =>
    have : c.instructions.mapIdx (fun _ x => x) = c.instructions := List.ext_getElem? (by simp)
    simp [updateInstructions, this]
  | cons i l ih =>
    rw [List.forall_mem_cons] at hl
    rw [List.foldlM_cons, modifyInstruction_eq_ok.2 ⟨hl.1, rfl⟩, ok_bind,
      ih (by simpa using hl.2)]
    simp only [updateInstructions, List.mapIdx_mapIdx, Function.comp_def, Except.ok.injEq]
    congr
    funext n x
    by_cases hw : (⟨n⟩ : InstrId) = i <;> by_cases hl : (⟨n⟩ : InstrId) ∈ l <;> simp [hw, hl, hf]

end Body

end Devirt
