import Devirt.Proofs.Body.Store
import Mathlib.Tactic.SplitIfs

/-!
What each edit of a body does, as an equation. An edit succeeds exactly when the things it names
exist, and its result is then a uniform change of the stores.
-/

namespace Devirt

namespace OrderedSet

variable {α : Type} [DecidableEq α]

@[simp] theorem insert_insert (s : OrderedSet α) (a : α) : (s.insert a).insert a = s.insert a := by
  have : a ∈ (s.insert a).toList := by simp
  rw [insert, dif_pos this]

@[simp] theorem erase_erase (s : OrderedSet α) (a : α) : (s.erase a).erase a = s.erase a := by
  have : a ∉ (s.erase a).toList := by simp
  simp only [erase, mk.injEq]
  exact List.erase_of_not_mem this

end OrderedSet

namespace Operation

/-- Every value an operation names. -/
def mentions (op : Operation) : List ValueId := op.out?.toList ++ op.operands

theorem mapOperands_mapOperands {f g : ValueId → ValueId} {op : Operation} :
    (op.mapOperands f).mapOperands g = op.mapOperands (g ∘ f) := by
  cases op <;> simp [mapOperands]

theorem mapOperands_id {op : Operation} : op.mapOperands (fun v => v) = op := by
  cases op <;> simp [mapOperands]

/-- Only what is read counts. -/
theorem mapOperands_congr {f g : ValueId → ValueId} {op : Operation}
    (h : ∀ v ∈ op.operands, f v = g v) : op.mapOperands f = op.mapOperands g := by
  cases op with
  | ret value => cases value <;> simp_all [mapOperands, operands]
  | _ => simp_all [mapOperands, operands]

theorem call?_eq_some {op : Operation} {call : Call} : op.call? = some call ↔ op = .call call := by
  cases op <;> simp [call?]

@[simp] theorem out?_replaceOperand (op : Operation) (old new : ValueId) :
    (op.replaceOperand old new).out? = op.out? := by
  simp [replaceOperand]

/-- Operands after a replacement. -/
theorem mem_operands_replaceOperand {op : Operation} {old new v : ValueId} :
    v ∈ (op.replaceOperand old new).operands ↔
      (v = new ∧ old ∈ op.operands) ∨ (v ≠ old ∧ v ∈ op.operands) := by
  simp only [replaceOperand, operands_mapOperands, List.mem_map]
  constructor
  · rintro ⟨w, hw, rfl⟩
    split
    · rename_i h
      exact .inl ⟨rfl, h ▸ hw⟩
    · rename_i h
      exact .inr ⟨h, hw⟩
  · rintro (⟨rfl, hw⟩ | ⟨hne, hv⟩)
    · exact ⟨old, hw, by simp⟩
    · exact ⟨v, hv, by simp [hne]⟩

end Operation

namespace Body

variable {c d : Body} {b s : BlockId} {i j : InstrId} {v w : ValueId} {op : Operation}

/-- A value once an instruction is attached to what its operation names. -/
def attached (i : InstrId) (op : Operation) (v : ValueId) (x : Value) : Value :=
  { x with
    definition := if op.out? = some v then .instruction i else x.definition
    users := if v ∈ op.operands then x.users.insert i else x.users }

/-- A value once the instruction is detached again. -/
def detached (i : InstrId) (op : Operation) (v : ValueId) (x : Value) : Value :=
  { x with
    definition :=
      if op.out? = some v ∧ x.definition = .instruction i then .undefined else x.definition
    users := if v ∈ op.operands then x.users.erase i else x.users }

/-- One change to the output and another one to the operands. -/
private theorem foldlM_mentions_eq_ok {f g : Value → Value} (hf : ∀ x, f (f x) = f x)
    (hg : ∀ x, g (g x) = g x) :
    (op.out?.toList.foldlM (fun c v => modifyValue c v f) c >>= fun e =>
        op.operands.foldlM (fun c v => modifyValue c v g) e) = .ok d ↔
      (∀ v ∈ op.mentions, c.HasValue v) ∧ d = c.updateValues fun w x =>
        if w ∈ op.operands then g (if op.out? = some w then f x else x)
        else if op.out? = some w then f x else x := by
  simp only [bind_eq_ok, foldlM_modifyValue_eq_ok hf, foldlM_modifyValue_eq_ok hg,
    Operation.mentions, List.forall_mem_append, Option.mem_toList]
  constructor
  · rintro ⟨e, ⟨h1, rfl⟩, h2, rfl⟩
    exact ⟨⟨h1, by simpa using h2⟩, updateValues_updateValues⟩
  · rintro ⟨⟨h1, h2⟩, rfl⟩
    exact ⟨_, ⟨h1, rfl⟩, by simpa using h2, by rw [updateValues_updateValues]⟩

theorem attach_eq_ok :
    c.attach i op = .ok d ↔
      (∀ v ∈ op.mentions, c.HasValue v) ∧ d = c.updateValues (attached i op) := by
  have := @foldlM_mentions_eq_ok c d op (fun x => { x with definition := .instruction i })
    (fun x => { x with users := x.users.insert i }) (by simp) (by simp)
  rw [attach]
  simp only [setDefinition, addUser]
  rw [this]
  refine and_congr_right fun _ => Eq.congr_right (congrArg _ ?_)
  funext w x
  simp only [attached]
  split_ifs <;> rfl

theorem detach_eq_ok :
    c.detach i op = .ok d ↔
      (∀ v ∈ op.mentions, c.HasValue v) ∧ d = c.updateValues (detached i op) := by
  have := @foldlM_mentions_eq_ok c d op
    (fun x => if x.definition = .instruction i then { x with definition := .undefined } else x)
    (fun x => { x with users := x.users.erase i }) (by intro x; split <;> simp_all) (by simp)
  rw [detach]
  simp only [removeUser]
  rw [this]
  refine and_congr_right fun _ => Eq.congr_right (congrArg _ ?_)
  funext w x
  obtain ⟨type, dynamic, definition, users, phiUsers, localName⟩ := x
  simp only [detached]
  split_ifs <;> simp_all

/-- Adds an instruction to the store, outside all blocks. -/
def push (c : Body) (x : Instruction) : Body := { c with instructions := c.instructions ++ [x] }

@[simp] theorem block_push {x : Instruction} : (c.push x).block b = c.block b := rfl

@[simp] theorem value_push {x : Instruction} : (c.push x).value v = c.value v := rfl

@[simp] theorem hasBlock_push {x : Instruction} : (c.push x).HasBlock b ↔ c.HasBlock b := Iff.rfl

@[simp] theorem hasValue_push {x : Instruction} : (c.push x).HasValue v ↔ c.HasValue v := Iff.rfl

theorem instruction_push {x y : Instruction} :
    (c.push x).instruction i = .ok y ↔
      c.instruction i = .ok y ∨ (i = ⟨c.instructions.length⟩ ∧ y = x) := by
  obtain ⟨n⟩ := i
  simp only [instruction_eq_ok, push, List.getElem?_append, InstrId.mk.injEq]
  split
  · rename_i hn
    constructor
    · exact .inl
    · rintro (h | ⟨rfl, -⟩)
      · exact h
      · exact absurd hn (Nat.lt_irrefl _)
  · rename_i hn
    rw [List.getElem?_singleton, List.getElem?_eq_none (Nat.le_of_not_lt hn)]
    split
    · have : n = c.instructions.length := by omega
      simp [this, eq_comm]
    · have : n ≠ c.instructions.length := by omega
      simp [this]

theorem operation_push {x : Instruction} :
    (c.push x).operation i = .ok op ↔
      c.operation i = .ok op ∨ (i = ⟨c.instructions.length⟩ ∧ op = x.op) := by
  simp only [operation_eq_ok, instruction_push]
  constructor
  · rintro ⟨y, hy | ⟨hi, rfl⟩, rfl⟩
    · exact .inl ⟨y, hy, rfl⟩
    · exact .inr ⟨hi, rfl⟩
  · rintro (⟨y, hy, rfl⟩ | ⟨hi, rfl⟩)
    · exact ⟨y, .inl hy, rfl⟩
    · exact ⟨x, .inr ⟨hi, rfl⟩, rfl⟩

/-- The body with a new instruction at an index of a block. -/
def inserted (c : Body) (b : BlockId) (index : Nat) (op : Operation) : Body :=
  let i : InstrId := ⟨c.instructions.length⟩
  ((c.push { block := b, op }).updateBlocks fun s x =>
    if s = b then { x with instructions := x.instructions.insertIdx index i } else x).updateValues
      (attached i op)

section Inserted

variable {index : Nat}

@[simp] theorem block_inserted {y : Block} :
    (c.inserted b index op).block s = .ok y ↔
      ∃ x, c.block s = .ok x ∧
        (if s = b then
          { x with instructions := x.instructions.insertIdx index ⟨c.instructions.length⟩ }
        else x) = y := by
  simp [inserted]

theorem instruction_inserted {y : Instruction} :
    (c.inserted b index op).instruction i = .ok y ↔
      c.instruction i = .ok y ∨ (i = ⟨c.instructions.length⟩ ∧ y = { block := b, op }) :=
  instruction_push

theorem operation_inserted {op' : Operation} :
    (c.inserted b index op).operation i = .ok op' ↔
      c.operation i = .ok op' ∨ (i = ⟨c.instructions.length⟩ ∧ op' = op) :=
  operation_push

theorem blockOf_inserted :
    (c.inserted b index op).blockOf i = .ok s ↔
      c.blockOf i = .ok s ∨ (i = ⟨c.instructions.length⟩ ∧ s = b) := by
  simp only [blockOf_eq_ok, instruction_inserted]
  constructor
  · rintro ⟨y, hy | ⟨hi, rfl⟩, rfl⟩
    · exact .inl ⟨y, hy, rfl⟩
    · exact .inr ⟨hi, rfl⟩
  · rintro (⟨y, hy, rfl⟩ | ⟨hi, rfl⟩)
    · exact ⟨y, .inl hy, rfl⟩
    · exact ⟨_, .inr ⟨hi, rfl⟩, rfl⟩

@[simp] theorem value_inserted {y : Value} :
    (c.inserted b index op).value v = .ok y ↔
      ∃ x, c.value v = .ok x ∧ attached ⟨c.instructions.length⟩ op v x = y := by
  simp [inserted]

@[simp] theorem order_inserted : (c.inserted b index op).order = c.order := rfl

@[simp] theorem hasBlock_inserted :
    (c.inserted b index op).HasBlock s ↔ c.HasBlock s := by
  simp [inserted]

@[simp] theorem hasValue_inserted :
    (c.inserted b index op).HasValue v ↔ c.HasValue v := by
  simp [inserted]

end Inserted

/-- The next number of an instruction is not taken yet. -/
theorem instruction_next_ne_ok {x : Instruction} :
    c.instruction ⟨c.instructions.length⟩ ≠ .ok x := by
  simp [instruction_eq_ok]

theorem operation_next_ne_ok : c.operation ⟨c.instructions.length⟩ ≠ .ok op := by
  intro h
  obtain ⟨x, hx, -⟩ := operation_eq_ok.1 h
  exact instruction_next_ne_ok hx

theorem blockOf_next_ne_ok : c.blockOf ⟨c.instructions.length⟩ ≠ .ok b := by
  intro h
  obtain ⟨x, hx, -⟩ := blockOf_eq_ok.1 h
  exact instruction_next_ne_ok hx

theorem insertAt_eq_ok {index : Nat} :
    c.insertAt b index op = .ok (i, d) ↔
      (∃ x, c.block b = .ok x ∧ index ≤ x.instructions.length) ∧
        (∀ v ∈ op.mentions, c.HasValue v) ∧ i = ⟨c.instructions.length⟩ ∧
        d = c.inserted b index op := by
  constructor
  · intro h
    simp only [insertAt, bind_eq_ok] at h
    obtain ⟨x, hx, h⟩ := h
    split at h
    · simp at h
    · rename_i hlen
      simp only [bind_eq_ok, modifyBlock_eq_ok, attach_eq_ok, pure_eq_ok, Except.ok.injEq,
        Prod.mk.injEq] at h
      obtain ⟨e, ⟨-, rfl⟩, e', ⟨hv, rfl⟩, rfl, rfl⟩ := h
      exact ⟨⟨x, hx, by omega⟩, hv, rfl, rfl⟩
  · rintro ⟨⟨x, hx, hlen⟩, hv, rfl, rfl⟩
    have hlen : ¬ x.instructions.length < index := by omega
    simp only [insertAt, hx, ok_bind, hlen, if_false, bind_eq_ok]
    exact ⟨_, modifyBlock_eq_ok.2 ⟨hasBlock_of_block hx, rfl⟩, _, attach_eq_ok.2 ⟨hv, rfl⟩, rfl⟩

theorem append_eq_ok :
    c.append b op = .ok (i, d) ↔
      ∃ x, c.block b = .ok x ∧ (∀ v ∈ op.mentions, c.HasValue v) ∧
        i = ⟨c.instructions.length⟩ ∧ d = c.inserted b x.instructions.length op := by
  simp only [append, bind_eq_ok, insertAt_eq_ok]
  constructor
  · rintro ⟨x, hx, -, h⟩
    exact ⟨x, hx, h⟩
  · rintro ⟨x, hx, h⟩
    exact ⟨x, hx, ⟨x, hx, Nat.le_refl _⟩, h⟩

/-- Changes the operation of one instruction, without regard to the records. -/
def updateOperation (c : Body) (i : InstrId) (f : Operation → Operation) : Body :=
  c.updateInstructions fun j x => if j = i then { x with op := f x.op } else x

section UpdateOperation

variable {f : Operation → Operation}

theorem operation_updateOperation {op' : Operation} :
    (c.updateOperation i f).operation j = .ok op' ↔
      ∃ op, c.operation j = .ok op ∧ (if j = i then f op else op) = op' := by
  simp only [operation_eq_ok, updateOperation, instruction_updateInstructions]
  constructor
  · rintro ⟨_, ⟨x, hx, rfl⟩, rfl⟩
    exact ⟨x.op, ⟨x, hx, rfl⟩, by split <;> rfl⟩
  · rintro ⟨_, ⟨x, hx, rfl⟩, rfl⟩
    exact ⟨_, ⟨x, hx, rfl⟩, by split <;> rfl⟩

/-- What the new operation shares with the old one is found as before. -/
theorem map_operation_updateOperation {α : Type} {g : Operation → α}
    (h : ∀ op, c.operation i = .ok op → g (f op) = g op) (j : InstrId) :
    g <$> (c.updateOperation i f).operation j = g <$> c.operation j := by
  cases hj : c.operation j with
  | ok op =>
    have hj' : (c.updateOperation i f).operation j = .ok (if j = i then f op else op) :=
      operation_updateOperation.2 ⟨op, hj, rfl⟩
    rw [hj']
    split
    · rename_i hji
      exact congrArg Except.ok (h op (hji ▸ hj))
    · rfl
  | error e =>
    have hj' : (c.updateOperation i f).operation j = .error e := by
      simp only [operation, instruction] at hj ⊢
      simp only [updateOperation, updateInstructions, List.getElem?_mapIdx]
      cases hx : c.instructions[j.index]? <;> simp_all
    rw [hj']

@[simp] theorem blockOf_updateOperation : (c.updateOperation i f).blockOf j = c.blockOf j := by
  simp only [blockOf, instruction, updateOperation, updateInstructions, List.getElem?_mapIdx]
  cases c.instructions[j.index]? with
  | none => rfl
  | some x =>
    simp only [Option.map_some, ok_bind]
    split <;> rfl

@[simp] theorem block_updateOperation : (c.updateOperation i f).block b = c.block b := rfl

@[simp] theorem value_updateOperation : (c.updateOperation i f).value v = c.value v := rfl

@[simp] theorem hasValue_updateOperation :
    (c.updateOperation i f).HasValue v ↔ c.HasValue v := Iff.rfl

end UpdateOperation

/-- The body with another operation in an instruction. -/
def replaced (c : Body) (i : InstrId) (old new : Operation) : Body :=
  (c.updateOperation i fun _ => new).updateValues fun v x => attached i new v (detached i old v x)

theorem operation_replaced {old new op' : Operation} :
    (c.replaced i old new).operation j = .ok op' ↔
      ∃ op, c.operation j = .ok op ∧ (if j = i then new else op) = op' := by
  rw [replaced, operation_updateValues, operation_updateOperation]

@[simp] theorem blockOf_replaced {old new : Operation} :
    (c.replaced i old new).blockOf j = c.blockOf j := by
  simp [replaced]

@[simp] theorem block_replaced {old new : Operation} :
    (c.replaced i old new).block b = c.block b := rfl

@[simp] theorem value_replaced {old new : Operation} {y : Value} :
    (c.replaced i old new).value v = .ok y ↔
      ∃ x, c.value v = .ok x ∧ attached i new v (detached i old v x) = y := by
  simp [replaced]

@[simp] theorem hasValue_replaced {old new : Operation} :
    (c.replaced i old new).HasValue v ↔ c.HasValue v := by
  simp [replaced]

theorem replace_eq_ok {new : Operation} :
    c.replace i new = .ok d ↔
      ∃ old, c.operation i = .ok old ∧ (∀ v ∈ old.mentions, c.HasValue v) ∧
        (∀ v ∈ new.mentions, c.HasValue v) ∧ d = c.replaced i old new := by
  simp only [replace, bind_eq_ok, detach_eq_ok, modifyInstruction_eq_ok, attach_eq_ok]
  constructor
  · rintro ⟨old, hold, e, ⟨h1, rfl⟩, e', ⟨-, rfl⟩, h2, rfl⟩
    refine ⟨old, hold, h1, by simpa using h2, ?_⟩
    rw [updateInstructions_updateValues, updateValues_updateValues]
    rfl
  · rintro ⟨old, hold, h1, h2, rfl⟩
    obtain ⟨x, hx, -⟩ := operation_eq_ok.1 hold
    refine ⟨old, hold, _, ⟨h1, rfl⟩, _, ⟨exists_instruction_iff.1 ⟨x, hx⟩, rfl⟩, by simpa using h2,
      ?_⟩
    rw [updateInstructions_updateValues, updateValues_updateValues]
    rfl

theorem call?_eq_ok (hop : c.operation i = .ok op) : c.call? i = .ok op.call? := by
  simp [call?, hop]

theorem call?_eq_ok_some {call : Call} :
    c.call? i = .ok (some call) ↔ c.operation i = .ok (.call call) := by
  simp [call?, Operation.call?_eq_some]

/-- The body in which a call dispatches to another method. -/
abbrev retargeted (c : Body) (i : InstrId) (call : Call) (method : MethodRef) : Body :=
  c.replaced i (.call call) (.call { call with kind := .virtual, method })

theorem operation_retargeted {call : Call} {method : MethodRef}
    (hop : c.operation i = .ok (.call call)) :
    (c.retargeted i call method).operation i = .ok (.call { call with kind := .virtual, method }) :=
  operation_replaced.2 ⟨_, hop, if_pos rfl⟩

/-- The body with a phi added to a block. -/
def withPhi (c : Body) (b : BlockId) (phi : Phi) : Body :=
  (c.updateValues fun v x =>
    { x with
      definition := if v = phi.out then .phi b else x.definition
      phiUsers := if v ∈ phi.operands then x.phiUsers.insert phi.out else x.phiUsers }).updateBlocks
    fun s x => if s = b then { x with phis := x.phis ++ [phi] } else x

theorem placePhi_eq_ok {phi : Phi} :
    c.placePhi b phi = .ok d ↔
      c.HasBlock b ∧ c.HasValue phi.out ∧ (∀ v ∈ phi.operands, c.HasValue v) ∧
        d = c.withPhi b phi := by
  simp only [placePhi, setDefinition, addPhiUser, bind_eq_ok, modifyValue_eq_ok,
    modifyBlock_eq_ok]
  have hfold : ∀ e f : Body, phi.operands.foldlM (fun c v =>
      c.modifyValue v fun x => { x with phiUsers := x.phiUsers.insert phi.out }) e = .ok f ↔ _ :=
    fun e f => foldlM_modifyValue_eq_ok (by simp)
  simp only [hfold]
  have hsame : ((c.updateValues fun w x =>
      if w = phi.out then { x with definition := .phi b } else x).updateValues fun w x =>
        if w ∈ phi.operands then { x with phiUsers := x.phiUsers.insert phi.out } else x) =
      c.updateValues fun v x =>
        { x with
          definition := if v = phi.out then .phi b else x.definition
          phiUsers :=
            if v ∈ phi.operands then x.phiUsers.insert phi.out else x.phiUsers } := by
    rw [updateValues_updateValues]
    congr
    funext w x
    split_ifs <;> rfl
  constructor
  · rintro ⟨e, ⟨h1, rfl⟩, e', ⟨h2, rfl⟩, h3, rfl⟩
    exact ⟨by simpa using h3, h1, by simpa using h2, by rw [hsame]; rfl⟩
  · rintro ⟨h3, h1, h2, rfl⟩
    exact ⟨_, ⟨h1, rfl⟩, _, ⟨by simpa using h2, rfl⟩, by simpa using h3, by rw [hsame]; rfl⟩

/-- The body after one instruction reads `new` wherever it read `old`. -/
def redirected (c : Body) (i : InstrId) (old new : ValueId) : Body :=
  (c.updateOperation i (·.replaceOperand old new)).updateValues fun v x =>
    { x with
      users :=
        if v = new then (if v = old then x.users.erase i else x.users).insert i
        else if v = old then x.users.erase i else x.users }

section Redirected

variable {old new : ValueId}

theorem operation_redirected {op' : Operation} :
    (c.redirected i old new).operation j = .ok op' ↔
      ∃ op, c.operation j = .ok op ∧ (if j = i then op.replaceOperand old new else op) = op' := by
  rw [redirected, operation_updateValues, operation_updateOperation]

@[simp] theorem blockOf_redirected : (c.redirected i old new).blockOf j = c.blockOf j := by
  simp [redirected]

@[simp] theorem block_redirected : (c.redirected i old new).block b = c.block b := rfl

@[simp] theorem value_redirected {y : Value} :
    (c.redirected i old new).value v = .ok y ↔
      ∃ x, c.value v = .ok x ∧
        { x with
          users :=
            if v = new then (if v = old then x.users.erase i else x.users).insert i
            else if v = old then x.users.erase i else x.users } = y := by
  simp [redirected]

@[simp] theorem hasValue_redirected :
    (c.redirected i old new).HasValue v ↔ c.HasValue v := by
  simp [redirected]

@[simp] theorem hasInstruction_redirected :
    (c.redirected i old new).HasInstruction j ↔ c.HasInstruction j := by
  simp [redirected, updateOperation]

end Redirected

theorem redirectOperand_eq_ok {old new : ValueId} {changed : Bool} :
    c.redirectOperand i old new = .ok (changed, d) ↔
      ∃ op, c.operation i = .ok op ∧
        if old ∈ op.operands then
          changed = true ∧ c.HasValue old ∧ c.HasValue new ∧ d = c.redirected i old new
        else changed = false ∧ d = c := by
  simp only [redirectOperand, bind_eq_ok]
  refine exists_congr fun op => and_congr_right fun hop => ?_
  split
  · simp only [bind_eq_ok, modifyInstruction_eq_ok, removeUser, addUser, modifyValue_eq_ok,
      pure_eq_ok, Except.ok.injEq, Prod.mk.injEq]
    have hsame : (((c.updateInstructions fun j x =>
          if j = i then { x with op := x.op.replaceOperand old new } else x).updateValues
        fun w x => if w = old then { x with users := x.users.erase i } else x).updateValues
        fun w x => if w = new then { x with users := x.users.insert i } else x) =
        c.redirected i old new := by
      rw [updateValues_updateValues, redirected, updateOperation]
      congr
      funext w x
      split_ifs <;> rfl
    constructor
    · rintro ⟨e, ⟨-, rfl⟩, e', ⟨h1, rfl⟩, e'', ⟨h2, rfl⟩, rfl, rfl⟩
      exact ⟨rfl, by simpa using h1, by simpa using h2, hsame⟩
    · rintro ⟨rfl, h1, h2, rfl⟩
      obtain ⟨x, hx, -⟩ := operation_eq_ok.1 hop
      exact ⟨_, ⟨exists_instruction_iff.1 ⟨x, hx⟩, rfl⟩, _, ⟨by simpa using h1, rfl⟩, _,
        ⟨by simpa using h2, rfl⟩, rfl, hsame⟩
  · simp [eq_comm]

theorem redirectOperand_of_mem {old new : ValueId} (hop : c.operation i = .ok op)
    (hold : old ∈ op.operands) (hv : c.HasValue old) (hv' : c.HasValue new) :
    c.redirectOperand i old new = .ok (true, c.redirected i old new) :=
  redirectOperand_eq_ok.2 ⟨op, hop, by rw [if_pos hold]; exact ⟨rfl, hv, hv', rfl⟩⟩

end Body

end Devirt
