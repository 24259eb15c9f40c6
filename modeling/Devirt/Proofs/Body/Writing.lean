import Devirt.Proofs.Body.Sealing

/-!
Writing a body by steps that name blocks and values that are there. All such steps can be made and
the draft can be sealed, whatever their order; the body that results has every value defined once,
users and edges recorded on both ends, and phis that read the first value given for each
predecessor.
-/

namespace Devirt

/-! ### What steps name and make -/

namespace DraftStep

/-- The blocks that have to be there when the step is made. Arguments are read in the entry, which
is always there. -/
def writes : DraftStep → List BlockId
  | .create b _ | .null b | .number b _ | .call b _ _ _ | .callWithResult b _ _ _ _ | .cast b _ _
  | .assumeNonNull b _ _ | .handler b _ _ | .goto b _ | .branch b _ _ _ | .ret b _
  | .raise b _ => [b]
  | _ => []

/-- The values that have to be there when the step is made. -/
def reads : DraftStep → List ValueId
  | .localName v _ | .dynamic v _ => [v]
  | .call _ _ _ arguments | .callWithResult _ _ _ arguments _ => arguments
  | .cast _ v _ | .assumeNonNull _ v _ | .branch _ v _ _ | .raise _ v => [v]
  | .ret _ value => value.toList
  | _ => []

/-- The blocks that have to be there when the draft is sealed. -/
def laterBlocks : DraftStep → List BlockId
  | .phi b _ _ => [b]
  | .handler _ _ target | .goto _ target => [target]
  | .branch _ _ whenTrue whenFalse => [whenTrue, whenFalse]
  | _ => []

/-- The values that have to be there when the draft is sealed. -/
def laterValues : DraftStep → List ValueId
  | .phi _ _ incoming => incoming.map (·.2)
  | _ => []

def makesBlock : DraftStep → Bool
  | .newBlock => true
  | _ => false

def makesValue : DraftStep → Bool
  | .argument _ | .create _ _ | .null _ | .number _ _ | .callWithResult _ _ _ _ _ | .cast _ _ _
  | .assumeNonNull _ _ _ | .phi _ _ _ => true
  | _ => false

/-- Each step writes into a block and reads values that are there when its turn comes, where there
are so many blocks and values before the first one. -/
def InScope (blocks values : Nat) : List DraftStep → Prop
  | [] => True
  | step :: steps =>
    (∀ b ∈ step.writes, b.index < blocks) ∧ (∀ v ∈ step.reads, v.index < values) ∧
      InScope (blocks + if step.makesBlock then 1 else 0)
        (values + if step.makesValue then 1 else 0) steps

/-- The steps name blocks and values that exist: those written into and read when the step is made,
jump targets, handlers and what phis name in the end. -/
def Named (steps : List DraftStep) : Prop :=
  InScope 1 0 steps ∧ ∀ step ∈ steps,
    (∀ b ∈ step.laterBlocks, b.index < 1 + steps.countP (·.makesBlock)) ∧
      ∀ v ∈ step.laterValues, v.index < steps.countP (·.makesValue)

instance decidableInScope : (blocks values : Nat) → (steps : List DraftStep) →
    Decidable (InScope blocks values steps)
  | _, _, [] => isTrue trivial
  | blocks, values, step :: steps =>
    have := decidableInScope (blocks + if step.makesBlock then 1 else 0)
      (values + if step.makesValue then 1 else 0) steps
    inferInstanceAs (Decidable (_ ∧ _ ∧ _))

instance (steps : List DraftStep) : Decidable (Named steps) :=
  inferInstanceAs (Decidable (_ ∧ _))

/-- The phi that a step leaves for later. -/
def pending : DraftStep → Created → List PendingPhi
  | .phi block _ incoming, .value out => [{ block, out, incoming }]
  | _, _ => []

/-- The phis that steps leave for later. -/
def pendings (steps : List DraftStep) (made : List Created) : List PendingPhi :=
  (steps.zip made).flatMap fun q => q.1.pending q.2

theorem mem_pending {step : DraftStep} {made : Created} {q : PendingPhi} :
    q ∈ step.pending made ↔
      (∃ type, step = .phi q.block type q.incoming) ∧ made = .value q.out := by
  constructor
  · intro h
    unfold pending at h
    split at h
    · obtain rfl := List.mem_singleton.1 h
      exact ⟨⟨_, rfl⟩, rfl⟩
    · cases h
  · rintro ⟨⟨type, rfl⟩, rfl⟩
    exact List.mem_singleton.2 rfl

theorem mem_pendings {steps : List DraftStep} {made : List Created} {q : PendingPhi} :
    q ∈ pendings steps made ↔
      ∃ (n : Nat) (type : StaticType), steps[n]? = some (.phi q.block type q.incoming) ∧
        made[n]? = some (.value q.out) := by
  rw [pendings, List.mem_flatMap]
  constructor
  · rintro ⟨⟨step, m⟩, hmem, hq⟩
    obtain ⟨n, hn⟩ := List.mem_iff_getElem?.1 hmem
    obtain ⟨⟨type, rfl⟩, rfl⟩ := mem_pending.1 hq
    exact ⟨n, type, List.getElem?_zip_eq_some.1 hn⟩
  · rintro ⟨n, type, hstep, hmade⟩
    refine ⟨(.phi q.block type q.incoming, .value q.out), ?_, mem_pending.2 ⟨⟨type, rfl⟩, rfl⟩⟩
    exact List.mem_iff_getElem?.2 ⟨n, List.getElem?_zip_eq_some.2 ⟨hstep, hmade⟩⟩

end DraftStep

/-! ### Growth -/

/-- A jump that has been placed, at the end of a block or not, or a handler names the block. -/
def Body.Names (c : Body) (s : BlockId) : Prop :=
  (∃ i op, c.operation i = .ok op ∧ s ∈ op.targets) ∨
    ∃ b x, c.block b = .ok x ∧ ∃ h ∈ x.handlers, h.target = s

theorem Body.closed_of_names {c : Body} (h : ∀ s, c.Names s → c.HasBlock s) : c.Closed := by
  rintro b s (⟨x, i, op, -, -, hop, hs⟩ | ⟨x, hx, hh⟩)
  · exact h s (.inl ⟨i, op, hop, hs⟩)
  · exact h s (.inr ⟨b, x, hx, hh⟩)

namespace Draft

/-- The second draft follows from the first one by so many blocks and values, with jumps and
handlers to the blocks of `later` and with further pending phis. -/
structure Grows (d d' : Draft) (blocks values : Nat) (later : List BlockId)
    (pending : List PendingPhi) : Prop where
  length_blocks : d'.body.blocks.length = d.body.blocks.length + blocks
  length_values : d'.body.values.length = d.body.values.length + values
  outputs : ∀ {i v}, d.body.Outputs i v → d'.body.Outputs i v
  fresh : ∀ {v}, d'.body.HasValue v →
    d.body.HasValue v ∨ (∃ i, d'.body.Outputs i v) ∨ ∃ q ∈ pending, q.out = v
  names : ∀ {s}, d'.body.Names s → d.body.Names s ∨ s ∈ later
  phis : d'.phis = d.phis ++ pending

namespace Grows

variable {d d' e : Draft} {blocks values blocks' values' : Nat} {later later' : List BlockId}
  {pending pending' : List PendingPhi}

theorem refl (d : Draft) : d.Grows d 0 0 [] [] :=
  ⟨rfl, rfl, id, .inl, .inl, (List.append_nil _).symm⟩

theorem trans (h : d.Grows e blocks values later pending)
    (h' : e.Grows d' blocks' values' later' pending') :
    d.Grows d' (blocks + blocks') (values + values') (later ++ later') (pending ++ pending') where
  length_blocks := by rw [h'.length_blocks, h.length_blocks, Nat.add_assoc]
  length_values := by rw [h'.length_values, h.length_values, Nat.add_assoc]
  outputs hi := h'.outputs (h.outputs hi)
  fresh hv := by
    rcases h'.fresh hv with hv | hout | ⟨q, hq, hout⟩
    · rcases h.fresh hv with hv | ⟨i, hi⟩ | ⟨q, hq, hout⟩
      · exact .inl hv
      · exact .inr (.inl ⟨i, h'.outputs hi⟩)
      · exact .inr (.inr ⟨q, List.mem_append_left _ hq, hout⟩)
    · exact .inr (.inl hout)
    · exact .inr (.inr ⟨q, List.mem_append_right _ hq, hout⟩)
  names hs := by
    rcases h'.names hs with hs | hs
    · rcases h.names hs with hs | hs
      · exact .inl hs
      · exact .inr (List.mem_append_left _ hs)
    · exact .inr (List.mem_append_right _ hs)
  phis := by rw [h'.phis, h.phis, List.append_assoc]

theorem covered (h : d.Grows d' blocks values later pending) (hd : d.Covered) : d'.Covered := by
  intro v hv
  rw [h.phis]
  rcases h.fresh hv with hv | hout | ⟨q, hq, hout⟩
  · rcases hd v hv with ⟨i, hi⟩ | ⟨q, hq, hout⟩
    · exact .inl ⟨i, h.outputs hi⟩
    · exact .inr ⟨q, List.mem_append_left _ hq, hout⟩
  · exact .inl hout
  · exact .inr ⟨q, List.mem_append_right _ hq, hout⟩

end Grows

section Steps

variable {d : Draft} {b : BlockId}

theorem grows_arguments (n : Nat) : d.Grows { d with arguments := n } 0 0 [] [] :=
  ⟨rfl, rfl, id, .inl, .inl, (List.append_nil _).symm⟩

theorem grows_createBlock : d.Grows { d with body := d.body.createBlock.2 } 1 0 [] [] where
  length_blocks := List.length_append
  length_values := rfl
  outputs := id
  fresh := .inl
  names := by
    rintro s (hop | ⟨b, x, hx, h, hh, hs⟩)
    · exact .inl (.inl hop)
    · rcases Body.block_createBlock.1 hx with hx | ⟨-, rfl⟩
      · exact .inl (.inr ⟨b, x, hx, h, hh, hs⟩)
      · cases hh
  phis := (List.append_nil _).symm

theorem grows_updateValues (g : ValueId → Value → Value) :
    d.Grows { d with body := d.body.updateValues g } 0 0 [] [] where
  length_blocks := rfl
  length_values := List.length_mapIdx
  outputs := id
  fresh hv := .inl (Body.hasValue_updateValues.1 hv)
  names := .inl
  phis := (List.append_nil _).symm

theorem grows_handler (h : Handler) :
    d.Grows { d with body := d.body.updateBlocks fun s x =>
      if s = b then { x with handlers := x.handlers ++ [h] } else x } 0 0 [h.target] [] where
  length_blocks := List.length_mapIdx
  length_values := rfl
  outputs := id
  fresh := .inl
  names := by
    rintro s (hop | ⟨r, y, hy, h', hh, hs⟩)
    · exact .inl (.inl hop)
    · obtain ⟨x, hx, rfl⟩ := Body.block_updateBlocks.1 hy
      split at hh
      · rcases List.mem_append.1 hh with hh | hh
        · exact .inl (.inr ⟨r, x, hx, h', hh, hs⟩)
        · obtain rfl := List.mem_singleton.1 hh
          exact .inr (List.mem_singleton.2 hs.symm)
      · exact .inl (.inr ⟨r, x, hx, h', hh, hs⟩)
  phis := (List.append_nil _).symm

theorem grows_inserted (n : Nat) (op : Operation) :
    d.Grows { d with body := d.body.inserted b n op } 0 0 op.targets [] where
  length_blocks := List.length_mapIdx
  length_values := List.length_mapIdx
  outputs := by
    rintro i v ⟨op', hop, hout⟩
    exact ⟨op', Body.operation_inserted.2 (.inl hop), hout⟩
  fresh hv := .inl (Body.hasValue_inserted.1 hv)
  names := by
    rintro s (⟨i, op', hop, hs⟩ | ⟨r, y, hy, h, hh, hs⟩)
    · rcases Body.operation_inserted.1 hop with hop | ⟨-, rfl⟩
      · exact .inl (.inl ⟨i, op', hop, hs⟩)
      · exact .inr hs
    · obtain ⟨x, hx, rfl⟩ := Body.block_inserted.1 hy
      refine .inl (.inr ⟨r, x, hx, h, ?_, hs⟩)
      split at hh <;> exact hh
  phis := (List.append_nil _).symm

/-- The value of a defining instruction is the only new one. -/
theorem grows_defined (type : StaticType) (n : Nat) {op : Operation}
    (hout : op.out? = some ⟨d.body.values.length⟩) :
    d.Grows { d with body := (d.body.createValue type).2.inserted b n op } 0 1 op.targets [] where
  length_blocks := List.length_mapIdx
  length_values := List.length_mapIdx.trans List.length_append
  outputs := (grows_inserted (d := { d with body := (d.body.createValue type).2 }) n op).outputs
  fresh := by
    intro v hv
    rcases Body.hasValue_createValue.1 (Body.hasValue_inserted.1 hv) with hv | rfl
    · exact .inl hv
    · exact .inr (.inl ⟨_, op, Body.operation_inserted.2 (.inr ⟨rfl, rfl⟩), hout⟩)
  names := (grows_inserted (d := { d with body := (d.body.createValue type).2 }) n op).names
  phis := (List.append_nil _).symm

theorem grows_phi (type : StaticType) (incoming : List (BlockId × ValueId)) :
    d.Grows { d with body := (d.body.createValue type).2
                     phis := d.phis ++ [⟨b, ⟨d.body.values.length⟩, incoming⟩] } 0 1 [b]
      [⟨b, ⟨d.body.values.length⟩, incoming⟩] where
  length_blocks := rfl
  length_values := List.length_append
  outputs := id
  fresh := by
    intro v hv
    rcases Body.hasValue_createValue.1 hv with hv | rfl
    · exact .inl hv
    · exact .inr (.inr ⟨_, List.mem_singleton.2 rfl, rfl⟩)
  names := .inl
  phis := rfl

end Steps

end Draft

/-! ### Steps that can be made -/

namespace Drafting

variable {d : Draft} {b : BlockId} {op : Operation}

theorem run_edit_of {f : Body → Except Fault Body} {c : Body} (h : f d.body = .ok c) :
    (edit f).run d = .ok ((), { d with body := c }) := by
  simp [edit, h]

/-- A value can be given other facts. -/
theorem exists_modifyValue {v : ValueId} (f : Value → Value) (hv : d.body.HasValue v) :
    ∃ d', (edit (·.modifyValue v f)).run d = .ok ((), d') ∧ d.Grows d' 0 0 [] [] :=
  ⟨_, run_edit_of (Body.modifyValue_eq_ok.2 ⟨hv, rfl⟩), Draft.grows_updateValues _⟩

theorem exists_handler (guard : Option TypeName) (target : BlockId) (hb : d.body.HasBlock b) :
    ∃ d', (handler b guard target).run d = .ok ((), d') ∧ d.Grows d' 0 0 [target] [] :=
  ⟨_, run_edit_of (Body.modifyBlock_eq_ok.2 ⟨hb, rfl⟩), Draft.grows_handler ⟨guard, target⟩⟩

theorem exists_emit (hb : d.body.HasBlock b) (hop : ∀ v ∈ op.mentions, d.body.HasValue v) :
    ∃ i n, (emit b op).run d = .ok (i, { d with body := d.body.inserted b n op }) := by
  obtain ⟨x, hx⟩ := Body.exists_block_iff.2 hb
  have happend := Body.append_eq_ok.2 ⟨x, hx, hop, rfl, rfl⟩
  exact ⟨⟨d.body.instructions.length⟩, x.instructions.length, by simp [emit, happend]⟩

/-- An instruction without output can be put into a block if it reads values that are there. -/
theorem exists_instruction (op : Operation) (hout : op.out? = none) (hb : d.body.HasBlock b)
    (hop : ∀ v ∈ op.operands, d.body.HasValue v) :
    ∃ made d', (Created.instruction <$> emit b op).run d = .ok (made, d') ∧
      d.Grows d' 0 0 op.targets [] := by
  have hmentions : ∀ v ∈ op.mentions, d.body.HasValue v := by
    simpa [Operation.mentions, hout] using hop
  obtain ⟨i, n, hi⟩ := exists_emit hb hmentions
  exact ⟨.instruction i, _, by rw [StateT.run_map, hi]; rfl, Draft.grows_inserted n op⟩

/-- So can one with a new value as its output. -/
theorem exists_define (type : StaticType) (op : ValueId → Operation)
    (hout : ∀ v, (op v).out? = some v) (htargets : ∀ v, (op v).targets = [])
    (hb : d.body.HasBlock b) (hop : ∀ v, ∀ w ∈ (op v).operands, d.body.HasValue w) :
    ∃ made d', (Created.value <$> define b type op).run d = .ok (made, d') ∧
      d.Grows d' 0 1 [] [] := by
  let new : ValueId := ⟨d.body.values.length⟩
  have hmentions : ∀ v ∈ (op new).mentions, (d.body.createValue type).2.HasValue v := by
    intro v hv
    rw [Operation.mentions, hout] at hv
    rcases List.mem_append.1 hv with hv | hv
    · exact Body.hasValue_createValue.2 (.inr (by simpa using hv))
    · exact Body.hasValue_createValue.2 (.inl (hop new v hv))
  obtain ⟨i, n, hemit⟩ :=
    exists_emit (d := { d with body := (d.body.createValue type).2 }) (b := b) hb hmentions
  have hnew : (newValue type).run d =
      .ok (new, { d with body := (d.body.createValue type).2 }) := rfl
  refine ⟨.value new, { d with body := (d.body.createValue type).2.inserted b n (op new) }, ?_, ?_⟩
  · rw [StateT.run_map, define, StateT.run_bind, hnew, ok_bind, StateT.run_bind, hemit]
    rfl
  · rw [← htargets new]
    exact Draft.grows_defined type n (hout new)

theorem exists_typeOf {v : ValueId} (hv : d.body.HasValue v) :
    ∃ t, (typeOf v).run d = .ok (t, d) := by
  obtain ⟨x, hx⟩ := Body.exists_value_iff.2 hv
  exact ⟨x.type, by simp [typeOf, hx]⟩

end Drafting

/-- A step that writes into a block and reads values that are there can be made. -/
theorem DraftStep.exists_perform {d : Draft} (step : DraftStep)
    (hentry : d.body.HasBlock d.body.entry) (hb : ∀ b ∈ step.writes, d.body.HasBlock b)
    (hv : ∀ v ∈ step.reads, d.body.HasValue v) :
    ∃ made d', step.perform.run d = .ok (made, d') ∧
      d.Grows d' (if step.makesBlock then 1 else 0) (if step.makesValue then 1 else 0)
        step.laterBlocks (step.pending made) := by
  cases step with
  | newBlock => exact ⟨_, _, rfl, Draft.grows_createBlock⟩
  | argument type =>
    obtain ⟨made, d', hrun, hgrows⟩ := Drafting.exists_define
      (d := { d with arguments := d.arguments + 1 }) type (fun v => .argument v d.arguments)
      (fun _ => rfl) (fun _ => rfl) hentry (by simp [Operation.operands])
    exact ⟨made, d', hrun, (Draft.grows_arguments _).trans hgrows⟩
  | localName v name =>
    obtain ⟨d', hrun, hgrows⟩ := Drafting.exists_modifyValue
      (fun x => { x with localName := some name }) (hv v (by simp [reads]))
    exact ⟨.nothing, d', by simp [perform, Drafting.localName, Body.setLocalName, hrun], hgrows⟩
  | dynamic v r =>
    obtain ⟨d', hrun, hgrows⟩ := Drafting.exists_modifyValue
      (fun x => { x with dynamic := some r }) (hv v (by simp [reads]))
    exact ⟨.nothing, d', by simp [perform, Drafting.dynamic, Body.setDynamic, hrun], hgrows⟩
  | create b name =>
    exact Drafting.exists_define _ (fun v => .create v name) (fun _ => rfl) (fun _ => rfl)
      (hb b (by simp [writes])) (by simp [Operation.operands])
  | null b =>
    exact Drafting.exists_define _ .null (fun _ => rfl) (fun _ => rfl)
      (hb b (by simp [writes])) (by simp [Operation.operands])
  | number b n =>
    exact Drafting.exists_define _ (fun v => .number v n) (fun _ => rfl) (fun _ => rfl)
      (hb b (by simp [writes])) (by simp [Operation.operands])
  | call b kind method arguments =>
    exact Drafting.exists_instruction (.call { kind, method, arguments }) rfl
      (hb b (by simp [writes])) hv
  | callWithResult b kind method arguments type =>
    exact Drafting.exists_define type (fun v => .call { kind, method, out := some v, arguments })
      (fun _ => rfl) (fun _ => rfl) (hb b (by simp [writes])) fun _ => hv
  | cast b object name =>
    obtain ⟨t, ht⟩ := Drafting.exists_typeOf (hv object (by simp [reads]))
    obtain ⟨made, d', hrun, hgrows⟩ := Drafting.exists_define (.ofClass name t.nullability)
      (fun v => .cast v object name) (fun _ => rfl) (fun _ => rfl) (hb b (by simp [writes]))
      fun _ => hv
    refine ⟨made, d', ?_, hgrows⟩
    rw [← hrun, perform, Drafting.cast, StateT.run_map, StateT.run_bind, ht, ok_bind,
      StateT.run_map]
  | assumeNonNull b source origin =>
    obtain ⟨t, ht⟩ := Drafting.exists_typeOf (hv source (by simp [reads]))
    obtain ⟨made, d', hrun, hgrows⟩ := Drafting.exists_define (t.withNullability .notNull)
      (fun v => .assumeNonNull v source origin) (fun _ => rfl) (fun _ => rfl)
      (hb b (by simp [writes])) fun _ => hv
    refine ⟨made, d', ?_, hgrows⟩
    rw [← hrun, perform, Drafting.assumeNonNull, StateT.run_map, StateT.run_bind, ht, ok_bind,
      StateT.run_map]
  | phi b type incoming => exact ⟨_, _, rfl, Draft.grows_phi type incoming⟩
  | handler b guard target =>
    obtain ⟨d', hrun, hgrows⟩ := Drafting.exists_handler guard target (hb b (by simp [writes]))
    exact ⟨.nothing, d', by simp [perform, hrun], hgrows⟩
  | goto b target =>
    exact Drafting.exists_instruction (.goto target) rfl (hb b (by simp [writes])) hv
  | branch b condition whenTrue whenFalse =>
    exact Drafting.exists_instruction (.branch condition whenTrue whenFalse) rfl
      (hb b (by simp [writes])) hv
  | ret b value =>
    exact Drafting.exists_instruction (.ret value) rfl (hb b (by simp [writes])) hv
  | raise b exception =>
    exact Drafting.exists_instruction (.throw exception) rfl (hb b (by simp [writes])) hv

/-- Steps in scope can all be made, one after the other. -/
theorem DraftStep.exists_performAll {steps : List DraftStep} {d : Draft}
    (hentry : d.body.HasBlock d.body.entry)
    (h : InScope d.body.blocks.length d.body.values.length steps) :
    ∃ made d', (steps.mapM perform).run d = .ok (made, d') ∧
      d.Grows d' (steps.countP (·.makesBlock)) (steps.countP (·.makesValue))
        (steps.flatMap laterBlocks) (pendings steps made) := by
  induction steps generalizing d with
  | nil => exact ⟨[], d, rfl, .refl d⟩
  | cons step steps ih =>
    obtain ⟨hb, hv, hrest⟩ := h
    obtain ⟨m, e, hrun, hgrows⟩ := step.exists_perform hentry hb hv
    have hentry' : e.body.HasBlock e.body.entry := by
      rw [Body.HasBlock, hgrows.length_blocks]
      exact Nat.lt_of_lt_of_le hentry (Nat.le_add_right _ _)
    obtain ⟨made, d', hruns, hgrows'⟩ := ih (d := e) hentry' (by
      rwa [hgrows.length_blocks, hgrows.length_values])
    refine ⟨m :: made, d', ?_, ?_⟩
    · rw [List.mapM_cons, StateT.run_bind, hrun, ok_bind, StateT.run_bind, hruns]
      rfl
    · rw [List.countP_cons, List.countP_cons, Nat.add_comm, Nat.add_comm (List.countP _ _)]
      exact hgrows.trans hgrows'

/-- What a step has made stands at its place. -/
theorem DraftStep.exists_run_of_mapM {steps : List DraftStep} {d d' : Draft} {made : List Created}
    (h : (steps.mapM perform).run d = .ok (made, d')) {n : Nat} {step : DraftStep}
    (hn : steps[n]? = some step) :
    ∃ m e e', made[n]? = some m ∧ step.perform.run e = .ok (m, e') := by
  induction steps generalizing d made n with
  | nil => simp at hn
  | cons a steps ih =>
    rw [List.mapM_cons, StateT.run_bind, bind_eq_ok] at h
    obtain ⟨⟨m, e⟩, hm, h⟩ := h
    rw [StateT.run_bind, bind_eq_ok] at h
    obtain ⟨⟨rest, e'⟩, hrest, h⟩ := h
    obtain ⟨rfl, rfl⟩ := Prod.mk.inj (Except.ok.inj h)
    cases n with
    | zero =>
      obtain rfl := Option.some.inj hn
      exact ⟨m, d, e, rfl, hm⟩
    | succ n => exact ih hrest hn

/-! ### The body that results -/

/-- A draft that lacks nothing to be sealed. -/
structure Draft.Complete (d : Draft) : Prop extends d.Sound where
  closed : d.body.Closed
  covered : d.Covered
  joins : ∀ q ∈ d.phis, d.body.HasBlock q.block ∧ ∀ e ∈ q.incoming, d.body.HasValue e.2

/-- Before the first step there is one block, and it is empty. -/
theorem Body.not_names_empty (method : MethodRef) (s : BlockId) :
    ¬ (Body.mk method [{}] [⟨0⟩] [] [] 0).Names s := by
  rintro (⟨i, op, hop, -⟩ | ⟨b, x, hx, h, hmem, -⟩)
  · simp [operation_eq_ok, instruction_eq_ok] at hop
  · rw [block_eq_ok, List.getElem?_singleton] at hx
    obtain rfl : {} = x := by split at hx <;> simp_all
    cases hmem

/-- Steps that name what exists leave nothing open. -/
theorem DraftStep.Named.exists_draft {steps : List DraftStep} (h : Named steps)
    (method : MethodRef) :
    ∃ made d, (steps.mapM perform).run { body := { method } } = .ok (made, d) ∧
      d.phis = pendings steps made ∧ d.Complete := by
  obtain ⟨made, d, hrun, hgrows⟩ :=
    exists_performAll (d := { body := { method } }) Nat.one_pos h.1
  have hblocks : ∀ step ∈ steps, ∀ b ∈ step.laterBlocks, d.body.HasBlock b := by
    intro step hstep b hb
    rw [Body.HasBlock, hgrows.length_blocks]
    exact (h.2 step hstep).1 b hb
  have hvalues : ∀ step ∈ steps, ∀ v ∈ step.laterValues, d.body.HasValue v := by
    intro step hstep v hv
    rw [Body.HasValue, hgrows.length_values]
    exact ((h.2 step hstep).2 v hv).trans_eq (Nat.zero_add _).symm
  have hphis : d.phis = pendings steps made := hgrows.phis
  refine ⟨made, d, hrun, hphis, ?_, ?_, ?_, ?_⟩
  · exact Drafting.Keeps.mapM keeps_perform steps _ _ _ (Draft.sound_empty method) hrun
  · refine Body.closed_of_names fun s hs => ?_
    rcases hgrows.names hs with hs | hs
    · exact absurd hs (Body.not_names_empty method s)
    · obtain ⟨step, hstep, hs⟩ := List.mem_flatMap.1 hs
      exact hblocks step hstep s hs
  · exact hgrows.covered fun v hv => absurd hv (Nat.not_lt_zero _)
  · intro q hq
    rw [hphis] at hq
    obtain ⟨n, type, hn, -⟩ := mem_pendings.1 hq
    have hstep := List.mem_of_getElem? hn
    exact ⟨hblocks _ hstep _ (List.mem_singleton.2 rfl), fun e he =>
      hvalues _ hstep _ (List.mem_map_of_mem he)⟩

namespace Body

/-- What the check says about a phi and what the phi reads follow from the pairs it was given. -/
def Resolves (x : Block) (incoming : List (BlockId × ValueId)) (found : List Violation)
    (phi : Phi) : Prop :=
  ((∃ b m n, .phiArity phi.out b m n ∈ found) ↔ ∃ p ∈ x.predecessors, ∀ v, (p, v) ∉ incoming) ∧
    ((∀ p ∈ x.predecessors, ∃ v, (p, v) ∈ incoming) →
      List.Forall₂ (FirstFor incoming) x.predecessors phi.operands)

/-- A pending phi is resolved when it is placed. -/
theorem resolves_of_settles {d : Draft} {c : Body} (h : d.Settles c) {q : PendingPhi} {x : Block}
    (hx : c.block q.block = .ok x)
    (hq : { out := q.out, operands := q.operands x.predecessors } ∈ x.phis)
    {found : List Violation} (hfound : ∀ e, e.isOfFlow = false → (e ∈ found ↔ c.WrongArity e)) :
    Resolves x q.incoming found { out := q.out, operands := q.operands x.predecessors } := by
  refine ⟨?_, q.forall₂_operands⟩
  have hlacks : (∃ p ∈ x.predecessors, ∀ v, (p, v) ∉ q.incoming) ↔
      (q.operands x.predecessors).length ≠ x.predecessors.length := by
    rw [Ne, q.length_operands_eq_iff]
    push Not
    rfl
  rw [hlacks]
  constructor
  · rintro ⟨b, m, n, he⟩
    obtain ⟨s, y, phi, hy, hphi, hne, heq⟩ := (hfound _ rfl).1 he
    -- the phi complained about is the one that outputs the same value
    obtain ⟨hout, -, -, -⟩ := Violation.phiArity.inj heq
    obtain ⟨rfl, rfl⟩ := h.intact.toTracksPhis.eq_of_out ⟨x, hx, hq⟩ ⟨y, hy, hphi⟩ hout
    obtain rfl : x = y := Except.ok.inj (hx.symm.trans hy)
    exact hne
  · intro hne
    exact ⟨_, _, _, (hfound _ rfl).2 ⟨q.block, x, _, hx, hq, hne, rfl⟩⟩

/-- A body written by steps that name what exists can be inconsistent in its flow and by phis that
lack operands only. A phi lacks one exactly if a predecessor has no pair; otherwise it reads the
first value given for each of the predecessors. -/
theorem violations_ofSteps (method : MethodRef) (steps : List DraftStep)
    (h : DraftStep.Named steps) :
    ∃ made c found, Body.ofSteps method steps = .ok (made, c) ∧ c.violations = .ok found ∧
      (∀ v, .duplicateDefinition v ∉ found) ∧ (∀ i v, .undefinedOperand i v ∉ found) ∧
      (∀ p v, .undefinedPhiOperand p v ∉ found) ∧ (∀ v i, .staleUsers v i ∉ found) ∧
      (∀ b s, .asymmetricEdge b s ∉ found) ∧
      (∀ (n : Nat) b type incoming, steps[n]? = some (.phi b type incoming) →
        ∃ x phi, c.block b = .ok x ∧ phi ∈ x.phis ∧ made[n]? = some (.value phi.out) ∧
          Resolves x incoming found phi) ∧
      ∀ b x phi, c.block b = .ok x → phi ∈ x.phis →
        ∃ (n : Nat) (type : StaticType) (incoming : List (BlockId × ValueId)),
          steps[n]? = some (.phi b type incoming) ∧ made[n]? = some (.value phi.out) := by
  obtain ⟨made, d, hrun, hphis, hd⟩ := h.exists_draft method
  obtain ⟨c, hseal, hc⟩ := hd.exists_seal hd.closed hd.joins
  have hdefined : ∀ v, c.HasValue v → c.IsDefined v := fun v =>
    hc.isDefined hd.covered fun q hq => (hd.joins q hq).1
  obtain ⟨found, hfound, hkinds⟩ :=
    exists_violations_of_defined hc.intact hc.mem_predecessors hc.closed hdefined
  have hother : ∀ e : Violation, e.isOfFlow = false → (∀ v b m n, e ≠ .phiArity v b m n) →
      e ∉ found := by
    intro e he hne hmem
    obtain ⟨b, x, phi, -, -, -, heq⟩ := (hkinds e he).1 hmem
    exact hne _ _ _ _ heq
  refine ⟨made, c, found, ?_, hfound, fun _ => hother _ rfl (by simp),
    fun _ _ => hother _ rfl (by simp), fun _ _ => hother _ rfl (by simp),
    fun _ _ => hother _ rfl (by simp), fun _ _ => hother _ rfl (by simp), ?_, ?_⟩
  · simp [Body.ofSteps, Body.write, hrun, hseal]
  · intro n b type incoming hn
    obtain ⟨m, e, e', hm, hphi⟩ := DraftStep.exists_run_of_mapM hrun hn
    obtain ⟨rfl, -⟩ := Prod.mk.inj (Except.ok.inj hphi)
    have hq : ⟨b, ⟨e.body.values.length⟩, incoming⟩ ∈ d.phis := by
      rw [hphis]
      exact DraftStep.mem_pendings.2 ⟨n, type, hn, hm⟩
    obtain ⟨x, hx, hmem⟩ := hc.hasPhi hq (hd.joins _ hq).1
    exact ⟨x, _, hx, hmem, hm, resolves_of_settles hc hx hmem hkinds⟩
  · intro b x phi hx hphi
    rw [hc.phis hx] at hphi
    obtain ⟨q, hfilter, rfl⟩ := List.mem_map.1 hphi
    obtain ⟨hq, hb⟩ := List.mem_filter.1 hfilter
    obtain rfl : q.block = b := by simpa using hb
    rw [hphis] at hq
    obtain ⟨n, type, hn, hm⟩ := DraftStep.mem_pendings.1 hq
    exact ⟨n, type, q.incoming, hn, hm⟩

/-- Block `1` is branched to twice, and its phi reads a value that is created later. The phi of
block `2`, which a handler leads to from the entry, has a pair for another block only. -/
def joining : List DraftStep :=
  [.newBlock, .newBlock, .argument (.primitive .int),
    .phi ⟨1⟩ (.primitive .int) [(⟨0⟩, ⟨3⟩), (⟨0⟩, ⟨0⟩)], .phi ⟨2⟩ (.primitive .int) [(⟨1⟩, ⟨0⟩)],
    .branch ⟨0⟩ ⟨0⟩ ⟨1⟩ ⟨1⟩, .handler ⟨0⟩ none ⟨2⟩, .number ⟨1⟩ 7, .ret ⟨1⟩ (some ⟨1⟩),
    .ret ⟨2⟩ (some ⟨2⟩)]

theorem violations_joining :
    DraftStep.Named joining ∧
      ∃ made c found, Body.ofSteps (.plain "A" "f") joining = .ok (made, c) ∧
        c.violations = .ok found ∧ (∀ b s, .asymmetricEdge b s ∉ found) ∧
        (∃ x phi, c.block ⟨1⟩ = .ok x ∧ phi ∈ x.phis ∧ x.predecessors = [⟨0⟩, ⟨0⟩] ∧
          List.Forall₂ (FirstFor [(⟨0⟩, ⟨3⟩), (⟨0⟩, ⟨0⟩)]) x.predecessors phi.operands) ∧
        ∃ b m n, .phiArity ⟨2⟩ b m n ∈ found := by
  have hnamed : DraftStep.Named joining := by decide
  obtain ⟨made', c', hwritten', hmade, ⟨x₁, hx₁, hpreds₁⟩, x₂, hx₂, hpreds₂⟩ :
      ∃ made c, Body.ofSteps (.plain "A" "f") joining = .ok (made, c) ∧
        made[4]? = some (.value ⟨2⟩) ∧
        (∃ x, c.block ⟨1⟩ = .ok x ∧ x.predecessors = [⟨0⟩, ⟨0⟩]) ∧
        ∃ x, c.block ⟨2⟩ = .ok x ∧ x.predecessors = [⟨0⟩] := by
    decide +kernel
  obtain ⟨made, c, found, hwritten, hfound, -, -, -, -, hedges, hphis, -⟩ :=
    violations_ofSteps (.plain "A" "f") joining hnamed
  obtain ⟨rfl, rfl⟩ := Prod.mk.inj (Except.ok.inj (hwritten'.symm.trans hwritten))
  refine ⟨hnamed, made', c', found, hwritten, hfound, hedges, ?_, ?_⟩
  · obtain ⟨y, phi, hy, hphi, -, -, hoperands⟩ := hphis 3 _ _ _ rfl
    obtain rfl : x₁ = y := Except.ok.inj (hx₁.symm.trans hy)
    exact ⟨x₁, phi, hx₁, hphi, hpreds₁, hoperands (by simp [hpreds₁])⟩
  · obtain ⟨y, phi, hy, hphi, hout, harity, -⟩ := hphis 4 _ _ _ rfl
    obtain rfl : x₂ = y := Except.ok.inj (hx₂.symm.trans hy)
    have hvalue : phi.out = ⟨2⟩ := by simpa using hout.symm.trans hmade
    rw [hvalue] at harity
    exact harity.2 ⟨⟨0⟩, by simp [hpreds₂], by simp⟩

end Body

end Devirt
