import Devirt.Proofs.Body.Placement
import Devirt.Proofs.Body.Records

/-!
Editing a body, one edit after another. Whatever edits are made, the records of the body stay right;
and every edit can be made that names only what is there, also if it goes by a dominator tree of some
other body.
-/

namespace Devirt

/-- An edit of a body. -/
inductive BodyEdit where
  | createBlock
  | createValue (type : StaticType)
  | setType (v : ValueId) (type : StaticType)
  | setDynamic (v : ValueId) (dynamic : Option ReferenceType)
  | setLocalName (v : ValueId) (name : String)
  | insertAt (b : BlockId) (index : Nat) (op : Operation)
  | append (b : BlockId) (op : Operation)
  | insertBefore (anchor : InstrId) (op : Operation)
  | replace (i : InstrId) (op : Operation)
  | addPhi (b : BlockId) (type : StaticType) (operands : List ValueId)
  | split (b : BlockId) (index : Nat)
  | redirectOperand (i : InstrId) (old new : ValueId)
  | redirectUses (t : DominatorTree) (old new : ValueId) (definer : InstrId)
      (excluded : List InstrId)
  deriving DecidableEq

/-- Makes an edit and drops what it tells besides. -/
def BodyEdit.apply (c : Body) : BodyEdit → Except Fault Body
  | .createBlock => .ok c.createBlock.2
  | .createValue type => .ok (c.createValue type).2
  | .setType v type => c.setType v type
  | .setDynamic v dynamic => c.setDynamic v dynamic
  | .setLocalName v name => c.setLocalName v name
  | .insertAt b index op => (·.2) <$> c.insertAt b index op
  | .append b op => (·.2) <$> c.append b op
  | .insertBefore anchor op => (·.2) <$> c.insertBefore anchor op
  | .replace i op => c.replace i op
  | .addPhi b type operands => (·.2) <$> c.addPhi b type operands
  | .split b index => (·.2) <$> c.split b index
  | .redirectOperand i old new => (·.2) <$> c.redirectOperand i old new
  | .redirectUses t old new definer excluded => (·.2) <$> c.redirectUses t old new definer excluded

namespace Body

def applyAll (c : Body) (edits : List BodyEdit) : Except Fault Body :=
  edits.foldlM BodyEdit.apply c

/-- The block has a place with this index, be it behind the last instruction. -/
def HasPlace (c : Body) (b : BlockId) (index : Nat) : Prop :=
  ∃ x, c.block b = .ok x ∧ index ≤ x.instructions.length

/-- The operation names values and blocks of the body. -/
def Knows (c : Body) (op : Operation) : Prop :=
  (∀ v ∈ op.mentions, c.HasValue v) ∧ ∀ b ∈ op.targets, c.HasBlock b

/-- All that the edit names is there. Excluded instructions need not be. -/
def Allows (c : Body) : BodyEdit → Prop
  | .createBlock | .createValue _ => True
  | .setType v _ | .setDynamic v _ | .setLocalName v _ => c.HasValue v
  | .insertAt b index op => c.HasPlace b index ∧ c.Knows op
  | .append b op => c.HasBlock b ∧ c.Knows op
  | .insertBefore i op | .replace i op => c.HasInstruction i ∧ c.Knows op
  | .addPhi b _ operands => c.HasBlock b ∧ ∀ v ∈ operands, c.HasValue v
  | .split b index => c.HasPlace b index
  | .redirectOperand i old new | .redirectUses _ old new i _ =>
    c.HasInstruction i ∧ c.HasValue old ∧ c.HasValue new

/-- Each edit names what is there when its turn comes. -/
def AllowsAll (c : Body) : List BodyEdit → Prop
  | [] => True
  | e :: edits => c.Allows e ∧ ∀ d, e.apply c = .ok d → d.AllowsAll edits

instance decidableKnows (c : Body) (op : Operation) : Decidable (c.Knows op) :=
  inferInstanceAs (Decidable (_ ∧ _))

instance decidableHasPlace (c : Body) (b : BlockId) (index : Nat) :
    Decidable (c.HasPlace b index) :=
  decidableExistsOk _ _

instance decidableAllows (c : Body) : (e : BodyEdit) → Decidable (c.Allows e)
  | .createBlock | .createValue _ => inferInstanceAs (Decidable True)
  | .setType v _ | .setDynamic v _ | .setLocalName v _ => inferInstanceAs (Decidable (c.HasValue v))
  | .insertAt b index op => inferInstanceAs (Decidable (c.HasPlace b index ∧ c.Knows op))
  | .append b op => inferInstanceAs (Decidable (c.HasBlock b ∧ c.Knows op))
  | .insertBefore i op | .replace i op => inferInstanceAs (Decidable (c.HasInstruction i ∧ c.Knows op))
  | .addPhi b _ operands => inferInstanceAs (Decidable (c.HasBlock b ∧ ∀ v ∈ operands, c.HasValue v))
  | .split b index => inferInstanceAs (Decidable (c.HasPlace b index))
  | .redirectOperand i old new | .redirectUses _ old new i _ =>
    inferInstanceAs (Decidable (c.HasInstruction i ∧ c.HasValue old ∧ c.HasValue new))

instance decidableAllowsAll : ∀ (edits : List BodyEdit) (c : Body), Decidable (c.AllowsAll edits)
  | [], _ => isTrue trivial
  | e :: edits, c =>
    have : DecidablePred fun d : Body => d.AllowsAll edits := decidableAllowsAll edits
    inferInstanceAs (Decidable (c.Allows e ∧ ∀ d, e.apply c = .ok d → d.AllowsAll edits))

/-- The body has been written and then edited. -/
inductive Edited : Body → Prop
  | written {method : MethodRef} {steps : List DraftStep} {made : List Created} {c : Body}
      (h : Body.ofSteps method steps = .ok (made, c)) : Edited c
  | edit {c d : Body} {e : BodyEdit} (h : Edited c) (hd : e.apply c = .ok d) : Edited d

variable {c d : Body} {b s : BlockId} {i j : InstrId} {v old new : ValueId} {op : Operation}
  {x : Block} {index : Nat} {t : DominatorTree}

theorem insertBefore_eq_ok (h : c.insertBefore i op = .ok (j, d)) :
    ∃ b index, c.insertAt b index op = .ok (j, d) := by
  simp only [insertBefore, bind_eq_ok] at h
  obtain ⟨b, -, x, -, o, -, h⟩ := h
  exact ⟨b, _, h⟩

theorem addPhi_eq_ok {type : StaticType} {operands : List ValueId} :
    c.addPhi b type operands = .ok (v, d) ↔
      c.HasBlock b ∧ (∀ u ∈ operands, (c.createValue type).2.HasValue u) ∧ v = ⟨c.values.length⟩ ∧
        d = (c.createValue type).2.withPhi b { out := ⟨c.values.length⟩, operands } := by
  have hnext : (c.createValue type).2.HasValue ⟨c.values.length⟩ := hasValue_createValue.2 (.inr rfl)
  simp only [addPhi, bind_eq_ok, pure_eq_ok, Except.ok.injEq, Prod.mk.injEq]
  constructor
  · rintro ⟨e, he, rfl, rfl⟩
    obtain ⟨hb, -, hoperands, rfl⟩ := placePhi_eq_ok.1 he
    exact ⟨hb, hoperands, rfl, rfl⟩
  · rintro ⟨hb, hoperands, rfl, rfl⟩
    exact ⟨_, placePhi_eq_ok.2 ⟨hb, hnext, hoperands, rfl⟩, rfl, rfl⟩

/-! ### The records follow every edit -/

namespace Recorded

variable (hc : c.Recorded)
include hc

/-- A change of what is known about a value alone. -/
theorem modifyValue {f : Value → Value}
    (hf : ∀ y, (f y).users = y.users ∧ (f y).phiUsers = y.phiUsers ∧
      (f y).definition = y.definition)
    (hd : c.modifyValue v f = .ok d) : d.Recorded := by
  obtain ⟨-, rfl⟩ := modifyValue_eq_ok.1 hd
  apply hc.updateValues
  intro w y
  split
  · exact hf y
  · exact ⟨rfl, rfl, rfl⟩

theorem insertAt (hd : c.insertAt b index op = .ok (i, d)) : d.Recorded := by
  obtain ⟨⟨x, hx, hindex⟩, hmentions, -, rfl⟩ := insertAt_eq_ok.1 hd
  exact hc.inserted hx hindex hmentions

theorem addPhi {type : StaticType} {operands : List ValueId}
    (hd : c.addPhi b type operands = .ok (v, d)) : d.Recorded := by
  obtain ⟨hb, hoperands, -, rfl⟩ := addPhi_eq_ok.1 hd
  apply (hc.createValue type).withPhi hb
  · exact List.forall_mem_cons.2 ⟨hasValue_createValue.2 (.inr rfl), hoperands⟩
  · intro s q hq hout
    have hold : c.HasValue q.out := hc.phi_hasValue hq _ List.mem_cons_self
    exact not_hasValue_next (hout ▸ hold)

/-- Whatever an edit does, the records follow. -/
theorem apply {e : BodyEdit} (hd : e.apply c = .ok d) : d.Recorded := by
  cases e with
  | createBlock =>
    obtain rfl := Except.ok.inj hd
    exact hc.createBlock
  | createValue type =>
    obtain rfl := Except.ok.inj hd
    exact hc.createValue type
  | setType v type => exact hc.modifyValue (f := fun y => { y with type }) (fun _ => ⟨rfl, rfl, rfl⟩) hd
  | setDynamic v dynamic =>
    exact hc.modifyValue (f := fun y => { y with dynamic }) (fun _ => ⟨rfl, rfl, rfl⟩) hd
  | setLocalName v name =>
    exact hc.modifyValue (f := fun y => { y with localName := some name })
      (fun _ => ⟨rfl, rfl, rfl⟩) hd
  | insertAt b index op =>
    obtain ⟨⟨i, e⟩, he, rfl⟩ := map_eq_ok.1 hd
    exact hc.insertAt he
  | append b op =>
    obtain ⟨⟨i, e⟩, he, rfl⟩ := map_eq_ok.1 hd
    obtain ⟨x, -, he⟩ := bind_eq_ok.1 he
    exact hc.insertAt he
  | insertBefore anchor op =>
    obtain ⟨⟨i, e⟩, he, rfl⟩ := map_eq_ok.1 hd
    obtain ⟨b, index, he⟩ := insertBefore_eq_ok he
    exact hc.insertAt he
  | replace i op =>
    obtain ⟨old, hold, -, hmentions, rfl⟩ := replace_eq_ok.1 hd
    exact hc.replaced hold hmentions
  | addPhi b type operands =>
    obtain ⟨⟨v, e⟩, he, rfl⟩ := map_eq_ok.1 hd
    exact hc.addPhi he
  | split b index =>
    obtain ⟨⟨tail, e⟩, he, rfl⟩ := map_eq_ok.1 hd
    exact hc.split he
  | redirectOperand i old new =>
    obtain ⟨⟨changed, e⟩, he, rfl⟩ := map_eq_ok.1 hd
    exact hc.redirectOperand he
  | redirectUses t old new definer excluded =>
    obtain ⟨⟨r, e⟩, he, rfl⟩ := map_eq_ok.1 hd
    exact hc.redirectUses he

theorem applyAll {edits : List BodyEdit} (hd : c.applyAll edits = .ok d) : d.Recorded :=
  foldlM_invariant Recorded hd hc fun _ _ _ _ hx hy => hx.apply hy

end Recorded

theorem Edited.recorded (hc : Edited c) : c.Recorded := by
  induction hc with
  | written h => exact recorded_of_intact (intact_of_ofSteps h)
  | edit _ hd ih => exact ih.apply hd

theorem Edited.applyAll {edits : List BodyEdit} (hc : Edited c) (hd : c.applyAll edits = .ok d) :
    Edited d :=
  foldlM_invariant Edited hd hc fun _ _ _ _ hx hy => .edit hx hy

/-! ### Edges lead to blocks of the body -/

/-- Edges depend on the instructions and the handlers of blocks alone. -/
theorem edge_of_updateBlocks {g : BlockId → Block → Block}
    (hg : ∀ b x, (g b x).instructions = x.instructions ∧ (g b x).handlers = x.handlers)
    (hedge : (c.updateBlocks g).Edge b s) : c.Edge b s := by
  rcases hedge with ⟨z, i, op, hz, hlast, hop, hs⟩ | ⟨z, hz, h, hh, hs⟩
  · obtain ⟨x, hx, rfl⟩ := block_updateBlocks.1 hz
    rw [(hg b x).1] at hlast
    exact .inl ⟨x, i, op, hx, hlast, hop, hs⟩
  · obtain ⟨x, hx, rfl⟩ := block_updateBlocks.1 hz
    rw [(hg b x).2] at hh
    exact .inr ⟨x, hx, h, hh, hs⟩

namespace Closed

theorem updateBlocks (hclosed : c.Closed) {g : BlockId → Block → Block}
    (hg : ∀ b x, (g b x).instructions = x.instructions ∧ (g b x).handlers = x.handlers) :
    (c.updateBlocks g).Closed := by
  intro b s hedge
  rw [hasBlock_updateBlocks]
  exact hclosed b s (edge_of_updateBlocks hg hedge)

theorem updateOperation (hclosed : c.Closed) {f : Operation → Operation}
    (hf : ∀ op, c.operation i = .ok op → ∀ s ∈ (f op).targets, s ∈ op.targets ∨ c.HasBlock s) :
    (c.updateOperation i f).Closed := by
  intro b s hedge
  rcases hedge with ⟨x, j, op', hx, hlast, hop', hs⟩ | hhandles
  · obtain ⟨op, hop, rfl⟩ := operation_updateOperation.1 hop'
    split at hs
    · rename_i hji
      subst hji
      rcases hf op hop s hs with hs | hs
      · exact hclosed b s (.inl ⟨x, j, op, hx, hlast, hop, hs⟩)
      · exact hs
    · exact hclosed b s (.inl ⟨x, j, op, hx, hlast, hop, hs⟩)
  · exact hclosed b s (.inr hhandles)

theorem createBlock (hclosed : c.Closed) : c.createBlock.2.Closed := by
  intro b s hedge
  apply hasBlock_pushBlock.2
  rcases hedge with ⟨x, i, op, hx, hlast, hop, hs⟩ | ⟨x, hx, h, hh, hs⟩
  · rcases block_createBlock.1 hx with hx | ⟨-, rfl⟩
    · exact .inl (hclosed b s (.inl ⟨x, i, op, hx, hlast, hop, hs⟩))
    · cases hlast
  · rcases block_createBlock.1 hx with hx | ⟨-, rfl⟩
    · exact .inl (hclosed b s (.inr ⟨x, hx, h, hh, hs⟩))
    · cases hh

theorem inserted (hclosed : c.Closed) (hx : c.block b = .ok x)
    (hindex : index ≤ x.instructions.length) (htargets : ∀ s ∈ op.targets, c.HasBlock s) :
    (c.inserted b index op).Closed := by
  intro r s hedge
  rw [hasBlock_inserted]
  rcases hedge with ⟨z, i, op', hz, hlast, hop', hs⟩ | ⟨z, hz, h, hh, hs⟩
  · rcases operation_inserted.1 hop' with hop | ⟨-, rfl⟩
    · obtain ⟨y, hy, rfl⟩ := block_inserted.1 hz
      -- an old instruction that is the last one now has been the last one before
      have hold : y.instructions.getLast? = some i := by
        split at hlast
        · rename_i hr
          subst hr
          obtain rfl := Except.ok.inj (hy.symm.trans hx)
          rcases Nat.lt_or_eq_of_le hindex with hlt | heq
          · rwa [getLast?_insertIdx hlt] at hlast
          · obtain rfl := Option.some.inj ((getLast?_insertIdx_length heq).symm.trans hlast)
            exact absurd hop operation_next_ne_ok
        · exact hlast
      exact hclosed r s (.inl ⟨y, i, op', hy, hold, hop, hs⟩)
    · exact htargets s hs
  · obtain ⟨y, hy, rfl⟩ := block_inserted.1 hz
    refine hclosed r s (.inr ⟨y, hy, h, ?_, hs⟩)
    split at hh <;> exact hh

theorem updateValues (hclosed : c.Closed) (g : ValueId → Value → Value) :
    (c.updateValues g).Closed := hclosed

theorem withPhi (hclosed : c.Closed) {phi : Phi} : (c.withPhi b phi).Closed := by
  apply (hclosed.updateValues _).updateBlocks
  intro s x
  split <;> exact ⟨rfl, rfl⟩

theorem redirectOperand (hclosed : c.Closed) {changed : Bool}
    (hd : c.redirectOperand i old new = .ok (changed, d)) : d.Closed := by
  obtain ⟨op, -, hd⟩ := redirectOperand_eq_ok.1 hd
  split at hd
  · rw [hd.2.2.2]
    apply hclosed.updateOperation
    intro op _ s hs
    rw [Operation.replaceOperand, Operation.targets_mapOperands] at hs
    exact .inl hs
  · rw [hd.2]
    exact hclosed

theorem redirectPhi (hclosed : c.Closed) {phi : ValueId} {changed : Bool}
    (hd : c.redirectPhi t old new phi = .ok (changed, d)) : d.Closed := by
  rcases redirectPhi_eq_ok hd with ⟨-, rfl⟩ | ⟨b, x, p, edges, -, -, -, -, -, -, -, rfl⟩
  · exact hclosed
  · apply Closed.updateValues
    apply hclosed.updateBlocks
    intro s x
    split <;> exact ⟨rfl, rfl⟩

section Cut

variable {g : BlockId → Block → Block} {r : BlockId} {z : Block} (hg : MovesEdges g)
  (hx : c.block b = .ok x)
include hg hx

theorem length_head_cut (hindex : index ≤ x.instructions.length)
    (hz : ((c.cut b index x).updateBlocks g).block b = .ok z) : z.instructions.length = index := by
  obtain ⟨w, hw, rfl⟩ := block_updateBlocks.1 hz
  obtain rfl := Except.ok.inj (hw.symm.trans (block_cut.2 (.inl ⟨x, hx, if_pos rfl⟩)))
  rw [(hg b _).1]
  exact List.length_take_of_le hindex

/-- All blocks but the head end as blocks of the body have ended, and handlers stay. -/
theorem exists_block_of_cut (hz : ((c.cut b index x).updateBlocks g).block r = .ok z) :
    ∃ p y, c.block p = .ok y ∧ z.handlers = y.handlers ∧
      (r ≠ b → ∀ i, z.instructions.getLast? = some i → y.instructions.getLast? = some i) := by
  obtain ⟨w, hw, rfl⟩ := block_updateBlocks.1 hz
  rw [(hg r w).1, (hg r w).2.1]
  rcases block_cut.1 hw with ⟨y, hy, rfl⟩ | ⟨-, rfl⟩
  · refine ⟨r, y, hy, ?_, fun hr i hi => ?_⟩
    · split <;> rfl
    · rwa [if_neg hr] at hi
  · refine ⟨b, x, hx, rfl, fun _ i hi => ?_⟩
    simp only [splitTail, List.getLast?_drop] at hi
    split at hi
    · cases hi
    · exact hi

end Cut

/-- Edges out of the two halves of a block have been edges out of it, except the one between them. -/
theorem split (hclosed : c.Closed) (hc : c.Arranged) {tail : BlockId}
    (hd : c.split b index = .ok (tail, d)) : d.Closed := by
  obtain ⟨x, g, version, hx, hindex, rfl, hg, rfl⟩ := split_cases hc hd
  show (((c.cut b index x).updateBlocks g).inserted b index (.goto ⟨c.blocks.length⟩)).Closed
  intro r s hedge
  rw [hasBlock_inserted, hasBlock_updateBlocks, hasBlock_cut]
  rcases hedge with ⟨z, i, op, hz, hlast, hop, hs⟩ | ⟨z, hz, h, hh, hs⟩
  · obtain ⟨w, hw, rfl⟩ := block_inserted.1 hz
    rcases operation_inserted.1 hop with hop' | ⟨-, rfl⟩
    · by_cases hr : r = b
      · subst hr
        have hlength := length_head_cut hg hx hindex hw
        rw [if_pos rfl] at hlast
        obtain rfl := Option.some.inj ((getLast?_insertIdx_length hlength.symm).symm.trans hlast)
        exact absurd hop' operation_next_ne_ok
      · rw [if_neg hr] at hlast
        obtain ⟨p, y, hy, -, hends⟩ := exists_block_of_cut hg hx hw
        have hold : c.operation i = .ok op := operation_cut.symm.trans hop'
        exact .inl (hclosed p s (.inl ⟨y, i, op, hy, hends hr i hlast, hold, hs⟩))
    · exact .inr (List.mem_singleton.1 hs)
  · obtain ⟨w, hw, rfl⟩ := block_inserted.1 hz
    obtain ⟨p, y, hy, hhandlers, -⟩ := exists_block_of_cut hg hx hw
    have hmem : h ∈ y.handlers := by
      rw [← hhandlers]
      split at hh <;> exact hh
    exact .inl (hclosed p s (.inr ⟨y, hy, h, hmem, hs⟩))

end Closed

/-- The body has the blocks of the other one, and all its edges are edges there. -/
def EdgesWithin (c d : Body) : Prop :=
  (∀ b s, c.Edge b s → d.Edge b s) ∧ ∀ b, c.HasBlock b ↔ d.HasBlock b

theorem EdgesWithin.modifyBlock {e : Body} (hc : c.EdgesWithin e) {f : Block → Block}
    (hd : c.modifyBlock b f = .ok d)
    (hf : ∀ x, (f x).instructions = x.instructions ∧ (f x).handlers = x.handlers) :
    d.EdgesWithin e := by
  obtain ⟨-, rfl⟩ := modifyBlock_eq_ok.1 hd
  constructor
  · intro r s hedge
    apply hc.1
    apply edge_of_updateBlocks _ hedge
    intro b x
    split
    · exact hf x
    · exact ⟨rfl, rfl⟩
  · intro r
    rw [hasBlock_updateBlocks]
    exact hc.2 r

/-- Predecessors can be settled only if every edge leads to a block. -/
theorem closed_of_connect (hc : c.Arranged) (hd : c.connect = .ok d) : d.Closed := by
  -- the body without predecessors, from which `connect` sets out
  obtain ⟨e, he, hblank⟩ : ∃ e : Body,
      e = { c with blocks := (c.blocks.map fun x => { x with predecessors := [] }) } ∧ e.Arranged := by
    have hmap : (c.blocks.map fun x => { x with predecessors := [] }) =
        c.blocks.mapIdx fun _ x => { x with predecessors := [] } := List.ext_getElem? (by simp)
    refine ⟨c.updateBlocks fun _ x => { x with predecessors := [] }, ?_, ?_⟩
    · rw [hmap]
      rfl
    · exact hc.congr rfl (map_block_updateBlocks fun _ _ => rfl) fun _ => rfl
  simp only [connect, ← he, bind_eq_ok] at hd
  obtain ⟨edges, hedges, hd⟩ := hd
  have hstart : e.EdgesWithin e := ⟨fun _ _ => id, fun _ => Iff.rfl⟩
  have hstep : ∀ (p s : BlockId) (x y : Body), x.EdgesWithin e →
      (x.modifyBlock s fun z => { z with predecessors := z.predecessors ++ [p] }) = .ok y →
      y.EdgesWithin e := fun p s x y hx hy => hx.modifyBlock hy fun _ => ⟨rfl, rfl⟩
  have hsteps : ∀ (p : BlockId) (targets : List BlockId) (x y : Body), x.EdgesWithin e →
      targets.foldlM (fun x s => x.modifyBlock s fun z =>
        { z with predecessors := z.predecessors ++ [p] }) x = .ok y → y.EdgesWithin e :=
    fun p targets x y hx hy => foldlM_invariant (·.EdgesWithin e) hy hx fun s _ => hstep p s
  have hend : d.EdgesWithin e :=
    foldlM_invariant (·.EdgesWithin e) hd hstart fun q _ => hsteps q.1 q.2
  intro b s hedge
  have hedge' := hend.1 b s hedge
  obtain ⟨x, hx⟩ := hedge'.exists_block
  obtain ⟨l, hl⟩ := hblank.exists_successors hx
  have hb : b ∈ c.order := (congrArg order he) ▸ (hblank.mem_order b).2 (hasBlock_of_block hx)
  have hmem : (b, l) ∈ edges := (mem_of_mapM_eq_ok hedges).2 ⟨b, hb, by simp [hl]⟩
  have hs : s ∈ l := (mem_successors hl).2 hedge'
  -- when this edge had its turn, its target was there
  obtain ⟨f, f', hf, hf'⟩ :=
    exists_step_of_foldlM (·.EdgesWithin e) hd hstart (fun q _ => hsteps q.1 q.2) (b, l) hmem
  obtain ⟨g, g', hg, hg'⟩ :=
    exists_step_of_foldlM (·.EdgesWithin e) hf' hf (fun s _ => hstep b s) s hs
  have hthere : g.HasBlock s := (modifyBlock_eq_ok.1 hg').1
  rw [hend.2, ← hg.2]
  exact hthere

theorem closed_of_ofSteps {method : MethodRef} {steps : List DraftStep} {made : List Created}
    (h : Body.ofSteps method steps = .ok (made, c)) : c.Closed := by
  simp only [Body.ofSteps, Body.write, bind_eq_ok, pure_eq_ok, Except.ok.injEq,
    Prod.mk.injEq] at h
  obtain ⟨⟨made', draft⟩, hrun, c', hseal, -, rfl⟩ := h
  have hdraft := Drafting.Keeps.mapM DraftStep.keeps_perform steps _ _ _
    (Draft.sound_empty method) hrun
  simp only [Draft.seal, bind_eq_ok] at hseal
  obtain ⟨e, he, hphis⟩ := hseal
  refine foldlM_invariant Closed hphis (closed_of_connect hdraft.intact.toArranged he) ?_
  intro p _ x y hx hy
  obtain ⟨z, -, hy⟩ := bind_eq_ok.1 hy
  obtain ⟨-, -, -, rfl⟩ := placePhi_eq_ok.1 hy
  exact hx.withPhi

/-! ### Edits that can be made -/

/-- The place of an instruction can be looked up. -/
theorem Arranged.exists_index? (hc : c.Arranged) (hi : c.HasInstruction i) :
    ∃ b x k, c.blockOf i = .ok b ∧ c.block b = .ok x ∧ c.index? i = .ok (some k) ∧
      k < x.instructions.length := by
  obtain ⟨op, hop⟩ := hi.exists_operation
  obtain ⟨b, x, hb, hx, hmem⟩ := hc.exists_place hop
  obtain ⟨k, hk⟩ := List.mem_iff_getElem?.1 hmem
  exact ⟨b, x, k, hb, hx, hc.index?_eq_ok hx hk, (List.getElem?_eq_some_iff.1 hk).1⟩

namespace Recorded

variable (hc : c.Recorded) (hclosed : c.Closed)
include hc hclosed

theorem exists_availableIn (hv : c.HasValue v) : ∃ r, c.availableIn t v b = .ok r := by
  obtain ⟨y, hy⟩ := exists_value_iff.2 hv
  cases hdef : y.definition with
  | undefined => simp [availableIn, availableFrom?, hy, hdef]
  | phi s => simp [availableIn, availableFrom?, hy, hdef]
  | instruction i =>
    obtain ⟨op, hop, -⟩ := hc.definition_instruction hy hdef
    obtain ⟨z, hz, rfl⟩ := operation_eq_ok.1 hop
    obtain ⟨x, hx, -⟩ := hc.recorded (blockOf_of_instruction hz)
    obtain ⟨l, hl⟩ := hc.exists_normalSuccessors hx
    simp only [availableIn, availableFrom?, hy, hdef, hz, hx, hl, ok_bind]
    split
    · split
      · rename_i next
        obtain ⟨w, hw⟩ := exists_block_iff.2
          (hclosed z.block next (.inl ((mem_normalSuccessors hl).1 (List.mem_singleton_self _))))
        simp [hw]
      · exact ⟨_, rfl⟩
    · exact ⟨_, rfl⟩

theorem exists_availableOnEdge (hv : c.HasValue v) :
    ∃ r, c.availableOnEdge t v s b = .ok r := by
  obtain ⟨y, hy⟩ := exists_value_iff.2 hv
  obtain ⟨r, hr⟩ := hc.exists_availableIn (t := t) (b := s) hclosed hv
  cases hdef : y.definition with
  | undefined => exact ⟨r, by simp [availableOnEdge, hy, hdef, hr]⟩
  | phi p => exact ⟨r, by simp [availableOnEdge, hy, hdef, hr]⟩
  | instruction i =>
    obtain ⟨op, hop, -⟩ := hc.definition_instruction hy hdef
    obtain ⟨z, hz, rfl⟩ := operation_eq_ok.1 hop
    simp only [availableOnEdge, hy, hdef, hz, ok_bind]
    split
    · rename_i hblock
      obtain ⟨x, hx, -⟩ := hc.recorded (blockOf_of_instruction hz)
      obtain ⟨l, hl, -⟩ := exists_leavesByHandler (b := b) hc.toArranged
        (hblock ▸ hasBlock_of_block hx)
      simp [hl]
    · exact ⟨r, hr⟩

theorem exists_redirectUser {definer : InstrId} (hdefiner : c.HasInstruction definer)
    (hi : c.HasInstruction i) (hold : c.HasValue old) (hnew : c.HasValue new) :
    ∃ changed d, c.redirectUser t old new definer i = .ok (changed, d) := by
  obtain ⟨b, x, k, hb, -, hk, -⟩ := hc.exists_index? hdefiner
  obtain ⟨b', x', k', hb', -, hk', -⟩ := hc.exists_index? hi
  obtain ⟨available, havailable⟩ := hc.exists_availableIn (t := t) (b := b') hclosed hnew
  obtain ⟨after, hafter⟩ : ∃ r, c.standsAfter t definer new i = .ok r := by
    simp only [standsAfter, hb, hb', hk, hk', ok_bind, havailable]
    split <;> exact ⟨_, rfl⟩
  obtain ⟨op, hop⟩ := hi.exists_operation
  simp only [redirectUser, hafter, ok_bind]
  split
  · by_cases hmem : old ∈ op.operands
    · exact ⟨true, _, redirectOperand_of_mem hop hmem hold hnew⟩
    · exact ⟨false, c, redirectOperand_eq_ok.2 ⟨op, hop, by simp [hmem]⟩⟩
  · exact ⟨false, c, rfl⟩

theorem exists_redirectPhi {phi : ValueId} (hphi : c.HasValue phi) (hold : c.HasValue old)
    (hnew : c.HasValue new) : ∃ changed d, c.redirectPhi t old new phi = .ok (changed, d) := by
  obtain ⟨y, hy⟩ := exists_value_iff.2 hphi
  unfold Body.redirectPhi
  simp only [hy, ok_bind]
  split
  · rename_i b hdef
    obtain ⟨p, ⟨x, hx, -⟩, -⟩ := hc.definition_phi hy hdef
    obtain ⟨edges, hedges⟩ := exists_mapM_eq_ok.2 fun source (_ : source ∈ x.predecessors) =>
      hc.exists_availableOnEdge (t := t) (s := source) (b := b) hclosed hnew
    simp only [hx, ok_bind]
    split
    · rename_i p hp
      simp only [hedges, ok_bind]
      split
      · exact ⟨false, c, rfl⟩
      · rw [modifyBlock_eq_ok.2 ⟨hasBlock_of_block hx, rfl⟩, ok_bind]
        split
        · simp only [pure_eq_ok, ok_bind, addPhiUser]
          rw [modifyValue_eq_ok.2 ⟨by simpa using hnew, rfl⟩]
          exact ⟨true, _, rfl⟩
        · simp only [removePhiUser, addPhiUser]
          rw [modifyValue_eq_ok.2 ⟨by simpa using hold, rfl⟩, ok_bind,
            modifyValue_eq_ok.2 ⟨by simpa using hnew, rfl⟩]
          exact ⟨true, _, rfl⟩
    · exact ⟨false, c, rfl⟩
  · exact ⟨false, c, rfl⟩

end Recorded

/-- The second body is in order, and has the values and instructions of the first one. -/
structure Grown (c d : Body) : Prop where
  recorded : d.Recorded
  closed : d.Closed
  hasValue : ∀ v, d.HasValue v ↔ c.HasValue v
  hasInstruction : ∀ i, c.HasInstruction i → d.HasInstruction i

namespace Grown

variable {e : Body} (hd : c.Grown d)
include hd

theorem redirectUser {definer : InstrId} {changed : Bool}
    (he : d.redirectUser t old new definer i = .ok (changed, e)) : c.Grown e := by
  rcases redirectUser_cases he with rfl | he
  · exact hd
  have hrecorded := hd.recorded.redirectOperand he
  have hclosed := hd.closed.redirectOperand he
  obtain ⟨op, -, he⟩ := redirectOperand_eq_ok.1 he
  split at he
  · obtain ⟨-, -, -, rfl⟩ := he
    exact ⟨hrecorded, hclosed, fun v => hasValue_redirected.trans (hd.hasValue v),
      fun j hj => hasInstruction_redirected.2 (hd.hasInstruction j hj)⟩
  · rw [he.2]
    exact hd

theorem redirectPhi {phi : ValueId} {changed : Bool}
    (he : d.redirectPhi t old new phi = .ok (changed, e)) : c.Grown e := by
  have hrecorded := hd.recorded.redirectPhi he
  have hclosed := hd.closed.redirectPhi he
  rcases redirectPhi_eq_ok he with ⟨-, rfl⟩ | ⟨b, x, p, edges, -, -, -, -, -, -, -, rfl⟩
  · exact hd
  · exact ⟨hrecorded, hclosed, fun v => hasValue_phiRedirected.trans (hd.hasValue v),
      hd.hasInstruction⟩

end Grown

namespace Recorded

variable (hc : c.Recorded) (hclosed : c.Closed)
include hc hclosed

theorem exists_redirectUses {definer : InstrId} {excluded : List InstrId}
    (hdefiner : c.HasInstruction definer) (hold : c.HasValue old) (hnew : c.HasValue new) :
    ∃ q, c.redirectUses t old new definer excluded = .ok q ∧ q.2.Closed := by
  have hstart : c.Grown c := ⟨hc, hclosed, fun _ => Iff.rfl, fun _ => id⟩
  obtain ⟨q, hq, hgrown⟩ : ∃ q, c.redirectUses t old new definer excluded = .ok q ∧ c.Grown q.2 := by
    apply redirectUses_total c.Grown hstart
    · intro e he
      exact (he.hasValue old).2 hold
    · intro i y hy hi e he
      obtain ⟨op, hop, -⟩ := (hc.users hy i).1 hi
      obtain ⟨changed, e', hrun⟩ := he.recorded.exists_redirectUser (t := t) he.closed
        (he.hasInstruction definer hdefiner) (he.hasInstruction i (hasInstruction_of_operation hop))
        ((he.hasValue old).2 hold) ((he.hasValue new).2 hnew)
      exact ⟨changed, e', hrun, he.redirectUser hrun⟩
    · intro phi e y he hy hphi f hf
      obtain ⟨b, p, hp, rfl, -⟩ := (he.recorded.phiUsers hy phi).1 hphi
      have hout : e.HasValue p.out := he.recorded.phi_hasValue hp _ List.mem_cons_self
      obtain ⟨changed, f', hrun⟩ := hf.recorded.exists_redirectPhi (t := t) hf.closed
        ((hf.hasValue _).2 ((he.hasValue _).1 hout)) ((hf.hasValue old).2 hold)
        ((hf.hasValue new).2 hnew)
      exact ⟨changed, f', hrun, hf.redirectPhi hrun⟩
  exact ⟨q, hq, hgrown.closed⟩

/-- The jumps of the tail are there, so they can be given to it. -/
theorem exists_split (hplace : c.HasPlace b index) :
    ∃ q, c.split b index = .ok q ∧ q.2.Closed := by
  obtain ⟨x, hx, hindex⟩ := hplace
  have hins : ∀ i ∈ x.instructions, c.HasInstruction i := fun i hi =>
    exists_instruction_iff.1 ((hc.exists_instruction hx hi).imp fun _ h => h.1)
  have htail : (c.cut b index x).block ⟨c.blocks.length⟩ = .ok (splitTail b index x) :=
    block_cut.2 (.inr ⟨rfl, rfl⟩)
  have hhead : (c.cut b index x).block b = .ok { x with instructions := x.instructions.take index } :=
    block_cut.2 (.inl ⟨x, hx, if_pos rfl⟩)
  obtain ⟨jumps, hjumps⟩ := (hc.toArranged.cut hx).exists_normalSuccessors htail
  have htargets : ∀ s ∈ jumps, (c.cut b index x).HasBlock s := by
    intro s hs
    obtain ⟨z, i, op, hz, hlast, hop, hs⟩ := (mem_normalSuccessors hjumps).1 hs
    obtain rfl := Except.ok.inj (hz.symm.trans htail)
    simp only [splitTail, List.getLast?_drop] at hlast
    split at hlast
    · cases hlast
    · exact hasBlock_cut.2 (.inl (hclosed b s
        (.inl ⟨x, i, op, hx, hlast, operation_cut.symm.trans hop, hs⟩)))
  have hhandlers : ∀ h ∈ x.handlers, (c.cut b index x).HasBlock h.target := fun h hh =>
    hasBlock_cut.2 (.inl (hclosed b h.target (.inr ⟨x, hx, h, hh, rfl⟩)))
  obtain ⟨q, hq⟩ : ∃ q, c.split b index = .ok q := by
    rw [split_eq_cut hx hindex hins, hjumps, ok_bind,
      foldlM_modifyBlock_eq_ok.2 ⟨htargets, rfl⟩, ok_bind,
      foldlM_modifyBlock_eq_ok.2 ⟨fun h hh => hasBlock_updateBlocks.2 (hhandlers h hh), rfl⟩, ok_bind,
      append_eq_ok.2 ⟨_, block_updateBlocks.2 ⟨_, block_updateBlocks.2 ⟨_, hhead, rfl⟩, rfl⟩,
        by simp [Operation.mentions, Operation.out?, Operation.operands], rfl, rfl⟩]
    exact ⟨_, rfl⟩
  exact ⟨q, hq, hclosed.split hc.toArranged hq⟩

omit hc in
theorem exists_insertAt (hplace : c.HasPlace b index) (hop : c.Knows op) :
    ∃ q, c.insertAt b index op = .ok q ∧ q.2.Closed := by
  obtain ⟨x, hx, hindex⟩ := id hplace
  exact ⟨_, insertAt_eq_ok.2 ⟨hplace, hop.1, rfl, rfl⟩, hclosed.inserted hx hindex hop.2⟩

/-- Every edit can be made that names only what is there. -/
theorem exists_apply {e : BodyEdit} (he : c.Allows e) : ∃ d, e.apply c = .ok d ∧ d.Closed := by
  have hsecond : ∀ {α : Type} {x : Except Fault (α × Body)}, (∃ q, x = .ok q ∧ q.2.Closed) →
      ∃ d, (·.2) <$> x = .ok d ∧ d.Closed := by
    rintro α _ ⟨q, rfl, hq⟩
    exact ⟨q.2, rfl, hq⟩
  have hmodify : ∀ {v f}, c.HasValue v → ∃ d, c.modifyValue v f = .ok d ∧ d.Closed := fun hv =>
    ⟨_, modifyValue_eq_ok.2 ⟨hv, rfl⟩, hclosed.updateValues _⟩
  cases e with
  | createBlock => exact ⟨_, rfl, hclosed.createBlock⟩
  | createValue type => exact ⟨_, rfl, hclosed⟩
  | setType v type => exact hmodify he
  | setDynamic v dynamic => exact hmodify he
  | setLocalName v name => exact hmodify he
  | insertAt b index op => exact hsecond (exists_insertAt hclosed he.1 he.2)
  | append b op =>
    obtain ⟨x, hx⟩ := exists_block_iff.2 he.1
    apply hsecond
    rw [append, hx, ok_bind]
    exact exists_insertAt hclosed ⟨x, hx, Nat.le_refl _⟩ he.2
  | insertBefore anchor op =>
    obtain ⟨b, x, k, hb, hx, hk, hlt⟩ := hc.exists_index? he.1
    apply hsecond
    rw [insertBefore, hb, ok_bind, hx, ok_bind, hk, ok_bind]
    exact exists_insertAt hclosed ⟨x, hx, Nat.le_of_lt hlt⟩ he.2
  | replace i op =>
    obtain ⟨old, hold⟩ := he.1.exists_operation
    refine ⟨_, replace_eq_ok.2 ⟨old, hold, hc.hasValue hold, he.2.1, rfl⟩, ?_⟩
    apply Closed.updateValues
    apply hclosed.updateOperation
    intro _ _ s hs
    exact .inr (he.2.2 s hs)
  | addPhi b type operands =>
    refine hsecond ⟨_, addPhi_eq_ok.2 ⟨he.1, fun u hu => ?_, rfl, rfl⟩, ?_⟩
    · exact hasValue_createValue.2 (.inl (he.2 u hu))
    · have hcreated : (c.createValue type).2.Closed := hclosed
      exact hcreated.withPhi
  | split b index => exact hsecond (hc.exists_split hclosed he)
  | redirectOperand i old new =>
    obtain ⟨op, hop⟩ := he.1.exists_operation
    obtain ⟨changed, d, hd⟩ : ∃ changed d, c.redirectOperand i old new = .ok (changed, d) := by
      by_cases hmem : old ∈ op.operands
      · exact ⟨true, _, redirectOperand_of_mem hop hmem he.2.1 he.2.2⟩
      · exact ⟨false, c, redirectOperand_eq_ok.2 ⟨op, hop, by simp [hmem]⟩⟩
    exact hsecond ⟨_, hd, hclosed.redirectOperand hd⟩
  | redirectUses t old new definer excluded =>
    exact hsecond (hc.exists_redirectUses hclosed he.1 he.2.1 he.2.2)

theorem exists_applyAll {edits : List BodyEdit} (hedits : c.AllowsAll edits) :
    ∃ d, c.applyAll edits = .ok d := by
  induction edits generalizing c with
  | nil => exact ⟨c, rfl⟩
  | cons e edits ih =>
    obtain ⟨d, hd, hclosed'⟩ := hc.exists_apply hclosed hedits.1
    obtain ⟨d', hd'⟩ := ih (hc.apply hd) hclosed' (hedits.2 d hd)
    exact ⟨d', by rw [Body.applyAll, List.foldlM_cons, hd, ok_bind]; exact hd'⟩

end Recorded

/-- A body that has been written and then edited in any way knows itself: every instruction stands
once, in the block it names; the users of a value are the instructions that read it, and its phi users
the outputs of the phis that do; and the definition it names outputs it. The edits can be made if each
of them names only what is there when its turn comes. -/
theorem recorded_of_applyAll {method : MethodRef} {steps : List DraftStep} {made : List Created}
    (hwritten : Body.ofSteps method steps = .ok (made, c)) (edits : List BodyEdit) :
    (∀ d, c.applyAll edits = .ok d → d.Recorded) ∧
      (c.AllowsAll edits → ∃ d, c.applyAll edits = .ok d) := by
  have hc := recorded_of_intact (intact_of_ofSteps hwritten)
  constructor
  · intro d hd
    exact hc.applyAll hd
  · intro hedits
    exact hc.exists_applyAll (closed_of_ofSteps hwritten) hedits

/-- A loop around a call whose receiver is a phi. -/
def callInLoop : List DraftStep :=
  [.newBlock, .newBlock, .newBlock, .argument (.ofClass "A" .maybe), .cast ⟨0⟩ ⟨0⟩ "A",
    .goto ⟨0⟩ ⟨1⟩, .phi ⟨1⟩ (.ofClass "A" .maybe) [(⟨0⟩, ⟨0⟩), (⟨2⟩, ⟨1⟩)],
    .branch ⟨1⟩ ⟨2⟩ ⟨2⟩ ⟨3⟩, .call ⟨2⟩ .virtual (.plain "A" "f") [⟨2⟩, ⟨1⟩], .goto ⟨2⟩ ⟨1⟩,
    .ret ⟨3⟩ (some ⟨2⟩)]

/-- Edits of it that define values again, and go by a tree that knows no block. -/
def loopEdits : List BodyEdit :=
  [.createBlock, .createValue (.ofClass "A" .maybe), .insertAt ⟨2⟩ 0 (.assumeNonNull ⟨3⟩ ⟨2⟩ none),
    .append ⟨4⟩ (.goto ⟨3⟩), .insertBefore ⟨4⟩ (.cast ⟨3⟩ ⟨1⟩ "A"), .replace ⟨7⟩ (.null ⟨1⟩),
    .addPhi ⟨3⟩ (.ofClass "A" .maybe) [⟨2⟩], .split ⟨2⟩ 1, .redirectOperand ⟨4⟩ ⟨1⟩ ⟨1⟩,
    .redirectUses ⟨⟨0⟩, 0, [], []⟩ ⟨2⟩ ⟨3⟩ ⟨9⟩ [⟨6⟩]]

theorem recorded_loopEdits :
    ∃ made c d, Body.ofSteps (.plain "A" "g") callInLoop = .ok (made, c) ∧ c.AllowsAll loopEdits ∧
      c.applyAll loopEdits = .ok d ∧ d.Recorded := by
  obtain ⟨made, c, hwritten, hallows⟩ : ∃ made c,
      Body.ofSteps (.plain "A" "g") callInLoop = .ok (made, c) ∧ c.AllowsAll loopEdits := by
    decide +kernel
  obtain ⟨hrecorded, htotal⟩ := recorded_of_applyAll hwritten loopEdits
  obtain ⟨d, hd⟩ := htotal hallows
  exact ⟨made, c, d, hwritten, hallows, hd, hrecorded d hd⟩

end Body

end Devirt
