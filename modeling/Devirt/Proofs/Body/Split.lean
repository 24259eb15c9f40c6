import Devirt.Body.Split
import Devirt.Proofs.Body.Intact
import Mathlib.Logic.Function.Iterate

/-!
What splitting a block does. Nothing but the split block, its new tail and the edges around them
changes, and the records of the body stay in order.
-/

namespace Devirt

namespace Body

variable {c d : Body} {b s new : BlockId} {i j : InstrId} {v : ValueId} {index : Nat}
  {x : Block} {jumps : List BlockId}

/-- A block after the edges from `b` to it have been given to `new` or shared with it. -/
def relinked (b new : BlockId) (jumps : List BlockId) (handlers : List Handler) (s : BlockId)
    (y : Block) : Block :=
  (shareEdge · b new)^[(handlers.map (·.target)).count s]
    (if s ∈ jumps then
      { y with predecessors := y.predecessors.map fun p => if p = b then new else p }
    else y)

@[simp] theorem instructions_shareEdge {y : Block} :
    (shareEdge y b new).instructions = y.instructions := by
  simp only [shareEdge]
  split <;> rfl

@[simp] theorem handlers_shareEdge {y : Block} :
    (shareEdge y b new).handlers = y.handlers := by
  simp only [shareEdge]
  split <;> rfl

private theorem iterate_shareEdge {α : Type} {f : Block → α}
    (hf : ∀ y, f (shareEdge y b new) = f y) (n : Nat) (y : Block) :
    f ((shareEdge · b new)^[n] y) = f y := by
  induction n generalizing y with
  | zero => rfl
  | succ n ih => rw [Function.iterate_succ_apply, ih, hf]

@[simp] theorem instructions_relinked {handlers : List Handler} {y : Block} :
    (relinked b new jumps handlers s y).instructions = y.instructions := by
  rw [relinked, iterate_shareEdge fun _ => instructions_shareEdge]
  split <;> rfl

@[simp] theorem handlers_relinked {handlers : List Handler} {y : Block} :
    (relinked b new jumps handlers s y).handlers = y.handlers := by
  rw [relinked, iterate_shareEdge fun _ => handlers_shareEdge]
  split <;> rfl

theorem relinked_of_notMem {handlers : List Handler} {y : Block} (hs : s ∉ jumps) :
    relinked b new jumps handlers s y =
      (shareEdge · b new)^[(handlers.map (·.target)).count s] y := by
  rw [relinked, if_neg hs]

/-- A block that the split block does not lead to keeps its edges. -/
theorem relinked_eq_self {handlers : List Handler} {y : Block} (hs : s ∉ jumps)
    (hhandlers : ∀ h ∈ handlers, h.target ≠ s) : relinked b new jumps handlers s y = y := by
  have hcount : (handlers.map (·.target)).count s = 0 :=
    List.count_eq_zero.2 (by simpa using hhandlers)
  rw [relinked_of_notMem hs, hcount]
  rfl

theorem HasBlock.ne_next (hs : c.HasBlock s) : s ≠ ⟨c.blocks.length⟩ := by
  rintro rfl
  exact Nat.lt_irrefl _ hs

/-- Adds a block to the store, outside the layout. -/
def pushBlock (c : Body) (x : Block) : Body := { c with blocks := c.blocks ++ [x] }

theorem block_pushBlock {y : Block} :
    (c.pushBlock x).block b = .ok y ↔
      c.block b = .ok y ∨ (b = ⟨c.blocks.length⟩ ∧ y = x) := by
  obtain ⟨n⟩ := b
  simp only [block_eq_ok, pushBlock, List.getElem?_append, BlockId.mk.injEq]
  split
  · have : n ≠ c.blocks.length := by omega
    simp [this]
  · rename_i hn
    rw [List.getElem?_singleton, List.getElem?_eq_none (Nat.le_of_not_lt hn)]
    split
    · have : n = c.blocks.length := by omega
      simp [this, eq_comm]
    · have : n ≠ c.blocks.length := by omega
      simp [this]

theorem hasBlock_pushBlock :
    (c.pushBlock x).HasBlock b ↔ c.HasBlock b ∨ b = ⟨c.blocks.length⟩ := by
  obtain ⟨n⟩ := b
  simp only [HasBlock, pushBlock, List.length_append, List.length_singleton, BlockId.mk.injEq]
  omega

/-- Making the same change to several blocks, once for each time a block is named. -/
theorem foldlM_modifyBlock_eq_ok {α : Type} {f : Block → Block} {t : α → BlockId} {l : List α} :
    l.foldlM (fun c a => c.modifyBlock (t a) f) c = .ok d ↔
      (∀ a ∈ l, c.HasBlock (t a)) ∧ d = c.updateBlocks fun s x => f^[(l.map t).count s] x := by
  induction l generalizing c with
  | nil =>
    have : (c.updateBlocks fun _ x => x) = c := by
      have : c.blocks.mapIdx (fun _ x => x) = c.blocks := List.ext_getElem? (by simp)
      simp [updateBlocks, this]
    simp [this, eq_comm]
  | cons a l ih =>
    have hsame : ((c.updateBlocks fun s x => if s = t a then f x else x).updateBlocks
        fun s x => f^[(l.map t).count s] x) =
        c.updateBlocks fun s x => f^[((a :: l).map t).count s] x := by
      rw [updateBlocks_updateBlocks]
      congr
      funext s x
      by_cases hs : s = t a
      · simp [hs]
      · have : ¬ t a = s := fun h => hs h.symm
        simp [hs, this]
    simp only [List.foldlM_cons, bind_eq_ok, modifyBlock_eq_ok, ih, List.forall_mem_cons]
    constructor
    · rintro ⟨e, ⟨ha, rfl⟩, hl, rfl⟩
      exact ⟨⟨ha, by simpa using hl⟩, hsame⟩
    · rintro ⟨⟨ha, hl⟩, rfl⟩
      exact ⟨_, ⟨ha, rfl⟩, by simpa using hl, hsame.symm⟩

/-- The tail of a block and its new home. -/
def splitTail (b : BlockId) (index : Nat) (x : Block) : Block :=
  { instructions := x.instructions.drop index, predecessors := [b], handlers := x.handlers }

/-- The body after a block with the contents `x` has been split. -/
def splitted (c : Body) (b : BlockId) (index : Nat) (x : Block) (jumps : List BlockId) : Body :=
  let new : BlockId := ⟨c.blocks.length⟩
  let e := ((c.updateInstructions fun i y =>
      if i ∈ x.instructions.drop index then { y with block := new } else y).push
        { block := b, op := .goto new }).updateBlocks fun s y =>
      let y := relinked b new jumps x.handlers s y
      if s = b then
        { y with instructions := y.instructions.take index ++ [⟨c.instructions.length⟩] }
      else y
  { e.pushBlock (splitTail b index x) with
    order := layoutAfter c.order b new
    version := c.version + 1 }

/-- Sharing an edge does not look at the instructions. -/
private theorem iterate_shareEdge_instructions {n : Nat} {y : Block} {l : List InstrId} :
    (shareEdge · b new)^[n] { y with instructions := l } =
      { (shareEdge · b new)^[n] y with instructions := l } := by
  induction n generalizing y with
  | zero => rfl
  | succ n ih =>
    simp only [Function.iterate_succ_apply]
    rw [← ih]
    congr 1
    simp only [shareEdge]
    split <;> rfl

private theorem relinked_withInstructions {handlers : List Handler} {y : Block}
    {l : List InstrId} :
    relinked b new jumps handlers s { y with instructions := l } =
      { relinked b new jumps handlers s y with instructions := l } := by
  simp only [relinked]
  rw [← iterate_shareEdge_instructions]
  congr 1
  split <;> rfl

/-- Renaming a predecessor again makes no difference. -/
private theorem iterate_rename {n : Nat} {y : Block} (hne : new ≠ b) :
    (fun y : Block =>
      { y with predecessors := y.predecessors.map fun p => if p = b then new else p })^[n] y =
      if n = 0 then y
      else { y with predecessors := y.predecessors.map fun p => if p = b then new else p } := by
  induction n generalizing y with
  | zero => rfl
  | succ n ih =>
    rw [Function.iterate_succ_apply, ih]
    split
    · rfl
    · simp only [List.map_map, Block.mk.injEq, true_and, and_true, if_false, Nat.succ_ne_zero]
      refine List.map_congr_left fun p _ => ?_
      by_cases hp : p = b <;> simp [hp, hne]

private theorem iterate_relinked {handlers : List Handler} (hne : new ≠ b) :
    (fun s y => (shareEdge · b new)^[(handlers.map (·.target)).count s]
      ((fun y : Block => { y with predecessors := y.predecessors.map fun p =>
          if p = b then new else p })^[(jumps.map fun s => s).count s] y)) =
      relinked b new jumps handlers := by
  funext s y
  rw [relinked, iterate_rename hne, List.map_id' jumps]
  by_cases hs : s ∈ jumps
  · rw [if_neg (Nat.ne_of_gt (List.count_pos_iff.2 hs)), if_pos hs]
  · rw [if_pos (List.count_eq_zero.2 hs), if_neg hs]

/-- The jumps of the tail are those of the whole block. -/
private theorem normalSuccessors_tail {e : Body} (hx : c.block b = .ok x)
    (hindex : index < x.instructions.length)
    (he : e.block new = .ok (splitTail b index x)) (hop : ∀ i, e.operation i = c.operation i) :
    e.normalSuccessors new = c.normalSuccessors b := by
  have hlast : (x.instructions.drop index).getLast? = x.instructions.getLast? := by
    rw [List.getLast?_drop, if_neg (by omega)]
  simp only [normalSuccessors, terminator?, hx, he, ok_bind, splitTail, hlast, hop]

/-- The body with the tail cut off, before the edges follow. -/
def cut (c : Body) (b : BlockId) (index : Nat) (x : Block) : Body :=
  let e := ((c.updateBlocks fun s y =>
      if s = b then { y with instructions := y.instructions.take index } else y).updateInstructions
    fun i y => if i ∈ x.instructions.drop index then { y with block := ⟨c.blocks.length⟩ } else y)
  { e.pushBlock (splitTail b index x) with order := layoutAfter c.order b ⟨c.blocks.length⟩ }

theorem hasBlock_cut : (c.cut b index x).HasBlock s ↔ c.HasBlock s ∨ s = ⟨c.blocks.length⟩ := by
  refine hasBlock_pushBlock.trans ?_
  simp [updateBlocks, updateInstructions, HasBlock]

theorem block_cut {z : Block} :
    (c.cut b index x).block s = .ok z ↔
      (∃ y, c.block s = .ok y ∧
        (if s = b then { y with instructions := y.instructions.take index } else y) = z) ∨
      s = ⟨c.blocks.length⟩ ∧ z = splitTail b index x := by
  refine block_pushBlock.trans ?_
  simp [updateBlocks, updateInstructions, block_eq_ok, List.getElem?_mapIdx]

theorem operation_cut : (c.cut b index x).operation i = c.operation i :=
  @operation_updateInstructions c i (fun i y =>
    if i ∈ x.instructions.drop index then { y with block := ⟨c.blocks.length⟩ } else y)
    fun i y => by split <;> rfl

theorem instruction_cut {z : Instruction} :
    (c.cut b index x).instruction i = .ok z ↔
      ∃ y, c.instruction i = .ok y ∧
        (if i ∈ x.instructions.drop index then { y with block := ⟨c.blocks.length⟩ } else y) = z :=
  @instruction_updateInstructions c i (fun i y =>
    if i ∈ x.instructions.drop index then { y with block := ⟨c.blocks.length⟩ } else y) z

theorem blockOf_cut :
    (c.cut b index x).blockOf i = .ok s ↔
      ∃ r, c.blockOf i = .ok r ∧
        (if i ∈ x.instructions.drop index then ⟨c.blocks.length⟩ else r) = s := by
  simp only [blockOf_eq_ok, instruction_cut]
  constructor
  · rintro ⟨_, ⟨y, hy, rfl⟩, rfl⟩
    exact ⟨y.block, ⟨y, hy, rfl⟩, by split <;> rfl⟩
  · rintro ⟨_, ⟨y, hy, rfl⟩, rfl⟩
    exact ⟨_, ⟨y, hy, rfl⟩, by split <;> rfl⟩

theorem split_eq_cut (hx : c.block b = .ok x) (hindex : index ≤ x.instructions.length)
    (hins : ∀ i ∈ x.instructions, c.HasInstruction i) :
    c.split b index = (do
      let jumps ← (c.cut b index x).normalSuccessors ⟨c.blocks.length⟩
      let e ← jumps.foldlM (fun e s => modifyBlock e s fun y =>
        { y with predecessors := y.predecessors.map fun p =>
            if p = b then ⟨c.blocks.length⟩ else p }) (c.cut b index x)
      let e ← x.handlers.foldlM (fun e h =>
        modifyBlock e h.target (shareEdge · b ⟨c.blocks.length⟩)) e
      let (_, e) ← append e b (.goto ⟨c.blocks.length⟩)
      return (⟨c.blocks.length⟩, { e with version := e.version + 1 })) := by
  have hlen : ¬ x.instructions.length < index := by omega
  simp only [split, hx, ok_bind, hlen, if_false, modifyBlock_eq_ok.2 ⟨hasBlock_of_block hx, rfl⟩]
  rw [foldlM_modifyInstruction (by simp) fun i hi => by
    simpa using hins i (List.mem_of_mem_drop hi), ok_bind]
  rfl

/-- A split puts the pieces together: the tail is cut off, edges move, and the head jumps to the
tail. -/
private theorem inserted_cut_eq_splitted (hx : c.block b = .ok x)
    (htail : relinked b ⟨c.blocks.length⟩ jumps x.handlers ⟨c.blocks.length⟩ (splitTail b index x) =
      splitTail b index x) :
    { ((c.cut b index x).updateBlocks (relinked b ⟨c.blocks.length⟩ jumps x.handlers)).inserted b
        (x.instructions.take index).length (.goto ⟨c.blocks.length⟩) with
      version := c.version + 1 } = c.splitted b index x jumps := by
  have hne : (⟨c.blocks.length⟩ : BlockId) ≠ b := (hasBlock_of_block hx).ne_next.symm
  have hgoto : ∀ i v, attached i (.goto ⟨c.blocks.length⟩) v = id := fun i v => by
    funext y
    simp [attached, Operation.out?, Operation.operands]
  simp only [Body.mk.injEq, splitted, and_true]
  refine ⟨rfl, List.ext_getElem? fun k => ?_, rfl, ?_, ?_⟩
  · simp only [inserted, push, updateValues, updateBlocks, cut, pushBlock, updateInstructions,
      List.getElem?_mapIdx, List.getElem?_append, List.length_mapIdx, instructions_relinked]
    by_cases hk : k < c.blocks.length
    · simp only [hk, if_true]
      cases hy : c.blocks[k]? with
      | none => rfl
      | some y =>
        by_cases hkb : (⟨k⟩ : BlockId) = b
        · obtain rfl : x = y := by
            subst hkb
            exact Except.ok.inj (hx.symm.trans (block_eq_ok.2 hy))
          have htake := @List.insertIdx_length_self _ (x.instructions.take index)
            (⟨c.instructions.length⟩ : InstrId)
          simp only [hkb, if_true, Option.map_some, relinked_withInstructions]
          rw [htake]
        · simp [hkb]
    · simp only [hk, if_false, List.getElem?_singleton]
      by_cases hk' : k = c.blocks.length
      · subst hk'
        simp [htail, hne]
      · simp [show k - c.blocks.length ≠ 0 by omega]
  · simp [inserted, push, cut, pushBlock, updateValues, updateBlocks, updateInstructions]
  · simp only [inserted, updateValues, hgoto]
    exact List.ext_getElem? fun k => by
      simp [push, cut, pushBlock, updateBlocks, updateInstructions]

/-- Splitting inside a block whose jumps and handlers lead to blocks of the body. -/
theorem split_eq_ok (hx : c.block b = .ok x) (hindex : index < x.instructions.length)
    (hins : ∀ i ∈ x.instructions, c.HasInstruction i)
    (hjumps : c.normalSuccessors b = .ok jumps) (htargets : ∀ s ∈ jumps, c.HasBlock s)
    (hhandlers : ∀ h ∈ x.handlers, c.HasBlock h.target) :
    c.split b index = .ok (⟨c.blocks.length⟩, c.splitted b index x jumps) := by
  have hne : (⟨c.blocks.length⟩ : BlockId) ≠ b := (hasBlock_of_block hx).ne_next.symm
  have hcut : (c.cut b index x).block b =
      .ok { x with instructions := x.instructions.take index } :=
    block_cut.2 (.inl ⟨x, hx, if_pos rfl⟩)
  have htail : (c.cut b index x).normalSuccessors ⟨c.blocks.length⟩ = .ok jumps :=
    (normalSuccessors_tail hx hindex (block_cut.2 (.inr ⟨rfl, rfl⟩)) fun _ =>
      operation_cut).trans hjumps
  rw [split_eq_cut hx (Nat.le_of_lt hindex) hins, htail, ok_bind,
    foldlM_modifyBlock_eq_ok.2 ⟨fun s hs => hasBlock_cut.2 (.inl (htargets s hs)), rfl⟩, ok_bind,
    foldlM_modifyBlock_eq_ok.2 ⟨fun h hh => by
      simpa using hasBlock_cut.2 (.inl (hhandlers h hh)), rfl⟩, ok_bind,
    updateBlocks_updateBlocks, iterate_relinked hne,
    append_eq_ok.2 ⟨_, block_updateBlocks.2 ⟨_, hcut, rfl⟩, by
      simp [Operation.mentions, Operation.out?, Operation.operands], rfl, rfl⟩, ok_bind,
    instructions_relinked]
  refine congrArg Except.ok (Prod.ext rfl (inserted_cut_eq_splitted hx ?_))
  exact relinked_eq_self (fun h => (htargets _ h).ne_next rfl) fun h hh => (hhandlers h hh).ne_next

/-! ### Lookups after a split -/

/-- A handler block that the split block does not lead to keeps its edges. -/
theorem iterate_shareEdge_of_notMem {n : Nat} {y : Block} (h : b ∉ y.predecessors) :
    (shareEdge · b new)^[n] y = y := by
  induction n with
  | zero => rfl
  | succ n ih =>
    rw [Function.iterate_succ_apply', ih]
    simp only [shareEdge, List.idxOf?_eq_none_iff.2 h]

private theorem idxOf?_append_of_some {α : Type} [DecidableEq α] {l l' : List α} {a : α} {n : Nat}
    (h : l.idxOf? a = some n) : (l ++ l').idxOf? a = some n := by
  simp only [List.idxOf?] at h ⊢
  rw [List.findIdx?_append, h]
  rfl

/-- Each sharing appends the new predecessor and what the phis read on the old edge. -/
theorem iterate_shareEdge_of_idxOf? {n edge : Nat} {y : Block}
    (h : y.predecessors.idxOf? b = some edge) :
    (shareEdge · b new)^[n] y =
      { y with
        predecessors := y.predecessors ++ List.replicate n new
        phis := y.phis.map fun p =>
          { p with
            operands := p.operands ++ (List.replicate n p.operands[edge]?.toList).flatten } } := by
  induction n with
  | zero => simp
  | succ n ih =>
    have hfound : (y.predecessors ++ List.replicate n new).idxOf? b = some edge :=
      idxOf?_append_of_some h
    rw [Function.iterate_succ_apply', ih]
    simp only [shareEdge, hfound, List.map_map, Block.mk.injEq, true_and, and_true]
    refine ⟨List.map_congr_left fun p _ => ?_, ?_⟩
    · have hread : (p.operands ++ (List.replicate n p.operands[edge]?.toList).flatten)[edge]? =
          p.operands[edge]? := by
        cases hv : p.operands[edge]? with
        | none => simp [hv]
        | some v => exact (List.getElem?_append_left (List.getElem?_eq_some_iff.1 hv).1).trans hv
      simp [hread, List.replicate_succ', List.append_assoc]
    · simp [List.replicate_succ', List.append_assoc]

/-- A jump target takes the new block for the old one, also if it handles exceptions. -/
theorem relinked_of_mem {handlers : List Handler} {y : Block} (hne : new ≠ b) (hs : s ∈ jumps) :
    relinked b new jumps handlers s y =
      { y with predecessors := y.predecessors.map fun p => if p = b then new else p } := by
  rw [relinked, if_pos hs, iterate_shareEdge_of_notMem]
  simp only [List.mem_map, not_exists, not_and]
  intro p _
  split
  · exact hne
  · assumption

/-- Phis keep their outputs, and read more only of what they have read before. -/
theorem phis_iterate_shareEdge (n : Nat) (y : Block) :
    ∃ extra : Phi → List ValueId, (∀ p, extra p ⊆ p.operands) ∧
      ((shareEdge · b new)^[n] y).phis =
        y.phis.map fun p => { p with operands := p.operands ++ extra p } := by
  cases hidx : y.predecessors.idxOf? b with
  | none =>
    rw [iterate_shareEdge_of_notMem (List.idxOf?_eq_none_iff.1 hidx)]
    exact ⟨fun _ => [], by simp, by simp⟩
  | some edge =>
    rw [iterate_shareEdge_of_idxOf? hidx]
    refine ⟨fun p => (List.replicate n p.operands[edge]?.toList).flatten, fun p v hv => ?_, rfl⟩
    obtain ⟨l, hl, hv⟩ := List.mem_flatten.1 hv
    rw [(List.mem_replicate.1 hl).2, Option.mem_toList] at hv
    exact List.mem_of_getElem? hv

theorem phis_relinked {handlers : List Handler} {y : Block} :
    ∃ extra : Phi → List ValueId, (∀ p, extra p ⊆ p.operands) ∧
      (relinked b new jumps handlers s y).phis =
        y.phis.map fun p => { p with operands := p.operands ++ extra p } := by
  rw [relinked]
  split <;> exact phis_iterate_shareEdge _ _

/-! ### Splitting any block -/

/-- The change of blocks moves edges alone. Phis may read more, but only what they read already. -/
def MovesEdges (g : BlockId → Block → Block) : Prop :=
  ∀ s y, (g s y).instructions = y.instructions ∧ (g s y).handlers = y.handlers ∧
    ∃ extra : Phi → List ValueId, (∀ p, extra p ⊆ p.operands) ∧
      (g s y).phis = y.phis.map fun p => { p with operands := p.operands ++ extra p }

theorem MovesEdges.comp {f g : BlockId → Block → Block} (hf : MovesEdges f) (hg : MovesEdges g) :
    MovesEdges fun s y => g s (f s y) := by
  intro s y
  obtain ⟨hins, hhandlers, extra, hextra, hphis⟩ := hf s y
  obtain ⟨hins', hhandlers', extra', hextra', hphis'⟩ := hg s (f s y)
  refine ⟨hins'.trans hins, hhandlers'.trans hhandlers, fun p => extra p ++ extra' { p with operands := p.operands ++ extra p },
    fun p v hv => ?_, ?_⟩
  · rcases List.mem_append.1 hv with hv | hv
    · exact hextra p hv
    · exact (List.mem_append.1 (hextra' _ hv)).elim id fun hv => hextra p hv
  · rw [hphis', hphis, List.map_map]
    refine List.map_congr_left fun p _ => ?_
    simp [List.append_assoc]

theorem movesEdges_shareEdge (n : BlockId → Nat) :
    MovesEdges fun s y => (shareEdge · b new)^[n s] y := fun _ y =>
  ⟨iterate_shareEdge (fun _ => instructions_shareEdge) _ y,
    iterate_shareEdge (fun _ => handlers_shareEdge) _ y, phis_iterate_shareEdge _ y⟩

theorem movesEdges_predecessors (f : List BlockId → List BlockId) (n : BlockId → Nat) :
    MovesEdges fun s y =>
      (fun y : Block => { y with predecessors := f y.predecessors })^[n s] y := by
  intro s y
  dsimp only
  induction n s generalizing y with
  | zero => exact ⟨rfl, rfl, fun _ => [], by simp, by simp⟩
  | succ n ih => exact ih { y with predecessors := f y.predecessors }

/-- The parts of a split: the tail is cut off, edges move, and the head jumps to the tail. -/
theorem split_cases {t : BlockId} (hA : c.Arranged) (hsplit : c.split b index = .ok (t, d)) :
    ∃ x g version, c.block b = .ok x ∧ index ≤ x.instructions.length ∧ t = ⟨c.blocks.length⟩ ∧
      MovesEdges g ∧
      d = { ((c.cut b index x).updateBlocks g).inserted b index (.goto t) with version } := by
  obtain ⟨x, hx⟩ : ∃ x, c.block b = .ok x := by
    simp only [split, bind_eq_ok] at hsplit
    exact hsplit.imp fun _ h => h.1
  have hindex : index ≤ x.instructions.length := by
    by_contra hlt
    simp [split, hx, Nat.lt_of_not_le hlt] at hsplit
  have hins : ∀ i ∈ x.instructions, c.HasInstruction i := fun i hi =>
    exists_instruction_iff.1 ((hA.exists_instruction hx hi).imp fun _ h => h.1)
  rw [split_eq_cut hx hindex hins] at hsplit
  simp only [bind_eq_ok, foldlM_modifyBlock_eq_ok, append_eq_ok, Prod.exists, pure_eq_ok,
    Except.ok.injEq, Prod.mk.injEq] at hsplit
  obtain ⟨jumps, -, _, ⟨-, rfl⟩, _, ⟨-, rfl⟩, _, e, ⟨y, hy, -, -, rfl⟩, rfl, rfl⟩ := hsplit
  rw [updateBlocks_updateBlocks] at hy ⊢
  have hmoves := (@movesEdges_predecessors (List.map fun p => if p = b then ⟨c.blocks.length⟩ else p)
    fun s => (jumps.map fun s => s).count s).comp
      (@movesEdges_shareEdge b ⟨c.blocks.length⟩ fun s => (x.handlers.map (·.target)).count s)
  have hlength : y.instructions.length = index := by
    obtain ⟨z, hz, rfl⟩ := block_updateBlocks.1 hy
    have hcut : (c.cut b index x).block b =
        .ok { x with instructions := x.instructions.take index } :=
      block_cut.2 (.inl ⟨x, hx, if_pos rfl⟩)
    obtain rfl := Except.ok.inj (hz.symm.trans hcut)
    rw [(hmoves b _).1]
    exact List.length_take_of_le hindex
  rw [hlength]
  exact ⟨x, _, _, hx, hindex, rfl, hmoves, rfl⟩

section Splitted

/-- The head and all other old blocks. -/
theorem block_splitted_old {y : Block} (hy : c.block s = .ok y) :
    (c.splitted b index x jumps).block s =
      .ok (if s = b then
          { relinked b ⟨c.blocks.length⟩ jumps x.handlers s y with
            instructions := y.instructions.take index ++ [⟨c.instructions.length⟩] }
        else relinked b ⟨c.blocks.length⟩ jumps x.handlers s y) := by
  refine block_pushBlock.2 (.inl (block_updateBlocks.2 ⟨y, hy, ?_⟩))
  simp

theorem block_splitted_head (hx : c.block b = .ok x) :
    (c.splitted b index x jumps).block b =
      .ok { relinked b ⟨c.blocks.length⟩ jumps x.handlers b x with
        instructions := x.instructions.take index ++ [⟨c.instructions.length⟩] } :=
  (block_splitted_old hx).trans (by rw [if_pos rfl])

theorem block_splitted_other {y : Block} (hy : c.block s = .ok y) (hs : s ≠ b) :
    (c.splitted b index x jumps).block s =
      .ok (relinked b ⟨c.blocks.length⟩ jumps x.handlers s y) :=
  (block_splitted_old hy).trans (by rw [if_neg hs])

theorem block_splitted_tail :
    (c.splitted b index x jumps).block ⟨c.blocks.length⟩ = .ok (splitTail b index x) := by
  refine block_pushBlock.2 (.inr ⟨?_, rfl⟩)
  simp [updateBlocks, push, updateInstructions]

theorem hasBlock_splitted :
    (c.splitted b index x jumps).HasBlock s ↔ c.HasBlock s ∨ s = ⟨c.blocks.length⟩ := by
  obtain ⟨n⟩ := s
  simp [HasBlock, splitted, pushBlock, updateBlocks, push, updateInstructions]
  omega

theorem block_splitted {z : Block} :
    (c.splitted b index x jumps).block s = .ok z ↔
      (∃ y, c.block s = .ok y ∧ (if s = b then
          { relinked b ⟨c.blocks.length⟩ jumps x.handlers s y with
            instructions := y.instructions.take index ++ [⟨c.instructions.length⟩] }
        else relinked b ⟨c.blocks.length⟩ jumps x.handlers s y) = z) ∨
      (s = ⟨c.blocks.length⟩ ∧ z = splitTail b index x) := by
  constructor
  · intro hz
    rcases hasBlock_splitted.1 (hasBlock_of_block hz) with hs | rfl
    · obtain ⟨y, hy⟩ := exists_block_iff.2 hs
      exact .inl ⟨y, hy, Except.ok.inj ((block_splitted_old hy).symm.trans hz)⟩
    · exact .inr ⟨rfl, Except.ok.inj (hz.symm.trans block_splitted_tail)⟩
  · rintro (⟨y, hy, rfl⟩ | ⟨rfl, rfl⟩)
    · exact block_splitted_old hy
    · exact block_splitted_tail

theorem instruction_splitted {z : Instruction} :
    (c.splitted b index x jumps).instruction i = .ok z ↔
      (∃ y, c.instruction i = .ok y ∧
        (if i ∈ x.instructions.drop index then { y with block := ⟨c.blocks.length⟩ } else y) = z) ∨
      (i = ⟨c.instructions.length⟩ ∧ z = { block := b, op := .goto ⟨c.blocks.length⟩ }) := by
  have hpush := @instruction_push (c.updateInstructions fun i y =>
    if i ∈ x.instructions.drop index then { y with block := ⟨c.blocks.length⟩ } else y) i
    { block := b, op := .goto ⟨c.blocks.length⟩ } z
  rw [instruction_updateInstructions, updateInstructions, List.length_mapIdx] at hpush
  exact hpush

theorem operation_splitted {op : Operation} :
    (c.splitted b index x jumps).operation i = .ok op ↔
      c.operation i = .ok op ∨ (i = ⟨c.instructions.length⟩ ∧ op = .goto ⟨c.blocks.length⟩) := by
  simp only [operation_eq_ok, instruction_splitted]
  constructor
  · rintro ⟨_, ⟨y, hy, rfl⟩ | ⟨hi, rfl⟩, rfl⟩
    · exact .inl ⟨y, hy, by split <;> rfl⟩
    · exact .inr ⟨hi, rfl⟩
  · rintro (⟨y, hy, rfl⟩ | ⟨hi, rfl⟩)
    · exact ⟨_, .inl ⟨y, hy, rfl⟩, by split <;> rfl⟩
    · exact ⟨_, .inr ⟨hi, rfl⟩, rfl⟩

theorem blockOf_splitted :
    (c.splitted b index x jumps).blockOf i = .ok s ↔
      (∃ r, c.blockOf i = .ok r ∧
        (if i ∈ x.instructions.drop index then ⟨c.blocks.length⟩ else r) = s) ∨
      (i = ⟨c.instructions.length⟩ ∧ s = b) := by
  simp only [blockOf_eq_ok, instruction_splitted]
  constructor
  · rintro ⟨_, ⟨y, hy, rfl⟩ | ⟨hi, rfl⟩, rfl⟩
    · exact .inl ⟨y.block, ⟨y, hy, rfl⟩, by split <;> rfl⟩
    · exact .inr ⟨hi, rfl⟩
  · rintro (⟨_, ⟨y, hy, rfl⟩, rfl⟩ | ⟨hi, rfl⟩)
    · exact ⟨_, .inl ⟨y, hy, rfl⟩, by split <;> rfl⟩
    · exact ⟨_, .inr ⟨hi, rfl⟩, rfl⟩

@[simp] theorem value_splitted : (c.splitted b index x jumps).value v = c.value v := rfl

@[simp] theorem hasValue_splitted :
    (c.splitted b index x jumps).HasValue v ↔ c.HasValue v := Iff.rfl

@[simp] theorem order_splitted :
    (c.splitted b index x jumps).order = layoutAfter c.order b ⟨c.blocks.length⟩ := rfl

end Splitted

theorem mem_layoutAfter {order : List BlockId} {r : BlockId} :
    r ∈ layoutAfter order b new ↔ r = new ∨ r ∈ order := by
  refine List.mem_insertIdx ?_
  cases h : order.idxOf? b with
  | none => simp
  | some n => exact (List.idxOf?_eq_some_iff.1 h).1

theorem nodup_layoutAfter {order : List BlockId} (h : order.Nodup) (hnew : new ∉ order) :
    (layoutAfter order b new).Nodup := by
  have hle : ((order.idxOf? b).map (· + 1) |>.getD order.length) ≤ order.length := by
    cases h : order.idxOf? b with
    | none => simp
    | some n => exact (List.idxOf?_eq_some_iff.1 h).1
  exact (List.perm_insertIdx new order hle).nodup_iff.2 (List.nodup_cons.2 ⟨hnew, h⟩)

theorem reads_splitted : (c.splitted b index x jumps).Reads i v ↔ c.Reads i v := by
  simp only [Reads, operation_splitted]
  constructor
  · rintro ⟨op, hop | ⟨-, rfl⟩, hv⟩
    · exact ⟨op, hop, hv⟩
    · simp [Operation.operands] at hv
  · rintro ⟨op, hop, hv⟩
    exact ⟨op, .inl hop, hv⟩

theorem outputs_splitted : (c.splitted b index x jumps).Outputs i v ↔ c.Outputs i v := by
  simp only [Outputs, operation_splitted]
  constructor
  · rintro ⟨op, hop | ⟨-, rfl⟩, hv⟩
    · exact ⟨op, hop, hv⟩
    · simp [Operation.out?] at hv
  · rintro ⟨op, hop, hv⟩
    exact ⟨op, .inl hop, hv⟩

theorem phis_block_splitted {y z : Block} (hy : c.block s = .ok y)
    (hz : (c.splitted b index x jumps).block s = .ok z) :
    ∃ extra : Phi → List ValueId, (∀ p, extra p ⊆ p.operands) ∧
      z.phis = y.phis.map fun p => { p with operands := p.operands ++ extra p } := by
  rw [block_splitted_old hy] at hz
  obtain rfl := Except.ok.inj hz
  have := @phis_relinked b s ⟨c.blocks.length⟩ jumps x.handlers y
  split <;> exact this

/-- The phis before and after read the same values. -/
theorem hasPhi_of_splitted {q : Phi} (hq : (c.splitted b index x jumps).HasPhi s q) :
    ∃ p, c.HasPhi s p ∧ q.out = p.out ∧ ∀ v, v ∈ q.operands ↔ v ∈ p.operands := by
  obtain ⟨z, hz, hmem⟩ := hq
  rcases hasBlock_splitted.1 (hasBlock_of_block hz) with hs | rfl
  · obtain ⟨y, hy⟩ := exists_block_iff.2 hs
    obtain ⟨extra, hextra, hphis⟩ := phis_block_splitted hy hz
    rw [hphis, List.mem_map] at hmem
    obtain ⟨p, hp, rfl⟩ := hmem
    exact ⟨p, ⟨y, hy, hp⟩, rfl, fun v => by simpa using fun h => hextra p h⟩
  · obtain rfl := Except.ok.inj (hz.symm.trans block_splitted_tail)
    simp [splitTail] at hmem

theorem exists_hasPhi_splitted {p : Phi} (hp : c.HasPhi s p) :
    ∃ q, (c.splitted b index x jumps).HasPhi s q ∧ q.out = p.out ∧
      ∀ v, v ∈ q.operands ↔ v ∈ p.operands := by
  obtain ⟨y, hy, hmem⟩ := hp
  have hz := @block_splitted_old c b s index x jumps y hy
  obtain ⟨extra, hextra, hphis⟩ := phis_block_splitted hy hz
  refine ⟨{ p with operands := p.operands ++ extra p }, ⟨_, hz, ?_⟩, rfl, fun v => ?_⟩
  · rw [hphis]
    exact List.mem_map.2 ⟨p, hmem, rfl⟩
  · simpa using fun h => hextra p h

/-! ### Records after a split -/

theorem Arranged.cut (hc : c.Arranged) (hx : c.block b = .ok x) : (c.cut b index x).Arranged := by
  have hnodup := hc.nodup hx
  rw [← List.take_append_drop index x.instructions, List.nodup_append] at hnodup
  refine ⟨hasBlock_cut.2 (.inl hc.entry), nodup_layoutAfter hc.order_nodup ?_, ?_, ?_, ?_, ?_⟩
  · exact fun h => Nat.lt_irrefl _ ((hc.mem_order _).1 h)
  · intro s
    show s ∈ layoutAfter c.order b ⟨c.blocks.length⟩ ↔ _
    rw [mem_layoutAfter, hasBlock_cut, hc.mem_order, or_comm]
  · intro s z hz i hi
    rw [blockOf_cut]
    rcases block_cut.1 hz with ⟨y, hy, rfl⟩ | ⟨rfl, rfl⟩
    · split at hi
      · rename_i hs
        subst hs
        obtain rfl := Except.ok.inj (hy.symm.trans hx)
        refine ⟨s, hc.placed hy i (List.mem_of_mem_take hi), if_neg fun hdrop => ?_⟩
        exact hnodup.2.2 i hi i hdrop rfl
      · rename_i hs
        refine ⟨s, hc.placed hy i hi, if_neg fun hdrop => ?_⟩
        exact hs (hc.block_unique hy hx hi (List.mem_of_mem_drop hdrop))
    · exact ⟨b, hc.placed hx i (List.mem_of_mem_drop hi), if_pos hi⟩
  · intro i s hi
    obtain ⟨r, hr, rfl⟩ := blockOf_cut.1 hi
    obtain ⟨y, hy, hmem⟩ := hc.recorded hr
    split
    · exact ⟨_, block_cut.2 (.inr ⟨rfl, rfl⟩), ‹_›⟩
    · rename_i hdrop
      refine ⟨_, block_cut.2 (.inl ⟨y, hy, rfl⟩), ?_⟩
      split
      · rename_i hs
        subst hs
        obtain rfl := Except.ok.inj (hy.symm.trans hx)
        rw [← List.take_append_drop index y.instructions, List.mem_append] at hmem
        exact hmem.resolve_right hdrop
      · exact hmem
  · intro s z hz
    rcases block_cut.1 hz with ⟨y, hy, rfl⟩ | ⟨rfl, rfl⟩
    · split
      · exact (hc.nodup hy).sublist (List.take_sublist _ _)
      · exact hc.nodup hy
    · exact hnodup.2.1

/-- Instructions stand after a split where they stand if the tail is cut off and the jump to it is
added to the head. -/
theorem Arranged.splitted (hc : c.Arranged) (hx : c.block b = .ok x) :
    (c.splitted b index x jumps).Arranged := by
  have hhead : (c.cut b index x).block b =
      .ok { x with instructions := x.instructions.take index } :=
    block_cut.2 (.inl ⟨x, hx, if_pos rfl⟩)
  have hlength : (c.cut b index x).instructions.length = c.instructions.length := by
    simp [Body.cut, pushBlock, updateInstructions, updateBlocks]
  have hjump : ((c.cut b index x).inserted b (x.instructions.take index).length
      (.goto ⟨c.blocks.length⟩)).Arranged := (hc.cut hx).inserted hhead (Nat.le_refl _)
  refine hjump.of_lookups rfl (fun hs => ?_) (fun {s z} hz => ?_) fun i s => ?_
  · exact hasBlock_splitted.2 (hasBlock_cut.1 (hasBlock_inserted.1 hs))
  · rcases block_splitted.1 hz with ⟨y, hy, rfl⟩ | ⟨rfl, rfl⟩
    · refine ⟨_, block_inserted.2 ⟨_, block_cut.2 (.inl ⟨y, hy, rfl⟩), rfl⟩, ?_⟩
      by_cases hs : s = b
      · subst hs
        obtain rfl : x = y := Except.ok.inj (hx.symm.trans hy)
        simp only [if_true, List.insertIdx_length_self, hlength]
      · simp only [hs, if_false, instructions_relinked]
    · exact ⟨_, block_inserted.2 ⟨_, block_cut.2 (.inr ⟨rfl, rfl⟩), rfl⟩,
        by rw [if_neg (hasBlock_of_block hx).ne_next.symm]⟩
  · rw [blockOf_splitted, blockOf_inserted, blockOf_cut, hlength]

theorem TracksInstructions.splitted (hc : c.TracksInstructions) :
    (c.splitted b index x jumps).TracksInstructions := by
  refine ⟨?_, ?_, ?_⟩
  · intro v y hy i
    rw [reads_splitted]
    exact hc.users hy i
  · intro i op hi v hv
    rcases operation_splitted.1 hi with hi | ⟨-, rfl⟩
    · exact hc.hasValue hi v hv
    · simp [Operation.mentions, Operation.out?, Operation.operands] at hv
  · intro v y hy i
    rw [outputs_splitted]
    exact hc.definition_instruction hy i

theorem TracksPhis.splitted (hc : c.TracksPhis) : (c.splitted b index x jumps).TracksPhis := by
  refine ⟨?_, ?_, ?_, ?_⟩
  · intro v y hy p
    refine (hc.phiUsers hy p).trans ?_
    constructor
    · rintro ⟨s, phi, hphi, hout, hv⟩
      obtain ⟨q, hq, hqout, hmem⟩ := exists_hasPhi_splitted hphi
      exact ⟨s, q, hq, hqout.trans hout, (hmem v).2 hv⟩
    · rintro ⟨s, q, hq, hout, hv⟩
      obtain ⟨phi, hphi, hqout, hmem⟩ := hasPhi_of_splitted hq
      exact ⟨s, phi, hphi, hqout.symm.trans hout, (hmem v).1 hv⟩
  · intro s q hq v hv
    obtain ⟨phi, hphi, hqout, hmem⟩ := hasPhi_of_splitted hq
    refine hc.phi_hasValue hphi v ?_
    rw [List.mem_cons] at hv ⊢
    rwa [← hqout, ← hmem v]
  · intro v y hy s
    refine (hc.definition_phi hy s).trans ?_
    constructor
    · rintro ⟨phi, hphi, hout⟩
      obtain ⟨q, hq, hqout, -⟩ := exists_hasPhi_splitted hphi
      exact ⟨q, hq, hqout.trans hout⟩
    · rintro ⟨q, hq, hout⟩
      obtain ⟨phi, hphi, hqout, -⟩ := hasPhi_of_splitted hq
      exact ⟨phi, hphi, hqout.symm.trans hout⟩
  · intro s z hz
    rcases hasBlock_splitted.1 (hasBlock_of_block hz) with hs | rfl
    · obtain ⟨y, hy⟩ := exists_block_iff.2 hs
      obtain ⟨extra, -, hphis⟩ := phis_block_splitted hy hz
      rw [hphis, List.map_map]
      exact hc.phi_nodup hy
    · obtain rfl := Except.ok.inj (hz.symm.trans block_splitted_tail)
      simp [splitTail]

/-- Splitting a block keeps the records in order. -/
theorem Intact.splitted (hc : c.Intact) (hx : c.block b = .ok x) :
    (c.splitted b index x jumps).Intact :=
  ⟨hc.toArranged.splitted hx, hc.toTracksInstructions.splitted, hc.toTracksPhis.splitted⟩

end Body

end Devirt
