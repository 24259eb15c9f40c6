import Devirt.Body.Edit
import Devirt.Body.Flow

/-!
Splitting a block in two, so that its tail becomes a block of its own under the same handlers.
-/

namespace Devirt

namespace Body

/-- Adds `new` as a predecessor of a handler block that has `old`. Each phi of it reads on the new
edge what it reads on the old one. -/
def shareEdge (x : Block) (old new : BlockId) : Block :=
  match x.predecessors.idxOf? old with
  | none => x
  | some edge =>
    { x with
      predecessors := x.predecessors ++ [new]
      phis := x.phis.map fun p => { p with operands := p.operands ++ p.operands[edge]?.toList } }

/-- The layout with `new` right after `b`. -/
def layoutAfter (order : List BlockId) (b new : BlockId) : List BlockId :=
  order.insertIdx ((order.idxOf? b).map (· + 1) |>.getD order.length) new

/-- Moves the instructions from `index` on into a new block, which takes over the successors, and
jumps to it. -/
def split (c : Body) (b : BlockId) (index : Nat) : Except Fault (BlockId × Body) := do
  let x ← c.block b
  if x.instructions.length < index then throw (.noPlace b index)
  let new : BlockId := ⟨c.blocks.length⟩
  let tail := x.instructions.drop index
  let c ← c.modifyBlock b fun x => { x with instructions := x.instructions.take index }
  let c ← tail.foldlM (fun c i => c.modifyInstruction i fun y => { y with block := new }) c
  let c : Body := { c with
    blocks := c.blocks ++ [{ instructions := tail, predecessors := [b], handlers := x.handlers }]
    order := layoutAfter c.order b new }
  let jumps ← c.normalSuccessors new
  let c ← jumps.foldlM (fun c s => c.modifyBlock s fun y =>
    { y with predecessors := y.predecessors.map fun p => if p = b then new else p }) c
  let c ← x.handlers.foldlM (fun c h => c.modifyBlock h.target (shareEdge · b new)) c
  let (_, c) ← c.append b (.goto new)
  return (new, { c with version := c.version + 1 })

end Body

end Devirt
