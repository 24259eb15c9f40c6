import Devirt.Body.Dominance

/-!
Where a value may be read. The result of an instruction that can throw is not there yet when one of
the handlers of its block takes over.
-/

namespace Devirt

namespace Body

/-- The block from whose start on the value is there, together with all blocks it dominates. -/
def availableFrom? (c : Body) (v : ValueId) : Except Fault (Option BlockId) := do
  match (← c.value v).definition with
  | .undefined => return none
  | .phi b => return some b
  | .instruction i =>
    let x ← c.instruction i
    if x.op.canThrow && (← c.block x.block).isGuarded then
      match ← c.normalSuccessors x.block with
      | [next] => return if (← c.block next).predecessors = [x.block] then some next else none
      | _ => return none
    else return some x.block

def availableIn (c : Body) (t : DominatorTree) (v : ValueId) (b : BlockId) : Except Fault Bool := do
  return (← c.availableFrom? v).any (t.dominates · b)

/-- Whether control passes from one block to the other by a handler only. -/
def leavesByHandler (c : Body) (source target : BlockId) : Except Fault Bool := do
  return target ∉ (← c.normalSuccessors source) && (← c.block source).handlesInto target

/-- Whether a phi of `target` may read the value on the edge from `source`. -/
def availableOnEdge (c : Body) (t : DominatorTree) (v : ValueId) (source target : BlockId) :
    Except Fault Bool := do
  match (← c.value v).definition with
  | .instruction i =>
    let x ← c.instruction i
    if x.block = source then
      return !(x.op.canThrow && (← c.leavesByHandler source target))
    else c.availableIn t v source
  | _ => c.availableIn t v source

/-- Whether one instruction stands before another or is that instruction. -/
def instructionDominates (c : Body) (t : DominatorTree) (i j : InstrId) : Except Fault Bool := do
  let b ← c.blockOf i
  let b' ← c.blockOf j
  if b = b' then
    match ← c.index? i, ← c.index? j with
    | some n, some m => return n ≤ m
    | _, _ => return false
  else return t.dominates b b'

/-- Whether an instruction can read what another one, `definer`, defines as `v`: it stands later in
the same block, or in a block where `v` is available. -/
def standsAfter (c : Body) (t : DominatorTree) (definer : InstrId) (v : ValueId) (user : InstrId) :
    Except Fault Bool := do
  let b ← c.blockOf definer
  let b' ← c.blockOf user
  if b = b' then
    match ← c.index? definer, ← c.index? user with
    | some n, some m => return n < m
    | _, _ => return false
  else c.availableIn t v b'

end Body

end Devirt
