import Devirt.Body.Availability
import Devirt.Body.Edit

/-!
Replacing the uses of a value by another one from the place on where the other one is there.
-/

namespace Devirt

/-- Where a replacement took place: instructions, and phis by their outputs. -/
structure Redirected where
  instructions : List InstrId := []
  phis : List ValueId := []
  deriving DecidableEq

def Redirected.isEmpty (r : Redirected) : Bool := r.instructions.isEmpty && r.phis.isEmpty

/-- Replaces `old` by `new` on the edges marked as open. -/
def redirectInputs (old new : ValueId) : List ValueId → List Bool → List ValueId
  | v :: operands, isOpen :: edges =>
    (if v = old && isOpen then new else v) :: redirectInputs old new operands edges
  | operands, _ => operands

def Block.modifyPhi (x : Block) (out : ValueId) (f : Phi → Phi) : Block :=
  { x with phis := x.phis.modify (x.phis.findIdx (·.out = out)) f }

namespace Body

/-- Lets a phi read `new` instead of `old` on each edge where `new` is available, and tells whether
there is one. -/
def redirectPhi (c : Body) (t : DominatorTree) (old new phi : ValueId) :
    Except Fault (Bool × Body) := do
  let .phi b := (← c.value phi).definition | return (false, c)
  let x ← c.block b
  let some p := x.phi? phi | return (false, c)
  let edges ← x.predecessors.mapM fun source => c.availableOnEdge t new source b
  if (p.operands.zip edges).all fun (v, isOpen) => v ≠ old || !isOpen then return (false, c)
  let operands := redirectInputs old new p.operands edges
  let c ← c.modifyBlock b (·.modifyPhi phi fun p => { p with operands })
  let c ← if old ∈ operands then pure c else c.removePhiUser old phi
  return (true, ← c.addPhiUser new phi)

/-- Lets an instruction read `new`, which `definer` defines, instead of `old` if it stands after
the definition, and tells whether it now does. -/
def redirectUser (c : Body) (t : DominatorTree) (old new : ValueId) (definer user : InstrId) :
    Except Fault (Bool × Body) := do
  if ← c.standsAfter t definer new user then c.redirectOperand user old new
  else return (false, c)

/-- Replaces `old` by `new`, which `definer` defines, in every use where `new` is there. The
definition itself and the excluded instructions keep reading `old`. -/
def redirectUses (c : Body) (t : DominatorTree) (old new : ValueId) (definer : InstrId)
    (excluded : List InstrId) : Except Fault (Redirected × Body) := do
  let users := (← c.value old).users.toList.filter fun i => i ≠ definer && i ∉ excluded
  let (instructions, c) ← users.foldlM (fun (done, c) i => do
    let (changed, c) ← c.redirectUser t old new definer i
    return (if changed then done ++ [i] else done, c)) ([], c)
  let (phis, c) ← (← c.value old).phiUsers.toList.foldlM (fun (done, c) phi => do
    let (changed, c) ← c.redirectPhi t old new phi
    return (if changed then done ++ [phi] else done, c)) ([], c)
  return ({ instructions, phis }, c)

end Body

end Devirt
