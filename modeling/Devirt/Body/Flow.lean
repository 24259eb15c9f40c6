import Devirt.BreadthFirst
import Devirt.Body.Basic

/-!
Control flow between the blocks of a body, over jumps and over handlers.
-/

namespace Devirt

namespace Body

/-- The last instruction of a block, if it is a terminator. -/
def terminator? (c : Body) (b : BlockId) : Except Fault (Option InstrId) := do
  match (← c.block b).instructions.getLast? with
  | none => return none
  | some i => return if (← c.operation i).isTerminator then some i else none

/-- The targets of the terminator, one entry per edge. -/
def normalSuccessors (c : Body) (b : BlockId) : Except Fault (List BlockId) := do
  match ← c.terminator? b with
  | none => return []
  | some i => return (← c.operation i).targets

/-- The targets of the terminator, then each further handler once. -/
def successors (c : Body) (b : BlockId) : Except Fault (List BlockId) := do
  let jumps ← c.normalSuccessors b
  let x ← c.block b
  return x.handlers.foldl (fun l h => if h.target ∈ l then l else l ++ [h.target]) jumps

end Body

/-- The control flow of a body at one moment. -/
structure FlowGraph where
  entry : BlockId
  edges : List (BlockId × List BlockId)
  deriving DecidableEq

namespace FlowGraph

def blocks (g : FlowGraph) : List BlockId := g.edges.map (·.1)

def next (g : FlowGraph) (b : BlockId) : List BlockId := (g.edges.lookup b).getD []

def edgeCount (g : FlowGraph) : Nat := (g.edges.flatMap (·.2)).length

/-- The blocks reached from the entry, nearer ones first. -/
def reachable (g : FlowGraph) : List BlockId :=
  breadthFirst g.next (g.edgeCount + 1) [g.entry] []

/-- The blocks reached from the entry without passing through `a`. -/
def reachableAvoiding (g : FlowGraph) (a : BlockId) : List BlockId :=
  breadthFirst (fun b => (g.next b).filter (· ≠ a)) (g.edgeCount + 1)
    ([g.entry].filter (· ≠ a)) []

end FlowGraph

/-- Jumps to blocks that do not exist lead nowhere. -/
def Body.flow (c : Body) : Except Fault FlowGraph := do
  let edges ← c.order.mapM fun b => do
    return (b, (← c.successors b).filter (· ∈ c.order))
  return { entry := c.entry, edges }

end Devirt
