import Devirt.Body.Flow
import Devirt.TreeWalk

/-!
Dominator trees. The immediate dominators of the blocks form a tree, and numbers given to its blocks
on one walk answer whether a block dominates another one. A tree is a snapshot: it keeps answering
for the control flow it was built from, whatever happens to the body later.
-/

namespace Devirt

/-- The reachable blocks other than the entry, each with its immediate dominator. Among the blocks
that every path to a block passes before, this is the one found last. It takes the place of a library
function that may search in another way: the flow graph alone determines the answer. -/
def FlowGraph.immediateDominators (g : FlowGraph) : List (BlockId × BlockId) :=
  let reachable := g.reachable
  let dominated := reachable.map fun a =>
    let others := g.reachableAvoiding a
    (a, reachable.filter fun b => b ≠ a && b ∉ others)
  reachable.filterMap fun b =>
    (dominated.filter fun p => b ∈ p.2).getLast?.map fun p => (b, p.1)

/-- Keeps the parents of the blocks in the tree and the time a walk through the tree spends below
each block. Both know reachable blocks only. -/
structure DominatorTree where
  entry : BlockId
  version : Nat
  parents : List (BlockId × BlockId)
  numbering : List (BlockId × Span)
  deriving DecidableEq

namespace DominatorTree

def childrenOf (parents : List (BlockId × BlockId)) (a : BlockId) : List BlockId :=
  (parents.filter fun p => p.2 = a).map (·.1)

def ofFlow (g : FlowGraph) (version : Nat) : DominatorTree :=
  let parents := g.immediateDominators
  { entry := g.entry
    version
    parents
    numbering := numberTree (childrenOf parents) (2 * (parents.length + 1)) [.enter g.entry] 0 }

def span? (t : DominatorTree) (b : BlockId) : Option Span := t.numbering.lookup b

def isReachable (t : DominatorTree) (b : BlockId) : Bool := (t.span? b).isSome

/-- Unreachable blocks are dominated by themselves alone. -/
def dominates (t : DominatorTree) (a b : BlockId) : Bool :=
  a = b || (t.span? a).any fun s => (t.span? b).any s.covers

def strictlyDominates (t : DominatorTree) (a b : BlockId) : Bool := a ≠ b && t.dominates a b

/-- The immediate dominator. -/
def parent? (t : DominatorTree) (b : BlockId) : Option BlockId := t.parents.lookup b

/-- Whether no block has been created or split since the tree was built. -/
def isCurrent (t : DominatorTree) (c : Body) : Bool := t.version = c.version

@[simp] theorem dominates_refl (t : DominatorTree) (b : BlockId) : t.dominates b b = true := by
  simp [dominates]

end DominatorTree

def Body.dominators (c : Body) : Except Fault DominatorTree := do
  return .ofFlow (← c.flow) c.version

end Devirt
