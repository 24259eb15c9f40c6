import Devirt.Body.Split
import Devirt.Body.Uses
import Devirt.Dispatch.Resolver

/-!
What is carried from call site to call site while one body is devirtualized.
-/

namespace Devirt

structure CallStats where
  superToVirtual : Nat := 0
  specialized : Nat := 0
  interfaceToVirtual : Nat := 0
  castsInserted : Nat := 0
  castsReused : Nat := 0
  blocksSplit : Nat := 0
  deriving DecidableEq

/-- The number of changes to calls. -/
def CallStats.total (s : CallStats) : Nat := s.superToVirtual + s.specialized + s.interfaceToVirtual

namespace Devirtualization

structure State (h : Hierarchy) where
  body : Body
  resolver : Resolver h
  tree : DominatorTree
  /-- The latest cast of a value to a class, newer casts first. -/
  casts : List ((ValueId × TypeName) × ValueId) := []
  devirtualized : OrderedSet InstrId := ∅
  affected : OrderedSet ValueId := ∅
  stats : CallStats := {}

end Devirtualization

abbrev Devirtualizing (h : Hierarchy) := StateT (Devirtualization.State h) (Except Fault)

namespace Devirtualizing

variable {h : Hierarchy} {α : Type}

def query (f : Body → Except Fault α) : Devirtualizing h α := do
  f (← get).body

def edit (f : Body → Except Fault Body) : Devirtualizing h Unit := do
  let s ← get
  set { s with body := ← f s.body }

/-- An edit that also yields something. -/
def editWith (f : Body → Except Fault (α × Body)) : Devirtualizing h α := do
  let s ← get
  let (a, body) ← f s.body
  set { s with body }
  return a

def count (f : CallStats → CallStats) : Devirtualizing h Unit :=
  modify fun s => { s with stats := f s.stats }

def affect (l : List ValueId) : Devirtualizing h Unit :=
  modify fun s => { s with affected := s.affected.insertAll l }

def resolve (kind : DispatchKind) (method : MethodRef) (receiver : StaticType) :
    Devirtualizing h (Selection MethodRef) := do
  let s ← get
  let (answer, resolver) := s.resolver.resolve kind method receiver s.body.context
  set { s with resolver }
  return answer

def rebuildTree : Devirtualizing h Unit := do
  let s ← get
  set { s with tree := ← s.body.dominators }

/-- Gives a call another kind and method. -/
def retargetCall (i : InstrId) (kind : DispatchKind) (method : MethodRef) :
    Devirtualizing h Unit := do
  let some call ← query (·.call? i) | return
  edit (·.replace i (.call { call with kind, method }))

end Devirtualizing

end Devirt
