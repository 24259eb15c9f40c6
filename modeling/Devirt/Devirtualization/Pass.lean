import Devirt.Devirtualization.CallSite
import Devirt.Failure
import Devirt.Narrowing

/-!
Devirtualization of a whole body: a walk over all call sites in layout order, type narrowing from
the values the walk has affected, and a consistency check.
-/

namespace Devirt

/-- A place in the layout of a body that is being walked. -/
structure Walk (h : Hierarchy) where
  state : Devirtualization.State h
  position : Nat := 0
  index : Nat := 0

namespace Walk

variable {h : Hierarchy}

/-- The block walked, past the end of the layout none. -/
def block? (w : Walk h) : Option BlockId := w.state.body.order[w.position]?

/-- The instruction to be visited next in the block walked. -/
def instruction? (w : Walk h) (b : BlockId) : Except Fault (Option InstrId) := do
  return (← w.state.body.block b).instructions[w.index]?

/-- Where the walk goes on after a visit. Instructions placed by the visit are passed over. -/
def resume (w : Walk h) (s : Devirtualization.State h) : Moved → Walk h
  | .stayed => { w with state := s, index := w.index + 1 }
  | .shifted => { w with state := s, index := w.index + 2 }
  | .split _ => { state := s, position := w.position + 1, index := 1 }

/-- One round: visits an instruction or turns to the next block. At the end there is no round. -/
def advance (options : Options) (w : Walk h) : Except Fault (Option (Walk h)) := do
  let some b := w.block? | return none
  match ← w.instruction? b with
  | none => return some { w with position := w.position + 1, index := 0 }
  | some i =>
    let (moved, s) ← (Devirtualizing.visit options i w.index).run w.state
    return some (w.resume s moved)

/-- Walks to the end of the layout. -/
def run (options : Options) : Nat → Walk h → Except Fault (Devirtualization.State h)
  | 0, _ => throw .unsettled
  | rounds + 1, w => do
    match ← w.advance options with
    | none => return w.state
    | some w => run options rounds w

end Walk

/-- The outcome of a pass over one body. The body is handed back also when the pass fails. -/
structure PassRun (h : Hierarchy) (α : Type) where
  body : Body
  resolver : Resolver h
  result : Except Failure α

structure Devirtualized where
  changed : Bool
  affected : OrderedSet ValueId
  stats : CallStats
  deriving DecidableEq

namespace Body

variable {h : Hierarchy}

/-- A walk visits each placed instruction once and turns to the next block once per block. -/
def walkRounds (c : Body) : Except Fault Nat := do
  return (← c.placed).length + c.order.length + 1

/-- Tries all call sites of a body. -/
def walkCalls (options : Options) (resolver : Resolver h) (c : Body) :
    Except Fault (Devirtualization.State h) := do
  let tree ← c.dominators
  Walk.run options (← c.walkRounds) { state := { body := c, resolver, tree } }

/-- Narrows types from the affected values if that is wanted; the narrowed ones are affected too. -/
def settleTypes (options : Options) (s : Devirtualization.State h) :
    Except Fault (OrderedSet ValueId × Body) := do
  if options.narrowTypes && !s.affected.isEmpty then
    let (narrowed, c) ← s.body.narrow h s.affected
    return (s.affected.insertAll narrowed.toList, c)
  else return (s.affected, s.body)

/-- Devirtualizes the calls of a body. -/
def devirtualize (options : Options) (resolver : Resolver h) (c : Body) :
    Except Fault (PassRun h Devirtualized) := do
  let s ← c.walkCalls options resolver
  let (affected, body) ← settleTypes options s
  let violations ← body.violations
  let result :=
    if violations.isEmpty then
      .ok { changed := 0 < s.stats.total, affected, stats := s.stats }
    else .error (.inconsistent body.method.text violations)
  return { body, resolver := s.resolver, result }

end Body

end Devirt
