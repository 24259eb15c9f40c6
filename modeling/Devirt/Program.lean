import Devirt.Execution.Value
import Devirt.Phase

/-!
Whole programs: a hierarchy, bodies for some methods, and where execution begins.
-/

namespace Devirt

structure Program where
  hierarchy : Hierarchy
  entry : MethodRef
  arguments : List RuntimeValue := []
  bodies : List Body := []

namespace Program

def addBody (p : Program) (c : Body) : Program := { p with bodies := p.bodies ++ [c] }

/-- Of several bodies for a method the last one counts. -/
def bodyIndex? (p : Program) (m : MethodRef) : Option Nat :=
  (p.bodies.zipIdx.reverse.find? fun (c, _) => c.method = m).map (·.2)

def body? (p : Program) (m : MethodRef) : Option Body :=
  p.bodies.reverse.find? (·.method = m)

/-- Runs a phase over all bodies. Bodies stay changed also when the phase fails. -/
def optimize (p : Program) (settings : Settings) (extra : List (Pass p.hierarchy)) :
    Except Fault (Program × Except Failure PhaseReport) := do
  let (bodies, report) ← (Phase.standard settings extra).run p.bodies
  return ({ p with bodies }, report)

/-- Puts another body in the place of the one that counts for the method. -/
def replaceBody (p : Program) (m : MethodRef) (c : Body) : Program :=
  { p with bodies := ((p.bodyIndex? m).map (p.bodies.set · c)).getD p.bodies }

/-- Devirtualizes the body of one method, if it has one. -/
def devirtualize (p : Program) (options : Options) (resolver : Resolver p.hierarchy)
    (m : MethodRef) : Except Fault (Option (PassRun p.hierarchy Devirtualized)) := do
  let some c := p.body? m | return none
  return some (← c.devirtualize options resolver)

end Program

end Devirt
