import Devirt.Execution.Selection
import Devirt.Program

/-!
Execution of programs. The machine keeps a stack of frames, and each of its steps executes one
instruction. A run ends when the first frame returns, when something goes wrong, or when it has
used up its steps.
-/

namespace Devirt

abbrev Executing := Except RunError

/-- A body that cannot be read stops the run. -/
def Executing.ofBody {α : Type} (x : Except Fault α) : Executing α := x.mapError .malformed

/-- One activation of a body. `rest` holds what is left of the current block, and `next` the block
that a jump has chosen. -/
structure Frame where
  body : Body
  arguments : List RuntimeValue
  values : List (ValueId × RuntimeValue) := []
  block : BlockId
  rest : List InstrId
  next : Option BlockId := none
  deriving DecidableEq

namespace Frame

def read (f : Frame) (v : ValueId) : Executing RuntimeValue :=
  match f.values.lookup v with
  | some x => .ok x
  | none => .error (.undefinedValue v)

def write (f : Frame) (v : ValueId) (x : RuntimeValue) : Frame :=
  { f with values := (v, x) :: f.values.filter (·.1 ≠ v) }

def writeAll (f : Frame) (l : List (ValueId × RuntimeValue)) : Frame :=
  l.foldl (fun f (v, x) => f.write v x) f

/-- What a phi reads on the edge of the given number. -/
def readPhi (f : Frame) (edge : Nat) (p : Phi) : Executing (ValueId × RuntimeValue) := do
  let some v := p.operands[edge]? | throw (.malformed (.noOperand p.out))
  return (p.out, ← f.read v)

/-- Passes control to a block. Its phis are read together before any of them is written. -/
def enter (f : Frame) (b : BlockId) : Executing Frame := do
  let x ← Executing.ofBody (f.body.block b)
  let inputs ←
    match x.predecessors.idxOf? f.block with
    | some edge => x.phis.mapM (f.readPhi edge)
    | none => pure []
  return { f.writeAll inputs with block := b, rest := x.instructions, next := none }

/-- A block must leave something to execute. -/
def expectRest (f : Frame) : Executing Frame :=
  if f.rest.isEmpty then .error (.missingTerminator f.block) else .ok f

/-- Goes on to the chosen block at the end of the current one. -/
def settle (f : Frame) : Executing Frame :=
  if f.rest.isEmpty then
    match f.next with
    | some b => do (← f.enter b).expectRest
    | none => .error (.missingTerminator f.block)
  else .ok f

def start (c : Body) (arguments : List RuntimeValue) : Executing Frame := do
  let x ← Executing.ofBody (c.block c.entry)
  ({ body := c, arguments, block := c.entry, rest := x.instructions } : Frame).expectRest

end Frame

/-- `callers` holds the waiting frames, the latest first, each with the value that takes the result
of its call. `calls` holds the methods called so far, the latest first. -/
structure Machine where
  frame : Frame
  callers : List (Frame × Option ValueId) := []
  calls : List MethodRef := []
  deriving DecidableEq

/-- How many bodies may be active at once. -/
def Machine.maxDepth : Nat := 256

/-- How many steps a run takes at most unless told otherwise. -/
def Machine.defaultLimit : Nat := 100000

inductive Progress where
  | running (m : Machine)
  | finished (calls : List MethodRef)
  deriving DecidableEq

namespace Machine

def continueWith (m : Machine) (f : Frame) : Executing Progress := do
  return .running { m with frame := ← f.settle }

/-- Hands the result of a call to the frame that waits for it. -/
def resume (m : Machine) (f : Frame) (out : Option ValueId) (result : RuntimeValue) :
    Executing Progress :=
  m.continueWith (match out with
    | some v => f.write v result
    | none => f)

/-- Leaves the current frame. -/
def leave (m : Machine) (result : RuntimeValue) : Executing Progress :=
  match m.callers with
  | [] => .ok (.finished m.calls)
  | (f, out) :: callers => { m with callers }.resume f out result

/-- Calls a method from the frame `f`. A method without a body returns null at once. -/
def call (p : Program) (m : Machine) (f : Frame) (out : Option ValueId) (target : MethodRef)
    (arguments : List RuntimeValue) : Executing Progress :=
  let m := { m with calls := target :: m.calls }
  match p.body? target with
  | none => m.resume f out .null
  | some c =>
    if maxDepth ≤ m.callers.length + 1 then .error .callDepth
    else do
      let frame ← Frame.start c arguments
      return .running { m with frame, callers := (f, out) :: m.callers }

/-- Executes an operation in the frame `f`, from which it has already been taken. -/
def execute (p : Program) (m : Machine) (f : Frame) : Operation → Executing Progress
  | .argument out index => m.continueWith (f.write out (f.arguments[index]?.getD .null))
  | .number out value => m.continueWith (f.write out (.int value))
  | .null out => m.continueWith (f.write out .null)
  | .create out name => m.continueWith (f.write out (.object name))
  | .cast out object name => do
    let x ← f.read object
    match x with
    | .object source =>
      if p.hierarchy.isSubtype source name then m.continueWith (f.write out x)
      else throw (.badCast source name)
    | _ => m.continueWith (f.write out x)
  | .assumeNonNull out source _ => do m.continueWith (f.write out (← f.read source))
  | .call c => do
    let arguments ← c.arguments.mapM f.read
    let target ← p.hierarchy.selectTarget f.body.context c.kind c.method arguments
    m.call p f c.out target arguments
  | .goto target => m.continueWith { f with next := some target }
  | .branch condition t e => do
    let taken := (← f.read condition).isTrue
    m.continueWith { f with next := some (if taken then t else e) }
  | .ret none => m.leave .null
  | .ret (some v) => do m.leave (← f.read v)
  | .throw _ => .error (.thrown f.body.method)

/-- Executes the next instruction. -/
def step (p : Program) (m : Machine) : Executing Progress :=
  match m.frame.rest with
  | [] => .error (.missingTerminator m.frame.block)
  | i :: rest => do
    let op ← Executing.ofBody (m.frame.body.operation i)
    m.execute p { m.frame with rest } op

/-- Executes instructions as long as steps are left of the limit. -/
def run (p : Program) (limit : Nat) : Nat → Machine → Executing (List MethodRef)
  | 0, _ => .error (.stepLimit limit)
  | steps + 1, m => do
    match ← m.step p with
    | .running m => run p limit steps m
    | .finished calls => return calls

end Machine

namespace Program

/-- The methods called when the given one is executed, in order, itself first. -/
def callsOf (p : Program) (limit : Nat) (method : MethodRef) (arguments : List RuntimeValue) :
    Executing (List MethodRef) :=
  match p.body? method with
  | none => return [method]
  | some c => do
    let frame ← Frame.start c arguments
    return (← Machine.run p limit limit { frame, calls := [method] }).reverse

/-- The trace of a run from any method. -/
def traceOf (p : Program) (limit : Nat) (method : MethodRef) (arguments : List RuntimeValue) :
    Executing (List String) := do
  return (← p.callsOf limit method arguments).map (·.qualifiedName)

/-- The trace of a run from the entry. -/
def trace (p : Program) : Executing (List String) :=
  p.traceOf Machine.defaultLimit p.entry p.arguments

end Program

end Devirt
