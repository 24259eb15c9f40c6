import Devirt.Body.Instruction
import Devirt.Types.Lattice

/-!
Method bodies in single-assignment form. Blocks, instructions and values live in numbered stores
and are never removed; `order` lists the blocks as they are laid out. Each value records which
instructions and phis read it.
-/

namespace Devirt

/-- One operand for each predecessor of the block. -/
structure Phi where
  out : ValueId
  operands : List ValueId
  deriving DecidableEq

/-- Where control goes when an instruction of the block throws. -/
structure Handler where
  guard : Option TypeName
  target : BlockId
  deriving DecidableEq

structure Block where
  phis : List Phi := []
  instructions : List InstrId := []
  predecessors : List BlockId := []
  handlers : List Handler := []
  deriving DecidableEq

namespace Block

def phi? (b : Block) (out : ValueId) : Option Phi := b.phis.find? (·.out = out)

def isGuarded (b : Block) : Bool := !b.handlers.isEmpty

def handlesInto (b : Block) (target : BlockId) : Bool := b.handlers.any (·.target = target)

end Block

inductive Definition where
  | undefined
  | instruction (i : InstrId)
  | phi (b : BlockId)
  deriving DecidableEq

structure Value where
  type : StaticType
  /-- What is known of the class at run time, beyond the declared type. -/
  dynamic : Option ReferenceType := none
  definition : Definition := .undefined
  users : OrderedSet InstrId := ∅
  phiUsers : OrderedSet ValueId := ∅
  /-- The source variable the value stands for. -/
  localName : Option String := none
  deriving DecidableEq

namespace Value

def bestType (v : Value) : StaticType :=
  match v.dynamic with
  | some r => .reference r
  | none => v.type

def isNamed (v : Value) : Bool := v.localName.isSome

def isPhi (v : Value) : Bool :=
  match v.definition with
  | .phi _ => true
  | _ => false

def hasUsers (v : Value) : Bool := !v.users.isEmpty || !v.phiUsers.isEmpty

end Value

structure Body where
  method : MethodRef
  blocks : List Block := [{}]
  order : List BlockId := [⟨0⟩]
  instructions : List Instruction := []
  values : List Value := []
  /-- Counts the changes to the set of blocks. -/
  version : Nat := 0
  deriving DecidableEq

namespace Body

def entry (_ : Body) : BlockId := ⟨0⟩

/-- The class the code belongs to. -/
def context (c : Body) : TypeName := c.method.holder

def block (c : Body) (b : BlockId) : Except Fault Block :=
  match c.blocks[b.index]? with
  | some x => .ok x
  | none => .error (.noBlock b)

def instruction (c : Body) (i : InstrId) : Except Fault Instruction :=
  match c.instructions[i.index]? with
  | some x => .ok x
  | none => .error (.noInstruction i)

def value (c : Body) (v : ValueId) : Except Fault Value :=
  match c.values[v.index]? with
  | some x => .ok x
  | none => .error (.noValue v)

def operation (c : Body) (i : InstrId) : Except Fault Operation := do
  return (← c.instruction i).op

/-- The call an instruction makes, if it is one. -/
def call? (c : Body) (i : InstrId) : Except Fault (Option Call) := do
  return (← c.operation i).call?

def blockOf (c : Body) (i : InstrId) : Except Fault BlockId := do
  return (← c.instruction i).block

/-- Whether an instruction is recorded as a user of a value. -/
def hasUser (c : Body) (v : ValueId) (i : InstrId) : Except Fault Bool := do
  return i ∈ (← c.value v).users

def modifyBlock (c : Body) (b : BlockId) (f : Block → Block) : Except Fault Body := do
  let _ ← c.block b
  return { c with blocks := c.blocks.modify b.index f }

def modifyInstruction (c : Body) (i : InstrId) (f : Instruction → Instruction) :
    Except Fault Body := do
  let _ ← c.instruction i
  return { c with instructions := c.instructions.modify i.index f }

def modifyValue (c : Body) (v : ValueId) (f : Value → Value) : Except Fault Body := do
  let _ ← c.value v
  return { c with values := c.values.modify v.index f }

/-- The laid out blocks with their numbers. -/
def layout (c : Body) : Except Fault (List (BlockId × Block)) :=
  c.order.mapM fun b => do return (b, ← c.block b)

/-- The instructions of all blocks in layout order. -/
def placed (c : Body) : Except Fault (List InstrId) := do
  return (← c.layout).flatMap fun (_, x) => x.instructions

/-- The place of an instruction in the block it records. -/
def index? (c : Body) (i : InstrId) : Except Fault (Option Nat) := do
  let x ← c.block (← c.blockOf i)
  return x.instructions.idxOf? i

end Body

end Devirt
