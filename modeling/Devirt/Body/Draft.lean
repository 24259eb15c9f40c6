import Devirt.Body.Edit
import Devirt.Body.Flow

/-!
Writing a body from scratch. A draft appends instructions to blocks in any order; predecessors and
phis are settled when it is sealed, so a phi may name values that are defined later.
-/

namespace Devirt

structure PendingPhi where
  block : BlockId
  out : ValueId
  incoming : List (BlockId × ValueId)
  deriving DecidableEq

/-- For each predecessor the first value given for it; predecessors without one are left out. -/
def PendingPhi.operands (p : PendingPhi) (predecessors : List BlockId) : List ValueId :=
  predecessors.filterMap fun b => p.incoming.lookup b

structure Draft where
  body : Body
  arguments : Nat := 0
  phis : List PendingPhi := []
  deriving DecidableEq

abbrev Drafting := StateT Draft (Except Fault)

namespace Drafting

def edit (f : Body → Except Fault Body) : Drafting Unit := do
  let d ← get
  set { d with body := ← f d.body }

def newBlock : Drafting BlockId := do
  let d ← get
  let (b, body) := d.body.createBlock
  set { d with body }
  return b

def newValue (type : StaticType) : Drafting ValueId := do
  let d ← get
  let (v, body) := d.body.createValue type
  set { d with body }
  return v

def emit (b : BlockId) (op : Operation) : Drafting InstrId := do
  let d ← get
  let (i, body) ← d.body.append b op
  set { d with body }
  return i

def typeOf (v : ValueId) : Drafting StaticType := do
  return (← (← get).body.value v).type

/-- Appends an operation with a new value as its output. -/
def define (b : BlockId) (type : StaticType) (op : ValueId → Operation) : Drafting ValueId := do
  let v ← newValue type
  let _ ← emit b (op v)
  return v

/-- The next argument of the method. Arguments are read in the entry block. -/
def argument (type : StaticType) : Drafting ValueId := do
  let d ← get
  set { d with arguments := d.arguments + 1 }
  define d.body.entry type fun v => .argument v d.arguments

def localName (v : ValueId) (name : String) : Drafting Unit := edit (·.setLocalName v name)

def dynamic (v : ValueId) (r : ReferenceType) : Drafting Unit := edit (·.setDynamic v (some r))

def create (b : BlockId) (name : TypeName) : Drafting ValueId :=
  define b (.exactly name .notNull) fun v => .create v name

def null (b : BlockId) : Drafting ValueId := define b .null .null

def number (b : BlockId) (n : Int64) : Drafting ValueId :=
  define b (.primitive .int) fun v => .number v n

def call (b : BlockId) (kind : DispatchKind) (method : MethodRef) (arguments : List ValueId) :
    Drafting InstrId :=
  emit b (.call { kind, method, arguments })

def callWithResult (b : BlockId) (kind : DispatchKind) (method : MethodRef)
    (arguments : List ValueId) (type : StaticType) : Drafting ValueId :=
  define b type fun v => .call { kind, method, out := some v, arguments }

/-- A cast keeps what is known about null. -/
def cast (b : BlockId) (object : ValueId) (name : TypeName) : Drafting ValueId := do
  let t ← typeOf object
  define b (.ofClass name t.nullability) fun v => .cast v object name

def assumeNonNull (b : BlockId) (source : ValueId) (origin : Option InstrId) :
    Drafting ValueId := do
  let t ← typeOf source
  define b (t.withNullability .notNull) fun v => .assumeNonNull v source origin

def phi (block : BlockId) (type : StaticType) (incoming : List (BlockId × ValueId)) :
    Drafting ValueId := do
  let out ← newValue type
  modify fun d => { d with phis := d.phis ++ [{ block, out, incoming }] }
  return out

def handler (b : BlockId) (guard : Option TypeName) (target : BlockId) : Drafting Unit :=
  edit (·.modifyBlock b fun x => { x with handlers := x.handlers ++ [{ guard, target }] })

def goto (b target : BlockId) : Drafting InstrId := emit b (.goto target)

def branch (b : BlockId) (condition : ValueId) (whenTrue whenFalse : BlockId) :
    Drafting InstrId :=
  emit b (.branch condition whenTrue whenFalse)

def ret (b : BlockId) (value : Option ValueId) : Drafting InstrId := emit b (.ret value)

def raise (b : BlockId) (exception : ValueId) : Drafting InstrId := emit b (.throw exception)

end Drafting

/-- Recomputes all predecessor lists from the successors, one entry per edge. -/
def Body.connect (c : Body) : Except Fault Body := do
  let c : Body := { c with blocks := c.blocks.map fun x => { x with predecessors := [] } }
  let edges ← c.order.mapM fun b => do return (b, ← c.successors b)
  edges.foldlM (fun c (b, targets) => targets.foldlM (fun c target =>
    c.modifyBlock target fun x => { x with predecessors := x.predecessors ++ [b] }) c) c

/-- The finished body. -/
def Draft.seal (d : Draft) : Except Fault Body := do
  let c ← d.body.connect
  d.phis.foldlM (fun c p => do
    let x ← c.block p.block
    c.placePhi p.block { out := p.out, operands := p.operands x.predecessors }) c

/-- One step of writing a body. -/
inductive DraftStep where
  | newBlock
  | argument (type : StaticType)
  | localName (v : ValueId) (name : String)
  | dynamic (v : ValueId) (r : ReferenceType)
  | create (b : BlockId) (name : TypeName)
  | null (b : BlockId)
  | number (b : BlockId) (n : Int64)
  | call (b : BlockId) (kind : DispatchKind) (method : MethodRef) (arguments : List ValueId)
  | callWithResult (b : BlockId) (kind : DispatchKind) (method : MethodRef)
      (arguments : List ValueId) (type : StaticType)
  | cast (b : BlockId) (object : ValueId) (name : TypeName)
  | assumeNonNull (b : BlockId) (source : ValueId) (origin : Option InstrId)
  | phi (b : BlockId) (type : StaticType) (incoming : List (BlockId × ValueId))
  | handler (b : BlockId) (guard : Option TypeName) (target : BlockId)
  | goto (b target : BlockId)
  | branch (b : BlockId) (condition : ValueId) (whenTrue whenFalse : BlockId)
  | ret (b : BlockId) (value : Option ValueId)
  | raise (b : BlockId) (exception : ValueId)
  deriving DecidableEq

/-- What a step has made. -/
inductive Created where
  | nothing
  | block (b : BlockId)
  | instruction (i : InstrId)
  | value (v : ValueId)
  deriving DecidableEq

namespace DraftStep

def perform : DraftStep → Drafting Created
  | newBlock => .block <$> Drafting.newBlock
  | argument type => .value <$> Drafting.argument type
  | localName v name => do Drafting.localName v name; return .nothing
  | dynamic v r => do Drafting.dynamic v r; return .nothing
  | create b name => .value <$> Drafting.create b name
  | null b => .value <$> Drafting.null b
  | number b n => .value <$> Drafting.number b n
  | call b kind method arguments => .instruction <$> Drafting.call b kind method arguments
  | callWithResult b kind method arguments type =>
    .value <$> Drafting.callWithResult b kind method arguments type
  | cast b object name => .value <$> Drafting.cast b object name
  | assumeNonNull b source origin => .value <$> Drafting.assumeNonNull b source origin
  | phi b type incoming => .value <$> Drafting.phi b type incoming
  | handler b guard target => do Drafting.handler b guard target; return .nothing
  | goto b target => .instruction <$> Drafting.goto b target
  | branch b condition whenTrue whenFalse =>
    .instruction <$> Drafting.branch b condition whenTrue whenFalse
  | ret b value => .instruction <$> Drafting.ret b value
  | raise b exception => .instruction <$> Drafting.raise b exception

end DraftStep

/-- Writes a body of the method and returns it with the result of the writing. -/
def Body.write {α : Type} (method : MethodRef) (w : Drafting α) : Except Fault (α × Body) := do
  let (a, d) ← w.run { body := { method } }
  return (a, ← d.seal)

/-- Writes a body step by step. -/
def Body.ofSteps (method : MethodRef) (steps : List DraftStep) :
    Except Fault (List Created × Body) :=
  Body.write method (steps.mapM DraftStep.perform)

end Devirt
