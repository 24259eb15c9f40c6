import Devirt.Body.Basic

/-!
Edits of a body that leave its control flow alone. Every edit keeps the record of users up to date.
-/

namespace Devirt

namespace Body

def createBlock (c : Body) : BlockId × Body :=
  let b : BlockId := ⟨c.blocks.length⟩
  (b, { c with blocks := c.blocks ++ [{}], order := c.order ++ [b], version := c.version + 1 })

def createValue (c : Body) (type : StaticType) : ValueId × Body :=
  (⟨c.values.length⟩, { c with values := c.values ++ [{ type }] })

def setType (c : Body) (v : ValueId) (type : StaticType) : Except Fault Body :=
  c.modifyValue v fun x => { x with type }

def setDynamic (c : Body) (v : ValueId) (dynamic : Option ReferenceType) : Except Fault Body :=
  c.modifyValue v fun x => { x with dynamic }

def setLocalName (c : Body) (v : ValueId) (name : String) : Except Fault Body :=
  c.modifyValue v fun x => { x with localName := some name }

def setDefinition (c : Body) (v : ValueId) (definition : Definition) : Except Fault Body :=
  c.modifyValue v fun x => { x with definition }

def addUser (c : Body) (v : ValueId) (i : InstrId) : Except Fault Body :=
  c.modifyValue v fun x => { x with users := x.users.insert i }

def removeUser (c : Body) (v : ValueId) (i : InstrId) : Except Fault Body :=
  c.modifyValue v fun x => { x with users := x.users.erase i }

def addPhiUser (c : Body) (v phi : ValueId) : Except Fault Body :=
  c.modifyValue v fun x => { x with phiUsers := x.phiUsers.insert phi }

def removePhiUser (c : Body) (v phi : ValueId) : Except Fault Body :=
  c.modifyValue v fun x => { x with phiUsers := x.phiUsers.erase phi }

/-- Records an instruction as the definition of its output and a user of its operands. -/
def attach (c : Body) (i : InstrId) (op : Operation) : Except Fault Body := do
  let c ← op.out?.toList.foldlM (fun c v => c.setDefinition v (.instruction i)) c
  op.operands.foldlM (fun c v => c.addUser v i) c

/-- Undoes `attach`, unless the output has been given another definition since. -/
def detach (c : Body) (i : InstrId) (op : Operation) : Except Fault Body := do
  let forget (x : Value) : Value :=
    if x.definition = .instruction i then { x with definition := .undefined } else x
  let c ← op.out?.toList.foldlM (fun c v => c.modifyValue v forget) c
  op.operands.foldlM (fun c v => c.removeUser v i) c

/-- Places a new instruction so that it stands at the given index of the block. -/
def insertAt (c : Body) (b : BlockId) (index : Nat) (op : Operation) :
    Except Fault (InstrId × Body) := do
  let x ← c.block b
  if x.instructions.length < index then throw (.noPlace b index)
  let i : InstrId := ⟨c.instructions.length⟩
  let c : Body := { c with instructions := c.instructions ++ [{ block := b, op }] }
  let c ← c.modifyBlock b fun x => { x with instructions := x.instructions.insertIdx index i }
  return (i, ← c.attach i op)

def append (c : Body) (b : BlockId) (op : Operation) : Except Fault (InstrId × Body) := do
  let x ← c.block b
  c.insertAt b x.instructions.length op

/-- Places a new instruction right before another one. -/
def insertBefore (c : Body) (anchor : InstrId) (op : Operation) :
    Except Fault (InstrId × Body) := do
  let b ← c.blockOf anchor
  let x ← c.block b
  c.insertAt b ((← c.index? anchor).getD x.instructions.length) op

/-- Gives an instruction another operation. -/
def replace (c : Body) (i : InstrId) (op : Operation) : Except Fault Body := do
  let c ← c.detach i (← c.operation i)
  let c ← c.modifyInstruction i fun x => { x with op }
  c.attach i op

/-- Adds a phi with the given operands, and records it as their user. -/
def placePhi (c : Body) (b : BlockId) (phi : Phi) : Except Fault Body := do
  let c ← c.setDefinition phi.out (.phi b)
  let c ← phi.operands.foldlM (fun c v => c.addPhiUser v phi.out) c
  c.modifyBlock b fun x => { x with phis := x.phis ++ [phi] }

def addPhi (c : Body) (b : BlockId) (type : StaticType) (operands : List ValueId) :
    Except Fault (ValueId × Body) := do
  let (out, c) := c.createValue type
  return (out, ← c.placePhi b { out, operands })

/-- Lets one instruction read `new` wherever it read `old`, and tells whether it read `old`. -/
def redirectOperand (c : Body) (i : InstrId) (old new : ValueId) : Except Fault (Bool × Body) := do
  let op ← c.operation i
  if old ∈ op.operands then
    let c ← c.modifyInstruction i fun x => { x with op := x.op.replaceOperand old new }
    let c ← c.removeUser old i
    let c ← c.addUser new i
    return (true, c)
  else
    return (false, c)

end Body

end Devirt
