import Devirt.Body.Ids
import Devirt.Dispatch.Basic

/-!
Operations of the single-assignment form: what each one defines, reads, and jumps to.
-/

namespace Devirt

structure Call where
  kind : DispatchKind
  method : MethodRef
  out : Option ValueId := none
  arguments : List ValueId
  deriving DecidableEq

def Call.receiver? (c : Call) : Option ValueId := c.arguments.head?

inductive Operation where
  | argument (out : ValueId) (index : Nat)
  | number (out : ValueId) (value : Int64)
  | null (out : ValueId)
  | create (out : ValueId) (name : TypeName)
  | call (c : Call)
  | cast (out object : ValueId) (name : TypeName)
  | assumeNonNull (out source : ValueId) (origin : Option InstrId)
  | goto (target : BlockId)
  | branch (condition : ValueId) (whenTrue whenFalse : BlockId)
  | ret (value : Option ValueId)
  | throw (exception : ValueId)
  deriving DecidableEq

namespace Operation

def out? : Operation → Option ValueId
  | .argument out _ | .number out _ | .null out | .create out _ | .cast out _ _
  | .assumeNonNull out _ _ => some out
  | .call c => c.out
  | .goto _ | .branch _ _ _ | .ret _ | .throw _ => none

def operands : Operation → List ValueId
  | .argument _ _ | .number _ _ | .null _ | .create _ _ | .goto _ => []
  | .call c => c.arguments
  | .cast _ object _ => [object]
  | .assumeNonNull _ source _ => [source]
  | .branch condition _ _ => [condition]
  | .ret value => value.toList
  | .throw exception => [exception]

def mapOperands (f : ValueId → ValueId) : Operation → Operation
  | .call c => .call { c with arguments := c.arguments.map f }
  | .cast out object name => .cast out (f object) name
  | .assumeNonNull out source origin => .assumeNonNull out (f source) origin
  | .branch condition t e => .branch (f condition) t e
  | .ret value => .ret (value.map f)
  | .throw exception => .throw (f exception)
  | op => op

/-- Reads `new` wherever the operation read `old`. -/
def replaceOperand (old new : ValueId) (op : Operation) : Operation :=
  op.mapOperands fun v => if v = old then new else v

/-- The blocks a jump leads to, one entry per edge. -/
def targets : Operation → List BlockId
  | .goto target => [target]
  | .branch _ t e => [t, e]
  | _ => []

def retarget (old new : BlockId) : Operation → Operation
  | .goto target => .goto (if target = old then new else target)
  | .branch condition t e =>
    .branch condition (if t = old then new else t) (if e = old then new else e)
  | op => op

def canThrow : Operation → Bool
  | .call _ | .cast _ _ _ | .create _ _ | .throw _ => true
  | _ => false

def isTerminator : Operation → Bool
  | .goto _ | .branch _ _ _ | .ret _ | .throw _ => true
  | _ => false

def call? : Operation → Option Call
  | .call c => some c
  | _ => none

/-- The class that a cast is to. -/
def castName? : Operation → Option TypeName
  | .cast _ _ name => some name
  | _ => none

@[simp] theorem operands_mapOperands (f : ValueId → ValueId) (op : Operation) :
    (op.mapOperands f).operands = op.operands.map f := by
  cases op with
  | ret value => cases value <;> rfl
  | _ => simp [mapOperands, operands]

@[simp] theorem out?_mapOperands (f : ValueId → ValueId) (op : Operation) :
    (op.mapOperands f).out? = op.out? := by
  cases op <;> rfl

@[simp] theorem targets_mapOperands (f : ValueId → ValueId) (op : Operation) :
    (op.mapOperands f).targets = op.targets := by
  cases op <;> rfl

@[simp] theorem isTerminator_mapOperands (f : ValueId → ValueId) (op : Operation) :
    (op.mapOperands f).isTerminator = op.isTerminator := by
  cases op <;> rfl

@[simp] theorem canThrow_mapOperands (f : ValueId → ValueId) (op : Operation) :
    (op.mapOperands f).canThrow = op.canThrow := by
  cases op <;> rfl

end Operation

/-- An operation in the block it is placed in. -/
structure Instruction where
  block : BlockId
  op : Operation
  deriving DecidableEq

end Devirt
