/-!
Numbers of blocks, instructions and values within one method body, and the faults of an edit or a
query that names something the body does not have.
-/

namespace Devirt

structure BlockId where
  index : Nat
  deriving DecidableEq

structure InstrId where
  index : Nat
  deriving DecidableEq

structure ValueId where
  index : Nat
  deriving DecidableEq

def BlockId.text (b : BlockId) : String := "B" ++ Nat.repr b.index

def InstrId.text (i : InstrId) : String := "i" ++ Nat.repr i.index

def ValueId.text (v : ValueId) : String := "v" ++ Nat.repr v.index

inductive Fault where
  | noBlock (b : BlockId)
  | noInstruction (i : InstrId)
  | noValue (v : ValueId)
  /-- A place beyond the end of a block. -/
  | noPlace (b : BlockId) (index : Nat)
  /-- A phi without an operand for the edge taken. -/
  | noOperand (phi : ValueId)
  /-- A search that does not come to rest. -/
  | unsettled
  deriving DecidableEq

end Devirt
