import Devirt.Body.Basic

/-!
The printed form of a body.
-/

namespace Devirt

def DispatchKind.mnemonic : DispatchKind → String
  | .virtual => "invoke-virtual"
  | .interface => "invoke-interface"
  | .super => "invoke-super"

private def valueList (l : List ValueId) : String := ", ".intercalate (l.map (·.text))

def Operation.effectText : Operation → String
  | .argument _ index => "argument " ++ Nat.repr index
  | .number _ value => "const " ++ toString value.toInt
  | .null _ => "const-null"
  | .create _ name => "new-instance " ++ name
  | .call c => c.kind.mnemonic ++ " " ++ c.method.text ++ " " ++ valueList c.arguments
  | .cast _ object name => "check-cast " ++ name ++ " " ++ object.text
  | .assumeNonNull _ source _ => "assume-non-null " ++ source.text
  | .goto target => "goto " ++ target.text
  | .branch condition t e => "if " ++ condition.text ++ " " ++ t.text ++ " " ++ e.text
  | .ret (some value) => "return " ++ value.text
  | .ret none => "return"
  | .throw exception => "throw " ++ exception.text

def Operation.text (op : Operation) : String :=
  match op.out? with
  | some out => out.text ++ " <- " ++ op.effectText
  | none => op.effectText

def Phi.text (p : Phi) : String := p.out.text ++ " <- phi " ++ valueList p.operands

def Handler.text (h : Handler) : String := "catch " ++ h.guard.getD "*" ++ " -> " ++ h.target.text

def Block.heading (b : BlockId) (x : Block) : String :=
  match x.predecessors with
  | [] => b.text ++ ":"
  | l => b.text ++ ": <- " ++ ", ".intercalate (l.map (·.text))

/-- The lines of a text. A carriage return at the end of a line is part of its break. -/
def linesOf (s : String) : List String :=
  (s.toList.splitOn '\n').map fun line =>
    String.ofList (if line.getLast? = some '\r' then line.dropLast else line)

namespace Body

def blockListing (c : Body) (b : BlockId) (x : Block) : Except Fault (List String) := do
  let operations ← x.instructions.mapM c.operation
  let lines := x.handlers.map (·.text) ++ x.phis.map (·.text) ++ operations.map (·.text)
  return x.heading b :: lines.map ("  " ++ ·)

/-- One line for the method, then the blocks in layout order. A name with line breaks in it goes on
in the next line. -/
def listing (c : Body) : Except Fault (List String) := do
  let blocks ← (← c.layout).mapM fun (b, x) => c.blockListing b x
  return (("method " ++ c.method.text) :: blocks.flatten).flatMap linesOf

end Body

end Devirt
