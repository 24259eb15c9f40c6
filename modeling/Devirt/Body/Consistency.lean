import Devirt.Body.Availability

/-!
The consistency check of a body. It collects every violation in a fixed order: first definitions,
then block by block control flow, operands and phis, and last the records kept on the values.
-/

namespace Devirt

inductive Violation where
  | duplicateDefinition (value : ValueId)
  | undefinedOperand (instruction : InstrId) (value : ValueId)
  | undefinedPhiOperand (phi value : ValueId)
  | useNotDominated (value : ValueId) (block : BlockId)
  | staleUsers (value : ValueId) (instruction : InstrId)
  | multipleThrowing (block : BlockId) (count : Nat)
  | asymmetricEdge (source target : BlockId)
  | phiArity (value : ValueId) (block : BlockId) (operands predecessors : Nat)
  | missingTerminator (block : BlockId)
  | misplacedTerminator (instruction : InstrId) (block : BlockId)
  deriving DecidableEq

def Violation.message : Violation → String
  | .duplicateDefinition v => v.text ++ " is defined more than once"
  | .undefinedOperand i v => i.text ++ " uses undefined value " ++ v.text
  | .undefinedPhiOperand p v => "phi " ++ p.text ++ " reads undefined value " ++ v.text
  | .useNotDominated v b =>
    "use of " ++ v.text ++ " in " ++ b.text ++ " is not dominated by its definition"
  | .staleUsers v i => "user list of " ++ v.text ++ " is out of date for " ++ i.text
  | .multipleThrowing b n =>
    b.text ++ " has catch handlers and " ++ Nat.repr n ++ " throwing instructions"
  | .asymmetricEdge a b => "edge " ++ a.text ++ " -> " ++ b.text ++ " is not recorded on both ends"
  | .phiArity v b m n =>
    "phi " ++ v.text ++ " in " ++ b.text ++ " has " ++ Nat.repr m ++ " operands for " ++
      Nat.repr n ++ " predecessors"
  | .missingTerminator b => b.text ++ " does not end with a terminator"
  | .misplacedTerminator i b =>
    i.text ++ " terminates " ++ b.text ++ " before its last instruction"

/-- A place where a value is defined: by a phi of the block, or by the instruction at an index. -/
structure DefinitionSite where
  value : ValueId
  block : BlockId
  index : Option Nat
  /-- The numbers of operands and predecessors of a phi. -/
  arity : Option (Nat × Nat) := none
  deriving DecidableEq

namespace DefinitionSite

def arityViolations (s : DefinitionSite) : List Violation :=
  match s.arity with
  | some (m, n) => if m = n then [] else [.phiArity s.value s.block m n]
  | none => []

/-- A site whose value has a site before it is a duplicate. -/
def violations (seen : List ValueId) : List DefinitionSite → List Violation
  | [] => []
  | s :: sites =>
    (if s.value ∈ seen then [.duplicateDefinition s.value] else []) ++ s.arityViolations ++
      violations (s.value :: seen) sites

/-- The site that counts when a value has several is the last one. -/
def last? (sites : List DefinitionSite) (v : ValueId) : Option DefinitionSite :=
  sites.reverse.find? (·.value = v)

end DefinitionSite

namespace Body

def blockSites (c : Body) (b : BlockId) (x : Block) : Except Fault (List DefinitionSite) := do
  let phis := x.phis.map fun p =>
    { value := p.out, block := b, index := none
      arity := some (p.operands.length, x.predecessors.length) }
  let operations ← x.instructions.mapM c.operation
  let outputs := operations.zipIdx.filterMap fun (op, n) =>
    op.out?.map fun v => { value := v, block := b, index := some n }
  return phis ++ outputs

def definitionSites (c : Body) : Except Fault (List DefinitionSite) := do
  return (← (← c.layout).mapM fun (b, x) => c.blockSites b x).flatten

def terminatorViolations (c : Body) (b : BlockId) (x : Block) : Except Fault (List Violation) := do
  let operations ← x.instructions.mapM fun i => do return (i, ← c.operation i)
  let isLast := operations.getLast?.any fun (_, op) => op.isTerminator
  let early := operations.dropLast.filter fun (_, op) => op.isTerminator
  return (if isLast then [] else [.missingTerminator b]) ++
    early.map fun (i, _) => .misplacedTerminator i b

def edgeViolations (c : Body) (b : BlockId) (x : Block) : Except Fault (List Violation) := do
  let forward ← (← c.successors b).filterM fun s => do
    return b ∉ (← c.block s).predecessors
  let backward ← x.predecessors.filterM fun p => do
    return b ∉ (← c.successors p)
  return forward.map (.asymmetricEdge b) ++ backward.map (.asymmetricEdge · b)

/-- A guarded block may hold one throwing instruction. -/
def guardViolations (c : Body) (b : BlockId) (x : Block) : Except Fault (List Violation) := do
  let count := ((← x.instructions.mapM c.operation).filter (·.canThrow)).length
  return if x.isGuarded && 1 < count then [.multipleThrowing b count] else []

/-- Whether the definition of an operand is there at the index of the block. -/
def definedBefore (c : Body) (t : DominatorTree) (s : DefinitionSite) (b : BlockId) (index : Nat) :
    Except Fault Bool :=
  if s.block = b then return s.index.all (· < index)
  else c.availableIn t s.value b

def operandViolations (c : Body) (t : DominatorTree) (sites : List DefinitionSite) (b : BlockId)
    (i : InstrId) (index : Nat) (v : ValueId) : Except Fault (List Violation) := do
  let some s := DefinitionSite.last? sites v | return [.undefinedOperand i v]
  let stale := if ← c.hasUser v i then [] else [.staleUsers v i]
  let defined ← c.definedBefore t s b index
  return stale ++ if t.isReachable b && !defined then [.useNotDominated v b] else []

def instructionViolations (c : Body) (t : DominatorTree) (sites : List DefinitionSite)
    (b : BlockId) (x : Block) : Except Fault (List Violation) := do
  let found ← x.instructions.zipIdx.mapM fun (i, index) => do
    return (← (← c.operation i).operands.mapM (c.operandViolations t sites b i index)).flatten
  return found.flatten

def inputViolations (c : Body) (t : DominatorTree) (sites : List DefinitionSite) (b : BlockId)
    (phi v : ValueId) (source : BlockId) : Except Fault (List Violation) := do
  let some _ := DefinitionSite.last? sites v | return [.undefinedPhiOperand phi v]
  if t.isReachable source then
    return if ← c.availableOnEdge t v source b then [] else [.useNotDominated v source]
  else return []

def phiViolations (c : Body) (t : DominatorTree) (sites : List DefinitionSite) (b : BlockId)
    (x : Block) : Except Fault (List Violation) := do
  let found ← x.phis.mapM fun p => do
    return (← (p.operands.zip x.predecessors).mapM fun (v, source) =>
      c.inputViolations t sites b p.out v source).flatten
  return found.flatten

def blockViolations (c : Body) (t : DominatorTree) (sites : List DefinitionSite) (b : BlockId)
    (x : Block) : Except Fault (List Violation) := do
  return (← c.terminatorViolations b x) ++ (← c.edgeViolations b x) ++ (← c.guardViolations b x) ++
    (← c.instructionViolations t sites b x) ++ (← c.phiViolations t sites b x)

/-- A recorded user must be placed and read the value; a placed definition must output it. -/
def recordViolations (c : Body) (placed : List InstrId) (v : ValueId) (x : Value) :
    Except Fault (List Violation) := do
  let stale ← x.users.toList.filterM fun i =>
    if i ∈ placed then return v ∉ (← c.operation i).operands else return true
  let mismatch ←
    match x.definition with
    | .instruction i =>
      if i ∈ placed then pure ((← c.operation i).out? ≠ some v : Bool) else pure false
    | _ => pure false
  return stale.map (.staleUsers v) ++ if mismatch then [.duplicateDefinition v] else []

/-- All violations of the single-assignment form. -/
def violations (c : Body) : Except Fault (List Violation) := do
  let t ← c.dominators
  let sites ← c.definitionSites
  let placed ← c.placed
  let blocks ← (← c.layout).mapM fun (b, x) => c.blockViolations t sites b x
  let records ← c.values.zipIdx.mapM fun (x, n) => c.recordViolations placed ⟨n⟩ x
  return DefinitionSite.violations [] sites ++ blocks.flatten ++ records.flatten

end Body

end Devirt
