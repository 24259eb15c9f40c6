import Devirt.Devirtualization.State

/-!
Narrowing the receiver of a call by a cast, so that the class of the new target accepts it. A cast
already made is used again where it is available. In a guarded block the cast gets a block of its
own, because it may throw.
-/

namespace Devirt

/-- What happened to the place of a call site. -/
inductive Moved where
  | stayed
  /-- An instruction now stands before it. -/
  | shifted
  /-- It now begins the given block, which follows in the layout. -/
  | split (tail : BlockId)
  deriving DecidableEq

namespace Devirtualizing

variable {h : Hierarchy}

/-- Whether the result of a cast made earlier may be read in a block where it is needed. -/
def castReaches (c : Body) (t : DominatorTree) (cast : ValueId) (b : BlockId) :
    Except Fault Bool := do
  match (← c.value cast).definition with
  | .instruction i => if (← c.blockOf i) = b then return true else c.availableIn t cast b
  | _ => return false

/-- The cast of the receiver to the class that can be used again at the block. -/
def cachedCast? (receiver : ValueId) (holder : TypeName) (b : BlockId) :
    Devirtualizing h (Option ValueId) := do
  let s ← get
  let some cast := s.casts.lookup (receiver, holder) | return none
  if ← castReaches s.body s.tree cast b then return some cast else return none

/-- A value for the result of a cast. It keeps what is known of the receiver at run time. -/
def newCastValue (receiver : ValueId) (holder : TypeName) (type : StaticType) :
    Devirtualizing h ValueId := do
  let v ← editWith fun c => .ok (c.createValue type)
  match (← query (·.value receiver)).dynamic with
  | some r => if h.isSubtype r.name holder then edit (·.setDynamic v (some r))
  | none => pure ()
  return v

/-- Places a cast of the receiver before the call at the index of its block. -/
def placeCast (i : InstrId) (index : Nat) (receiver : ValueId) (holder : TypeName)
    (type : StaticType) : Devirtualizing h (InstrId × ValueId × Moved) := do
  let v ← newCastValue receiver holder type
  let b ← query (·.blockOf i)
  let op := Operation.cast v receiver holder
  if (← query (·.block b)).isGuarded then
    let tail ← editWith (·.split b index)
    count fun s => { s with blocksSplit := s.blocksSplit + 1 }
    let cast ← editWith (·.insertAt b index op)
    rebuildTree
    count fun s => { s with castsInserted := s.castsInserted + 1 }
    return (cast, v, .split tail)
  else
    let cast ← editWith (·.insertAt b index op)
    count fun s => { s with castsInserted := s.castsInserted + 1 }
    return (cast, v, .shifted)

/-- Lets later uses of the receiver read the cast as well, unless the receiver stands for a source
variable or the cast says less than its type. Calls devirtualized before are left alone. -/
def spreadCast (i : InstrId) (receiver : ValueId) (type : StaticType) (cast : InstrId)
    (v : ValueId) : Devirtualizing h Unit := do
  let x ← query (·.value receiver)
  if !x.isNamed && type.le h x.type then
    let s ← get
    let excluded := (s.devirtualized.insert i).toList
    let replaced ← editWith (·.redirectUses s.tree receiver v cast excluded)
    let operations ← query fun c => replaced.instructions.mapM c.operation
    affect (operations.filterMap (·.out?) ++ replaced.phis)

/-- Makes the receiver of the call fit the class `holder`. -/
def castReceiver (i : InstrId) (index : Nat) (receiver : ValueId) (holder : TypeName) :
    Devirtualizing h Moved := do
  let current := (← query (·.value receiver)).type
  let type := StaticType.ofClass holder current.nullability
  if current.le h type then return .stayed
  let b ← query (·.blockOf i)
  match ← cachedCast? receiver holder b with
  | some cast =>
    let _ ← editWith (·.redirectOperand i receiver cast)
    affect [cast]
    count fun s => { s with castsReused := s.castsReused + 1 }
    return .stayed
  | none =>
    let (cast, v, moved) ← placeCast i index receiver holder type
    modify fun s => { s with casts := ((receiver, holder), v) :: s.casts }
    affect [v]
    let _ ← editWith (·.redirectOperand i receiver v)
    spreadCast i receiver type cast v
    return moved

end Devirtualizing

end Devirt
