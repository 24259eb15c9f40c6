import Devirt.Devirtualization.Casts
import Devirt.Settings.Basic

/-!
The three changes that are made to call sites, and the order in which a call site is tried.
-/

namespace Devirt

namespace Devirtualizing

variable {h : Hierarchy}

/-- Makes a super call virtual if dispatch on the receiver reaches the same method anyway. -/
def superToVirtual (i : InstrId) : Devirtualizing h Bool := do
  let some call ← query (·.call? i) | return false
  let some receiver := call.receiver? | return false
  let type := (← query (·.value receiver)).bestType
  let .single target ← resolve .super call.method type | return false
  if (← resolve .virtual call.method type) ≠ .single target then return false
  retargetCall i .virtual target
  count fun s => { s with superToVirtual := s.superToVirtual + 1 }
  return true

/-- The method that a virtual call can name instead when the receiver has a more specific class. -/
def moreSpecific? (h : Hierarchy) (declared : MethodRef) (receiver : StaticType)
    (context : TypeName) : Option MethodRef := do
  let r ← receiver.classReference? h
  let resolved ← h.find? declared
  guard (!resolved.holder.isInterface && h.dispatchable resolved context)
  guard (r.name ≠ declared.holder && h.isSubtype r.name declared.holder)
  let found ← h.findOnClass? declared.signature r.name
  guard (h.dispatchable found context && found.holder.isProgramClass && !found.holder.isInterface)
  guard (found.ref ≠ declared)
  return found.ref

/-- Lets a virtual call name the declaration nearest to the class of its receiver. -/
def specialize (options : Options) (i : InstrId) : Devirtualizing h Unit := do
  if options.specializeVirtual then
    let some call ← query (·.call? i) | return
    let some receiver := call.receiver? | return
    let type := (← query (·.value receiver)).type
    let some target := moreSpecific? h call.method type (← get).body.context | return
    retargetCall i .virtual target
    count fun s => { s with specialized := s.specialized + 1 }

/-- The class method that the interface call is certain to reach, if it can be named here. -/
def soleClassTarget? (call : Call) (receiver : ValueId) : Devirtualizing h (Option MethodRef) := do
  let type := (← query (·.value receiver)).bestType
  let .single target ← resolve .interface call.method type | return none
  let context := (← get).body.context
  if h.isClass target.holder && h.classAccessible target.holder context then return some target
  else return none

/-- Makes an interface call virtual if a single class method is reached. -/
def interfaceToVirtual (i : InstrId) (index : Nat) : Devirtualizing h Moved := do
  let some call ← query (·.call? i) | return .stayed
  let some receiver := call.receiver? | return .stayed
  let some target ← soleClassTarget? call receiver | return .stayed
  retargetCall i .virtual target
  count fun s => { s with interfaceToVirtual := s.interfaceToVirtual + 1 }
  affect call.out.toList
  let moved ←
    if target.holder = call.method.holder then pure .stayed
    else castReceiver i index receiver target.holder
  modify fun s => { s with devirtualized := s.devirtualized.insert i }
  return moved

/-- Treats the instruction at the index of its block. -/
def visit (options : Options) (i : InstrId) (index : Nat) : Devirtualizing h Moved := do
  let some call ← query (·.call? i) | return .stayed
  match call.kind with
  | .super =>
    if options.superToVirtual then
      if ← superToVirtual i then specialize options i
    return .stayed
  | .virtual =>
    specialize options i
    return .stayed
  | .interface =>
    if options.interfaceToVirtual then
      let moved ← interfaceToVirtual i index
      if ((← query (·.call? i)).map (·.kind)) = some .virtual then specialize options i
      return moved
    else return .stayed

end Devirtualizing

end Devirt
