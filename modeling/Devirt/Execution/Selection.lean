import Devirt.Dispatch.Basic
import Devirt.Execution.Value

/-!
Method selection at run time, stated from the receiver alone and independent of call resolution.
-/

namespace Devirt

namespace Hierarchy

/-- Whether a declaration met on the way up answers a call of the given method. Package members
answer only within the package of the type named in the call. -/
def answersCall (h : Hierarchy) (c : Class) (m : Method) (called : MethodRef) : Bool :=
  m.isVirtual &&
    (m.visibility ≠ .package || c.name = called.holder ||
      (h.class? called.holder).any fun d => d.package = c.package)

/-- The superinterfaces that declare the signature, without those that another one stands below. -/
def runtimeDefaults (h : Hierarchy) (start : TypeName) (s : Signature) : List TypeName :=
  let candidates := (h.superinterfaces start).filter fun i => (h.declared? ⟨i, s⟩).isSome
  candidates.filter fun i => !candidates.any fun j => j ≠ i && h.isSubtype j i

/-- A default method runs only if nothing else is as specific. -/
def selectDefault (h : Hierarchy) (start : TypeName) (called : MethodRef) :
    Except RunError MethodRef :=
  let specific := h.runtimeDefaults start called.signature
  let concrete := specific.filter fun i =>
    (h.declared? ⟨i, called.signature⟩).any fun m => !m.isAbstract
  match concrete with
  | [i] =>
    if specific.length = 1 then .ok (called.withHolder i) else .error (.conflictingDefaults called)
  | [] => .error (.noImplementation called)
  | _ => .error (.conflictingDefaults called)

/-- The method that runs when the search begins at the class `start`. -/
def selectFrom (h : Hierarchy) (start : TypeName) (called : MethodRef) :
    Except RunError MethodRef :=
  let found := (h.superclasses start).findSome? fun c =>
    ((c.declared? called.signature).filter (h.answersCall c · called)).map (Declaration.mk c)
  match found with
  | some d => if d.method.isAbstract then .error (.noImplementation called) else .ok d.ref
  | none => h.selectDefault start called

/-- The method that a call in the class `context` runs on the given arguments. -/
def selectTarget (h : Hierarchy) (context : TypeName) (kind : DispatchKind) (called : MethodRef)
    (arguments : List RuntimeValue) : Except RunError MethodRef :=
  match arguments.head? with
  | some (.object receiver) =>
    match kind with
    | .virtual | .interface => h.selectFrom receiver called
    | .super =>
      match h.superclass? context with
      | some start => h.selectFrom start called
      | none => .error (.noImplementation called)
  | _ => .error (.nullReceiver called)

end Hierarchy

end Devirt
