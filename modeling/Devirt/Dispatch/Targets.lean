import Devirt.Dispatch.Lookup

/-!
Selection of the method that runs: for a receiver of a known class, for all receivers below a
class, and for calls to a superclass.
-/

namespace Devirt

/-- The methods that the possible receivers of a call run. The list is complete when every receiver
has one and no receiver can come from outside the program. -/
structure DispatchTargets where
  targets : OrderedSet MethodRef := ∅
  complete : Bool := false
  deriving DecidableEq

def DispatchTargets.single? (d : DispatchTargets) : Option MethodRef :=
  match d.complete, d.targets.toList with
  | true, [m] => some m
  | _, _ => none

namespace Hierarchy

/-- Whether a declaration found on the way up replaces the resolved one. -/
def overrides (candidate resolved : Declaration) : Bool :=
  candidate.holder.name = resolved.holder.name ||
    (candidate.method.isVirtual &&
      match resolved.method.visibility with
      | .holder => false
      | .package => candidate.holder.package = resolved.holder.package
      | .everywhere | .subclasses => true)

/-- The only default method among the most specific ones. -/
def defaultMethod (h : Hierarchy) (t : TypeName) (s : Signature) : Selection Declaration :=
  .ofCandidates ((h.mostSpecific t s).filter fun d => !d.method.isAbstract)

/-- The first overriding declaration on the way up from a class, as far as the first interface. -/
def firstOverride? (h : Hierarchy) (t : TypeName) (resolved : Declaration) : Option Declaration :=
  ((h.superclasses t).takeWhile fun c => !c.isInterface).findSome? fun c =>
    ((c.declared? resolved.method.signature).map (Declaration.mk c)).filter (overrides · resolved)

/-- The method that runs on a receiver of exactly the class `t`. -/
def dispatchFrom (h : Hierarchy) (t : TypeName) (resolved : Declaration) : Selection Declaration :=
  match h.firstOverride? t resolved with
  | some d => if d.method.isAbstract then .noTarget else .single d
  | none => h.defaultMethod t resolved.method.signature

/-- Collects what each instantiated class below the bound runs. -/
def targetsBelow (h : Hierarchy) (bound : TypeName) (resolved : Declaration) : DispatchTargets :=
  let selections := ((h.subtypes bound).filter h.isInstantiated).map (h.dispatchFrom · resolved)
  { targets := .ofList (selections.filterMap fun s => s.target?.map (·.ref))
    complete := h.isProgramClass bound && selections.all fun s => s.target?.isSome }

def dispatchTargets (h : Hierarchy) (declared : MethodRef) (bound : TypeName) : DispatchTargets :=
  match h.find? declared with
  | some resolved => h.targetsBelow bound resolved
  | none => {}

/-- The method that runs on every receiver below the bound. -/
def dispatchBelow (h : Hierarchy) (bound : TypeName) (resolved : Declaration) :
    Selection Declaration :=
  let found := h.targetsBelow bound resolved
  match found.single? with
  | some m =>
    match h.declaration? m with
    | some d => .single d
    | none => .noTarget
  | none => if found.targets.isEmpty && found.complete then .noTarget else .ambiguous

/-- The method a super call in the class `context` runs. -/
def dispatchSuper (h : Hierarchy) (declared : MethodRef) (context : TypeName) :
    Selection Declaration :=
  if h.isClass declared.holder then
    match h.superclass? context with
    | none => .noTarget
    | some t =>
      let found := (h.superclasses t).findSome? fun c =>
        (c.declared? declared.signature).map (Declaration.mk c)
      match found with
      | some d => if d.method.isAbstract then .noTarget else .single d
      | none => h.defaultMethod t declared.signature
  else .noTarget

end Hierarchy

end Devirt
