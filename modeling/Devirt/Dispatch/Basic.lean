import Devirt.Hierarchy.Access

/-!
Kinds of dispatch, declarations found for a call, and the answers a selection can give.
-/

namespace Devirt

inductive DispatchKind where
  | virtual
  | interface
  | super
  deriving DecidableEq

/-- A method together with the class or interface that declares it. -/
structure Declaration where
  holder : Class
  method : Method
  deriving DecidableEq

def Declaration.ref (d : Declaration) : MethodRef := d.holder.methodRef d.method

/-- The outcome of looking for the one method that runs. -/
inductive Selection (α : Type) where
  | single (target : α)
  | noTarget
  | ambiguous
  deriving DecidableEq

namespace Selection

variable {α : Type}

def target? : Selection α → Option α
  | .single a => some a
  | _ => none

/-- Picks the only candidate, if there is exactly one. -/
def ofCandidates : List α → Selection α
  | [] => .noTarget
  | [a] => .single a
  | _ :: _ :: _ => .ambiguous

end Selection

namespace Hierarchy

/-- The declaration of a reference on its holder itself. -/
def declaration? (h : Hierarchy) (m : MethodRef) : Option Declaration :=
  (h.class? m.holder).bind fun c => (c.declared? m.signature).map (Declaration.mk c)

def declarationAccessible (h : Hierarchy) (d : Declaration) (context : TypeName) : Bool :=
  h.memberAccessible d.holder.name d.method.visibility context

/-- Whether a dispatched call in the given class may name the declaration. -/
def dispatchable (h : Hierarchy) (d : Declaration) (context : TypeName) : Bool :=
  d.method.isVirtual && h.declarationAccessible d context

end Hierarchy

end Devirt
