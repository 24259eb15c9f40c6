import Devirt.Hierarchy.Subtyping

/-!
From which classes a class or a member may be named.
-/

namespace Devirt

namespace Hierarchy

/-- Undefined types lie in no package. -/
def samePackage (h : Hierarchy) (a b : TypeName) : Bool :=
  match h.class? a, h.class? b with
  | some c, some d => c.package = d.package
  | _, _ => false

def classAccessible (h : Hierarchy) (t context : TypeName) : Bool :=
  match h.class? t with
  | some c => !c.packagePrivate || h.samePackage t context
  | none => false

/-- A member is accessible only through an accessible holder. -/
def memberAccessible (h : Hierarchy) (holder : TypeName) (v : Visibility) (context : TypeName) :
    Bool :=
  h.classAccessible holder context &&
    match v with
    | .everywhere => true
    | .holder => holder = context
    | .package => h.samePackage holder context
    | .subclasses => h.samePackage holder context || h.isSubtype context holder

end Hierarchy

end Devirt
