import Devirt.BreadthFirst
import Devirt.Hierarchy.Basic

/-!
Walks along the supertype edges of a hierarchy, up and down.
-/

namespace Devirt

namespace Hierarchy

/-- The classes met on the way up from a type, as far as the given number of steps. -/
def superclassesWithin (h : Hierarchy) : Nat → Option TypeName → List Class
  | 0, _ => []
  | _ + 1, none => []
  | steps + 1, some t =>
    match h.class? t with
    | none => []
    | some c => c :: h.superclassesWithin steps c.superclass

/-- The superclass chain of a type, itself first. It ends at a class without a superclass or at an
undefined name; on a cyclic hierarchy it is cut off one class after all could have been met. -/
def superclasses (h : Hierarchy) (t : TypeName) : List Class :=
  h.superclassesWithin (h.size + 1) (some t)

/-- The types other than `t` that `t` or a superclass of it implements, nearest first. -/
def superinterfaces (h : Hierarchy) (t : TypeName) : List TypeName :=
  let direct := (h.superclasses t).flatMap (·.interfaces)
  (breadthFirst h.interfaces (direct.length + h.edgeCount) direct []).filter (· ≠ t)

/-- Reachable types over superclass and interface edges, the type itself first. -/
def ancestors (h : Hierarchy) (t : TypeName) : List TypeName :=
  breadthFirst h.supertypes (h.edgeCount + 1) [t] []

/-- Every type is below the root, whatever its definition says. -/
def isSubtype (h : Hierarchy) (a b : TypeName) : Bool :=
  a = b || b = rootType || b ∈ h.ancestors a

/-- One entry for each time a definition names `t` as a supertype, in order of definition. -/
def directSubtypes (h : Hierarchy) (t : TypeName) : List TypeName :=
  h.classes.flatMap fun c => (c.supertypes.filter (· = t)).map fun _ => c.name

/-- All types below `t` through the definitions, itself first, nearer ones before farther ones. -/
def subtypes (h : Hierarchy) (t : TypeName) : List TypeName :=
  breadthFirst h.directSubtypes (h.edgeCount + 1) [t] []

/-- The names of the classes, interfaces left out, on the way up from a type. -/
def classAncestors (h : Hierarchy) (t : TypeName) : List TypeName :=
  ((h.superclasses t).filter fun c => !c.isInterface).map (·.name)

/-- The first class on the way up from `b` that is also on the way up from `a`. -/
def commonClass (h : Hierarchy) (a b : TypeName) : TypeName :=
  let above := h.classAncestors a
  ((h.classAncestors b).find? (· ∈ above)).getD rootType

@[simp] theorem isSubtype_refl (h : Hierarchy) (t : TypeName) : h.isSubtype t t = true := by
  simp [isSubtype]

@[simp] theorem isSubtype_rootType (h : Hierarchy) (t : TypeName) :
    h.isSubtype t rootType = true := by
  simp [isSubtype]

end Hierarchy

end Devirt
