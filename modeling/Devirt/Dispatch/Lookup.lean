import Devirt.Dispatch.Basic

/-!
Symbolic lookup: the declaration a method reference stands for, before any receiver is known.
-/

namespace Devirt

namespace Hierarchy

/-- The overridable declarations of a signature in the superinterfaces of a type. -/
def interfaceDeclarations (h : Hierarchy) (t : TypeName) (s : Signature) : List Declaration :=
  (h.superinterfaces t).filterMap fun i =>
    (h.class? i).bind fun c =>
      ((c.declared? s).filter (·.isVirtual)).map (Declaration.mk c)

/-- Those of them that no other one stands below. -/
def mostSpecific (h : Hierarchy) (t : TypeName) (s : Signature) : List Declaration :=
  let candidates := h.interfaceDeclarations t s
  candidates.filter fun d =>
    !candidates.any fun other =>
      other.holder.name ≠ d.holder.name && h.isSubtype other.holder.name d.holder.name

/-- The only declaration with a body among the most specific ones, or else the first of all. -/
def interfaceMethod? (h : Hierarchy) (t : TypeName) (s : Signature) : Option Declaration :=
  let candidates := h.mostSpecific t s
  match candidates.filter fun d => !d.method.isAbstract with
  | [d] => some d
  | _ => candidates.head?

/-- Superclasses come first, then superinterfaces. -/
def findOnClass? (h : Hierarchy) (s : Signature) (t : TypeName) : Option Declaration :=
  match (h.superclasses t).findSome? fun c => (c.declared? s).map (Declaration.mk c) with
  | some d => some d
  | none => h.interfaceMethod? t s

/-- An interface also sees what everyone sees of the root. -/
def findOnInterface? (h : Hierarchy) (s : Signature) (i : Class) : Option Declaration :=
  match i.declared? s with
  | some m => some ⟨i, m⟩
  | none =>
    match h.declaration? ⟨rootType, s⟩ with
    | some d =>
      if d.method.visibility = .everywhere then some d else h.interfaceMethod? i.name s
    | none => h.interfaceMethod? i.name s

def find? (h : Hierarchy) (m : MethodRef) : Option Declaration :=
  (h.class? m.holder).bind fun c =>
    if c.isInterface then h.findOnInterface? m.signature c
    else h.findOnClass? m.signature m.holder

end Hierarchy

end Devirt
