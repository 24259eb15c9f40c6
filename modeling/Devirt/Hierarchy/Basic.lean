import Devirt.Hierarchy.Class

/-!
A whole-program class hierarchy. Any list of definitions is accepted: a name may be defined twice,
supertypes may be missing, and the supertype relation may be cyclic. Where a name is defined twice
the last definition counts, but each definition makes its class a direct subtype of the types it
names.
-/

namespace Devirt

/-- The definitions of a program after the built-in root. `vocabulary` holds further names the
program knows, and `instantiated` the classes it is known to create; when that list is empty, every
concrete class may be created. -/
structure Hierarchy where
  vocabulary : List String := []
  defined : List Class := []
  instantiated : List TypeName := []
  deriving DecidableEq

namespace Hierarchy

def classes (h : Hierarchy) : List Class := Class.root :: h.defined

/-- All names of the program, numbered in reading order. -/
def names (h : Hierarchy) : NameTable :=
  NameTable.ofList <|
    Class.root.mentions ++ h.vocabulary ++ h.defined.flatMap Class.mentions ++ h.instantiated

/-- The last definition of a name. -/
def class? (h : Hierarchy) (t : TypeName) : Option Class := h.classes.reverse.find? (·.name = t)

/-- The names with a definition, each once. -/
def definedNames (h : Hierarchy) : List TypeName := (h.classes.map (·.name)).eraseDups

def size (h : Hierarchy) : Nat := h.definedNames.length

/-- The number of supertype entries in all definitions. -/
def edgeCount (h : Hierarchy) : Nat := (h.classes.flatMap (·.supertypes)).length

def isDefined (h : Hierarchy) (t : TypeName) : Bool := (h.class? t).isSome

def isInterface (h : Hierarchy) (t : TypeName) : Bool := (h.class? t).any (·.isInterface)

/-- A defined type that is not an interface. -/
def isClass (h : Hierarchy) (t : TypeName) : Bool := (h.class? t).any fun c => !c.isInterface

def isProgramClass (h : Hierarchy) (t : TypeName) : Bool := (h.class? t).any (·.isProgramClass)

def superclass? (h : Hierarchy) (t : TypeName) : Option TypeName :=
  (h.class? t).bind (·.superclass)

def interfaces (h : Hierarchy) (t : TypeName) : List TypeName :=
  ((h.class? t).map (·.interfaces)).getD []

def supertypes (h : Hierarchy) (t : TypeName) : List TypeName :=
  ((h.class? t).map (·.supertypes)).getD []

/-- The method declared with the reference's signature on its holder itself. -/
def declared? (h : Hierarchy) (m : MethodRef) : Option Method :=
  (h.class? m.holder).bind (·.declared? m.signature)

/-- The first method of that name on a defined type. -/
def methodNamed? (h : Hierarchy) (holder : TypeName) (name : String) : Option MethodRef :=
  (h.class? holder).bind fun c =>
    (c.methods.find? (·.signature.name = name)).map c.methodRef

def tracksInstantiation (h : Hierarchy) : Bool := !h.instantiated.isEmpty

/-- Whether objects of exactly this class may exist. -/
def isInstantiated (h : Hierarchy) (t : TypeName) : Bool :=
  (h.class? t).any fun c => c.isConcrete && (!h.tracksInstantiation || t ∈ h.instantiated)

theorem name_of_class? {h : Hierarchy} {t : TypeName} {c : Class} (hc : h.class? t = some c) :
    c.name = t := by
  simpa using List.find?_some hc

end Hierarchy

end Devirt
