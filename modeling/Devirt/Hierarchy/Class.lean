import Devirt.Names

/-!
Classes, interfaces and the methods they declare.
-/

namespace Devirt

abbrev TypeName := String

/-- The root of every class hierarchy. -/
def rootType : TypeName := "java.lang.Object"

/-- The result type of a method that returns nothing. -/
def voidType : TypeName := "void"

/-- What a call site and a declaration must share for one to reach the other. -/
structure Signature where
  name : String
  parameters : List TypeName := []
  result : TypeName := voidType
  deriving DecidableEq

namespace Signature

def arity (s : Signature) : Nat := s.parameters.length

/-- Every name the signature mentions, in reading order. -/
def mentions (s : Signature) : List String := s.name :: s.parameters ++ [s.result]

end Signature

/-- A signature as seen on a type, which need not declare it. -/
structure MethodRef where
  holder : TypeName
  signature : Signature
  deriving DecidableEq

namespace MethodRef

/-- The method without parameters and result. -/
def plain (holder : TypeName) (name : String) : MethodRef := ⟨holder, { name }⟩

def withHolder (m : MethodRef) (holder : TypeName) : MethodRef := { m with holder }

def text (m : MethodRef) : String :=
  m.holder ++ "." ++ m.signature.name ++ "(" ++ ", ".intercalate m.signature.parameters ++ ")"

/-- The form used in call traces. -/
def qualifiedName (m : MethodRef) : String := m.holder ++ "::" ++ m.signature.name

@[simp] theorem holder_withHolder (m : MethodRef) (t : TypeName) :
    (m.withHolder t).holder = t := rfl

@[simp] theorem signature_withHolder (m : MethodRef) (t : TypeName) :
    (m.withHolder t).signature = m.signature := rfl

end MethodRef

/-- From where a member may be named. -/
inductive Visibility where
  | everywhere
  | subclasses
  | package
  | holder
  deriving DecidableEq

structure Method where
  signature : Signature
  visibility : Visibility := .everywhere
  isAbstract : Bool := false
  deriving DecidableEq

/-- A method takes part in overriding unless only its holder sees it. -/
def Method.isVirtual (m : Method) : Bool := m.visibility ≠ .holder

inductive Origin where
  | program
  | library
  deriving DecidableEq

/-- A definition of a class or an interface. Only the built-in root has no superclass. -/
structure Class where
  name : TypeName
  superclass : Option TypeName := some rootType
  interfaces : List TypeName := []
  methods : List Method := []
  isInterface : Bool := false
  declaredAbstract : Bool := false
  packagePrivate : Bool := false
  origin : Origin := .program
  deriving DecidableEq

namespace Class

def package (c : Class) : String := packageOf c.name

def isAbstract (c : Class) : Bool := c.isInterface || c.declaredAbstract

def isConcrete (c : Class) : Bool := !c.isAbstract

def isProgramClass (c : Class) : Bool := c.origin = .program

/-- The superclass, then the interfaces in the order written. -/
def supertypes (c : Class) : List TypeName := c.superclass.toList ++ c.interfaces

/-- The first method declared with this signature. -/
def declared? (c : Class) (s : Signature) : Option Method := c.methods.find? (·.signature = s)

def methodRef (c : Class) (m : Method) : MethodRef := ⟨c.name, m.signature⟩

/-- Every name the definition mentions, in reading order. -/
def mentions (c : Class) : List String :=
  c.name :: c.package :: c.supertypes ++ c.methods.flatMap (·.signature.mentions)

/-- The root as it stands before any program defines it again. -/
def root : Class := { name := rootType, superclass := none, origin := .library }

theorem signature_of_declared? {c : Class} {s : Signature} {m : Method}
    (h : c.declared? s = some m) : m.signature = s := by
  simpa using List.find?_some h

end Class

end Devirt
