import Devirt.OrderedSet

/-!
Names of types and members. A table numbers the names it has met in the order of their first
appearance.
-/

namespace Devirt

/-- The package of a dotted name is the text before its last dot. A name without a dot lies in the
unnamed package. -/
def packageOf (name : String) : String :=
  match name.toList.reverse.dropWhile (· ≠ '.') with
  | [] => ""
  | _ :: rest => String.ofList rest.reverse

/-- The number a table gives to a name. -/
structure Symbol where
  index : Nat
  deriving DecidableEq

def Symbol.text (s : Symbol) : String := "#" ++ Nat.repr s.index

structure NameTable where
  entries : OrderedSet String
  deriving DecidableEq

namespace NameTable

def empty : NameTable := ⟨∅⟩

def size (t : NameTable) : Nat := t.entries.size

def isEmpty (t : NameTable) : Bool := t.entries.isEmpty

def symbol? (t : NameTable) (name : String) : Option Symbol :=
  (t.entries.position? name).map Symbol.mk

def name? (t : NameTable) (s : Symbol) : Option String := t.entries.toList[s.index]?

def add (t : NameTable) (name : String) : NameTable := ⟨t.entries.insert name⟩

/-- The symbol of a name, which is the next free one if the name is new. -/
def intern (t : NameTable) (name : String) : Symbol × NameTable :=
  ((t.symbol? name).getD ⟨t.size⟩, t.add name)

def ofList (names : List String) : NameTable := ⟨OrderedSet.ofList names⟩

end NameTable

end Devirt
