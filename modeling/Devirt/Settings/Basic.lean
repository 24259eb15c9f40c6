/-!
Settings of the optimizer.
-/

namespace Devirt

inductive Level where
  | o0
  | o1
  | o2
  | o3
  deriving DecidableEq

namespace Level

def rank : Level → Nat
  | .o0 => 0
  | .o1 => 1
  | .o2 => 2
  | .o3 => 3

def name : Level → String
  | .o0 => "O0"
  | .o1 => "O1"
  | .o2 => "O2"
  | .o3 => "O3"

def ofName? (s : String) : Option Level := [o0, o1, o2, o3].find? (·.name = s)

end Level

/-- Which changes to call sites are made, and whether types are narrowed afterwards. -/
structure Options where
  superToVirtual : Bool := true
  specializeVirtual : Bool := true
  interfaceToVirtual : Bool := true
  narrowTypes : Bool := true
  deriving DecidableEq

structure Settings where
  level : Level := .o2
  options : Options := {}
  threads : Option Nat := none
  deriving DecidableEq

end Devirt
