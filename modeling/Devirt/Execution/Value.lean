import Devirt.Body.Ids
import Devirt.Hierarchy.Class

/-!
Values at run time and the ways in which a run goes wrong.
-/

namespace Devirt

/-- An object is known by its class alone. -/
inductive RuntimeValue where
  | null
  | int (n : Int64)
  | object (name : TypeName)
  deriving DecidableEq

/-- A branch is taken on everything but zero and null. -/
def RuntimeValue.isTrue : RuntimeValue → Bool
  | .null => false
  | .int n => n ≠ 0
  | .object _ => true

inductive RunError where
  | nullReceiver (method : MethodRef)
  | noImplementation (method : MethodRef)
  | conflictingDefaults (method : MethodRef)
  | badCast (source target : TypeName)
  | thrown (method : MethodRef)
  | undefinedValue (v : ValueId)
  | missingTerminator (b : BlockId)
  | stepLimit (limit : Nat)
  | callDepth
  /-- The body names something it does not have. -/
  | malformed (fault : Fault)
  deriving DecidableEq

def RunError.message : RunError → String
  | .nullReceiver m => "Null receiver calling " ++ m.qualifiedName
  | .noImplementation m => "No method implements " ++ m.qualifiedName
  | .conflictingDefaults m => "Conflicting default methods for " ++ m.qualifiedName
  | .badCast source target => "Cannot cast " ++ source ++ " to " ++ target
  | .thrown m => "Exception thrown in " ++ m.qualifiedName
  | .undefinedValue v => "Value " ++ v.text ++ " read before being defined"
  | .missingTerminator b => "Fell off the end of block " ++ b.text
  | .stepLimit limit => "Step limit of " ++ Nat.repr limit ++ " exceeded"
  | .callDepth => "Call depth limit exceeded"
  | .malformed _ => "Malformed body"

end Devirt
