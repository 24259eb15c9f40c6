import Devirt.Body.Consistency

/-!
The ways in which optimizing a program fails, and how they are told.
-/

namespace Devirt

inductive Failure where
  | io (reason : String)
  | config (reason : String)
  | workers (reason : String)
  /-- A pass has left a body that violates the single-assignment form. -/
  | inconsistent (method : String) (violations : List Violation)
  deriving DecidableEq

namespace Failure

def summary : List Violation → String
  | [] => "no violations recorded"
  | [v] => v.message
  | v :: rest => v.message ++ " (and " ++ Nat.repr rest.length ++ " more)"

def message : Failure → String
  | .io reason => "IO error: " ++ reason
  | .config reason => "Configuration error: " ++ reason
  | .workers reason => "Worker pool error: " ++ reason
  | .inconsistent method violations =>
    "Inconsistent SSA in " ++ method ++ " after optimization: " ++ summary violations

def violations : Failure → List Violation
  | .inconsistent _ violations => violations
  | _ => []

end Failure

end Devirt
