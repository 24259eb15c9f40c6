/-!
What is known about a reference being null. Two definite answers that disagree join to `maybe`.
-/

namespace Devirt

inductive Nullability where
  | null
  | notNull
  | maybe
  deriving DecidableEq

namespace Nullability

def join (a b : Nullability) : Nullability := if a = b then a else .maybe

def le (a b : Nullability) : Bool := a = b || b = .maybe

@[simp] theorem join_self (a : Nullability) : a.join a = a := by simp [join]

@[simp] theorem le_refl (a : Nullability) : a.le a = true := by simp [le]

@[simp] theorem le_maybe (a : Nullability) : a.le .maybe = true := by simp [le]

end Nullability

end Devirt
