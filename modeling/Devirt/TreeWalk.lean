/-!
Numbers for the nodes of a tree. A depth-first walk enters a node, walks the subtrees below it and
leaves the node, and a single clock runs along. One node is above another one if the walk is at the
other one between entering and leaving it, so two comparisons answer the question.
-/

namespace Devirt

variable {α : Type}

/-- The times at which a walk enters and leaves a node. -/
structure Span where
  enter : Nat
  leave : Nat
  deriving DecidableEq

def Span.covers (s t : Span) : Bool := s.enter ≤ t.enter && t.leave ≤ s.leave

/-- What is left to do on the stack of a walk. A node to leave was entered at the given time. -/
inductive Visit (α : Type) where
  | enter (a : α)
  | leave (a : α) (start : Nat)

/-- Walks for at most the given number of rounds and lists the nodes in the order they are left. -/
def numberTree (children : α → List α) : Nat → List (Visit α) → Nat → List (α × Span)
  | 0, _, _ => []
  | _ + 1, [], _ => []
  | rounds + 1, .enter a :: stack, time =>
    numberTree children rounds ((children a).map .enter ++ .leave a time :: stack) (time + 1)
  | rounds + 1, .leave a start :: stack, time =>
    (a, ⟨start, time⟩) :: numberTree children rounds stack (time + 1)

@[simp] theorem numberTree_nil (children : α → List α) (rounds time : Nat) :
    numberTree children rounds [] time = [] := by
  cases rounds <;> rfl

end Devirt
