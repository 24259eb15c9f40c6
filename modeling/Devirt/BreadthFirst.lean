/-!
Breadth-first search over a graph given by its successor lists. The search looks at one pending
node per round, so the number of rounds that suffices is the number of start nodes plus the number
of edges that leave the nodes found.
-/

namespace Devirt

variable {α : Type} [DecidableEq α]

/-- Runs at most the given number of rounds. The third argument lists the nodes found so far, in
the order they were found. -/
def breadthFirst (next : α → List α) : Nat → List α → List α → List α
  | 0, _, found => found
  | _ + 1, [], found => found
  | rounds + 1, a :: pending, found =>
    if a ∈ found then breadthFirst next rounds pending found
    else breadthFirst next rounds (pending ++ next a) (found ++ [a])

@[simp] theorem breadthFirst_nil (next : α → List α) (rounds : Nat) (found : List α) :
    breadthFirst next rounds [] found = found := by
  cases rounds <;> rfl

end Devirt
