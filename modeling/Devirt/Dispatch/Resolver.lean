import Devirt.Dispatch.Targets
import Devirt.Types.Lattice

/-!
Resolution of call sites. A resolver keeps the answers it has given; its type says that each kept
answer is the one that would be computed again.
-/

namespace Devirt

namespace Hierarchy

variable {h : Hierarchy} {kind : DispatchKind} {method : MethodRef} {a b : ReferenceType}
  {context : TypeName}

def select (h : Hierarchy) (kind : DispatchKind) (method : MethodRef) (receiver : ReferenceType)
    (context : TypeName) (resolved : Declaration) : Selection Declaration :=
  match kind with
  | .super => h.dispatchSuper method context
  | .virtual | .interface =>
    if receiver.exact then h.dispatchFrom receiver.name resolved
    else h.dispatchBelow receiver.name resolved

/-- The method a call site reaches. Only interface calls may end in an interface, and the method
must be accessible from the calling class. -/
def answer (h : Hierarchy) (kind : DispatchKind) (method : MethodRef) (receiver : ReferenceType)
    (context : TypeName) : Selection MethodRef :=
  match h.find? method with
  | none => .noTarget
  | some resolved =>
    match h.select kind method receiver context resolved with
    | .noTarget => .noTarget
    | .ambiguous => .ambiguous
    | .single d =>
      if d.holder.isInterface && kind ≠ .interface then .noTarget
      else if h.declarationAccessible d context then .single d.ref
      else .noTarget

/-- Whether the receiver may be null makes no difference. -/
theorem answer_congr (hname : a.name = b.name) (hexact : a.exact = b.exact) :
    h.answer kind method a context = h.answer kind method b context := by
  simp only [answer, select, hname, hexact]

end Hierarchy

/-- What an answer is kept for. -/
structure Query where
  kind : DispatchKind
  method : MethodRef
  receiver : TypeName
  exact : Bool
  context : TypeName
  deriving DecidableEq

structure Resolver (h : Hierarchy) where
  known : List (Query × Selection MethodRef) := []
  sound : ∀ e ∈ known, ∀ r : ReferenceType, r.name = e.1.receiver → r.exact = e.1.exact →
    e.2 = h.answer e.1.kind e.1.method r e.1.context := by simp

namespace Resolver

variable {h : Hierarchy}

instance : EmptyCollection (Resolver h) := ⟨{}⟩

/-- The number of answers kept. -/
def size (r : Resolver h) : Nat := r.known.length

def ask (r : Resolver h) (kind : DispatchKind) (method : MethodRef) (receiver : ReferenceType)
    (context : TypeName) : Selection MethodRef × Resolver h :=
  let q : Query := ⟨kind, method, receiver.name, receiver.exact, context⟩
  match r.known.find? (·.1 = q) with
  | some e => (e.2, r)
  | none =>
    let a := h.answer kind method receiver context
    (a, ⟨(q, a) :: r.known, by
      intro e he
      rcases List.mem_cons.1 he with rfl | he
      · exact fun _ hname hexact => Hierarchy.answer_congr hname.symm hexact.symm
      · exact r.sound e he⟩)

/-- Receivers without a known class are not resolved, and leave no trace. -/
def resolve (r : Resolver h) (kind : DispatchKind) (method : MethodRef) (receiver : StaticType)
    (context : TypeName) : Selection MethodRef × Resolver h :=
  match receiver.classReference? h with
  | none => (.noTarget, r)
  | some c => r.ask kind method c context

@[simp] theorem ask_fst (r : Resolver h) (kind : DispatchKind) (method : MethodRef)
    (receiver : ReferenceType) (context : TypeName) :
    (r.ask kind method receiver context).1 = h.answer kind method receiver context := by
  unfold ask
  dsimp only
  split
  · rename_i e hf
    have hq : e.1 = ⟨kind, method, receiver.name, receiver.exact, context⟩ := by
      simpa using List.find?_some hf
    have hkept := r.sound e (List.mem_of_find?_eq_some hf) receiver (by rw [hq]) (by rw [hq])
    rwa [hq] at hkept
  · rfl

end Resolver

end Devirt
