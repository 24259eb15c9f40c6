import Devirt.Body.Edit

/-!
Type narrowing. Starting from values whose types may have become more precise, the types of casts,
non-null assumptions and phis are computed again, and each gain is passed on to the readers.
-/

namespace Devirt

namespace Body

/-- The type that follows from the definition of a value, for those definitions that have one. -/
def derivedType? (h : Hierarchy) (c : Body) (v : ValueId) : Except Fault (Option StaticType) := do
  match (← c.value v).definition with
  | .undefined => return none
  | .instruction i =>
    match ← c.operation i with
    | .cast _ object name =>
      let t := (← c.value object).type
      let wanted := StaticType.ofClass name t.nullability
      return some (if t.le h wanted then t else wanted)
    | .assumeNonNull _ source _ => return some ((← c.value source).type.withNullability .notNull)
    | _ => return none
  | .phi b =>
    match (← c.block b).phi? v with
    | none => return none
    | some p =>
      let types ← p.operands.mapM fun o => do return (← c.value o).type
      return some (types.foldl (StaticType.join h) .bottom)

/-- The outputs of the instructions and phis that read a value. -/
def readers (c : Body) (v : ValueId) : Except Fault (List ValueId) := do
  let x ← c.value v
  let operations ← x.users.toList.mapM c.operation
  return operations.filterMap (·.out?) ++ x.phiUsers.toList

/-- The values that can come to be pending: the affected ones and whatever reads a value. -/
def narrowable (c : Body) (affected : OrderedSet ValueId) : List ValueId :=
  affected.toList ++ c.instructions.filterMap (·.op.out?) ++ c.values.flatMap (·.phiUsers.toList)

/-- The classes that the types of values can come to refer to: those that types and casts of the body
name, and those of the hierarchy, which joins are taken from. -/
def typeNames (h : Hierarchy) (c : Body) : List TypeName :=
  h.classes.map (·.name) ++ c.values.filterMap (fun x => x.type.reference?.map (·.name)) ++
    c.instructions.filterMap (·.op.castName?)

end Body

structure Narrowing where
  body : Body
  pending : OrderedSet ValueId
  narrowed : OrderedSet ValueId := ∅
  deriving DecidableEq

namespace Narrowing

/-- Takes over the derived type of a value if it is strictly more precise. -/
def visit (h : Hierarchy) (s : Narrowing) (v : ValueId) : Except Fault Narrowing := do
  let current := (← s.body.value v).type
  let some derived ← s.body.derivedType? h v | return s
  if derived = current || !derived.le h current then return s
  let body ← s.body.setType v derived
  return { body
           pending := s.pending.insertAll (← body.readers v)
           narrowed := s.narrowed.insert v }

/-- Visits pending values, the latest first, until none is left. -/
def run (h : Hierarchy) : Nat → Narrowing → Except Fault Narrowing
  | rounds, s =>
    match s.pending.popLast?, rounds with
    | none, _ => return s
    | some _, 0 => throw .unsettled
    | some (v, pending), rounds + 1 => do
      let s ← { s with pending }.visit h v
      run h rounds s

end Narrowing

/-- No fewer rounds than narrowing has states. A state has a list of types, one for each value, and
lists of the values that are pending and of those that are narrowed, neither with repetition. There
are `8 + 6 * n` types over `n` classes, and no more than `(m + 1) ^ n` lists of up to `n` elements out
of `m`. So narrowing that takes more rounds has come back to a state and never ends. -/
def Body.narrowingRounds (h : Hierarchy) (c : Body) (affected : OrderedSet ValueId) : Nat :=
  let types := 8 + 6 * (c.typeNames h).length
  let values := (c.narrowable affected).length
  Nat.pow (types + 1) c.values.length *
    (Nat.pow (values + 1) values * Nat.pow (values + 1) values)

/-- Narrows types from the affected values on; returns the values that gained precision. It fails for
want of rounds only where narrowing never ends. -/
def Body.narrow (h : Hierarchy) (c : Body) (affected : OrderedSet ValueId) :
    Except Fault (OrderedSet ValueId × Body) := do
  let s ← Narrowing.run h (c.narrowingRounds h affected) { body := c, pending := affected }
  return (s.narrowed, s.body)

end Devirt
