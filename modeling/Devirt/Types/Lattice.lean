import Devirt.Hierarchy.Subtyping
import Devirt.Types.Nullability

/-!
Static types of values, their order and their joins over a class hierarchy.
-/

namespace Devirt

inductive Primitive where
  | boolean
  | int
  | long
  | float
  | double
  deriving DecidableEq

/-- A reference to objects of a class or its subtypes, or of that class alone when `exact`. -/
structure ReferenceType where
  name : TypeName
  nullability : Nullability := .maybe
  exact : Bool := false
  deriving DecidableEq

inductive StaticType where
  | bottom
  | primitive (p : Primitive)
  | null
  | reference (r : ReferenceType)
  | top
  deriving DecidableEq

/-- References to the same class are exact together; references to unrelated classes meet at the
nearest class above both. -/
def ReferenceType.join (h : Hierarchy) (a b : ReferenceType) : ReferenceType where
  name :=
    if a.name = b.name then a.name
    else if h.isSubtype a.name b.name then b.name
    else if h.isSubtype b.name a.name then a.name
    else h.commonClass a.name b.name
  nullability := a.nullability.join b.nullability
  exact := a.name = b.name && a.exact && b.exact

namespace StaticType

def ofClass (name : TypeName) (nullability : Nullability) : StaticType :=
  .reference { name, nullability }

def exactly (name : TypeName) (nullability : Nullability) : StaticType :=
  .reference { name, nullability, exact := true }

def nullability : StaticType → Nullability
  | .null => .null
  | .reference r => r.nullability
  | .bottom | .primitive _ => .notNull
  | .top => .maybe

def isReference : StaticType → Bool
  | .reference _ | .null => true
  | _ => false

def reference? : StaticType → Option ReferenceType
  | .reference r => some r
  | _ => none

/-- The reference of a type whose class is defined and no interface. -/
def classReference? (h : Hierarchy) (t : StaticType) : Option ReferenceType :=
  t.reference?.filter fun r => h.isClass r.name

def withNullability (n : Nullability) : StaticType → StaticType
  | .reference r => .reference { r with nullability := n }
  | t => t

def le (h : Hierarchy) : StaticType → StaticType → Bool
  | .bottom, _ => true
  | _, .top => true
  | .top, _ => false
  | _, .bottom => false
  | .primitive p, .primitive q => p = q
  | .null, .null => true
  | .null, .reference r => r.nullability ≠ .notNull
  | .reference a, .reference b =>
    a.nullability.le b.nullability && h.isSubtype a.name b.name &&
      (!b.exact || (a.exact && a.name = b.name))
  | _, _ => false

def join (h : Hierarchy) : StaticType → StaticType → StaticType
  | .bottom, t => t
  | t, .bottom => t
  | .top, _ => .top
  | _, .top => .top
  | .primitive p, .primitive q => if p = q then .primitive p else .top
  | .null, .null => .null
  | .null, .reference r => .reference { r with nullability := r.nullability.join .null }
  | .reference r, .null => .reference { r with nullability := r.nullability.join .null }
  | .reference a, .reference b => .reference (a.join h b)
  | _, _ => .top

@[simp] theorem bottom_join (h : Hierarchy) (t : StaticType) : join h .bottom t = t := by
  cases t <;> rfl

@[simp] theorem bottom_le (h : Hierarchy) (t : StaticType) : le h .bottom t = true := by
  cases t <;> rfl

@[simp] theorem le_top (h : Hierarchy) (t : StaticType) : le h t .top = true := by
  cases t <;> rfl

@[simp] theorem nullability_ofClass (c : TypeName) (n : Nullability) :
    (ofClass c n).nullability = n := rfl

end StaticType

end Devirt
