/-!
Finite sets that remember the order in which their elements arrived. Inserting an element that is
already present changes nothing, and removing one keeps the order of the others.
-/

namespace Devirt

structure OrderedSet (α : Type) where
  toList : List α
  nodup : toList.Nodup
  deriving DecidableEq

namespace OrderedSet

variable {α : Type}

def empty : OrderedSet α := ⟨[], List.nodup_nil⟩

instance : EmptyCollection (OrderedSet α) := ⟨empty⟩

instance : Inhabited (OrderedSet α) := ⟨empty⟩

instance : Membership α (OrderedSet α) := ⟨fun s a => a ∈ s.toList⟩

@[simp] theorem toList_empty : (∅ : OrderedSet α).toList = [] := rfl

@[simp] theorem mem_toList {s : OrderedSet α} {a : α} : a ∈ s.toList ↔ a ∈ s := Iff.rfl

def size (s : OrderedSet α) : Nat := s.toList.length

def isEmpty (s : OrderedSet α) : Bool := s.toList.isEmpty

/-- The element that arrived last, and the set without it. -/
def popLast? (s : OrderedSet α) : Option (α × OrderedSet α) :=
  s.toList.getLast?.map fun a => (a, ⟨s.toList.dropLast, (List.dropLast_sublist _).nodup s.nodup⟩)

theorem popLast?_eq_some {s t : OrderedSet α} {a : α} (h : s.popLast? = some (a, t)) :
    s.toList = t.toList ++ [a] := by
  simp only [popLast?, Option.map_eq_some_iff, Prod.mk.injEq] at h
  obtain ⟨b, hb, rfl, rfl⟩ := h
  obtain ⟨l, hl⟩ := List.getLast?_eq_some_iff.1 hb
  simp [hl]

variable [DecidableEq α]

instance (a : α) (s : OrderedSet α) : Decidable (a ∈ s) :=
  inferInstanceAs (Decidable (a ∈ s.toList))

/-- Adds an element at the end unless it is present. -/
def insert (s : OrderedSet α) (a : α) : OrderedSet α :=
  if h : a ∈ s.toList then s
  else ⟨s.toList ++ [a], by
    rw [List.nodup_append]
    exact ⟨s.nodup, by simp, by rintro x hx y hy rfl; simp_all⟩⟩

def erase (s : OrderedSet α) (a : α) : OrderedSet α :=
  ⟨s.toList.erase a, s.nodup.erase a⟩

def insertAll (s : OrderedSet α) (l : List α) : OrderedSet α := l.foldl insert s

def ofList (l : List α) : OrderedSet α := insertAll ∅ l

/-- The place of an element in the order of arrival. -/
def position? (s : OrderedSet α) (a : α) : Option Nat := s.toList.idxOf? a

@[simp] theorem mem_insert {s : OrderedSet α} {a b : α} : b ∈ s.insert a ↔ b ∈ s ∨ b = a := by
  unfold insert
  split
  · constructor
    · exact Or.inl
    · rintro (h | rfl)
      · exact h
      · assumption
  · simp [← mem_toList]

@[simp] theorem mem_erase {s : OrderedSet α} {a b : α} : b ∈ s.erase a ↔ b ≠ a ∧ b ∈ s := by
  simp [← mem_toList, erase, s.nodup.mem_erase_iff]

@[simp] theorem mem_insertAll {s : OrderedSet α} {l : List α} {b : α} :
    b ∈ s.insertAll l ↔ b ∈ s ∨ b ∈ l := by
  induction l generalizing s with
  | nil => simp [insertAll]
  | cons a l ih =>
    have := ih (s := s.insert a)
    simp only [insertAll, List.foldl_cons, List.mem_cons] at this ⊢
    rw [this, mem_insert, or_assoc]

end OrderedSet

end Devirt
