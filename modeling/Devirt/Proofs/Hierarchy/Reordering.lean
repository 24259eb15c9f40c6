import Devirt.Hierarchy.Access
import Devirt.Proofs.Hierarchy.Subtyping
import Mathlib.Data.List.Forall2
import Mathlib.Data.List.Perm.Basic

/-!
Hierarchies that differ in order only: in the order in which their classes are registered, and in
the order of the implements lists. Where every name has one definition, such hierarchies give the
same answers on single types, and their walks find the same types, though in another order.
-/

namespace Devirt

open Relation

/-- The definition without its implements list. -/
def Class.bare (c : Class) : Class := { c with interfaces := [] }

/-- The same definition up to the order of its implements list. -/
structure Class.Reordered (c d : Class) : Prop where
  bare : c.bare = d.bare
  interfaces : c.interfaces.Perm d.interfaces

namespace Class.Reordered

variable {c d : Class}

theorem refl (c : Class) : c.Reordered c := ⟨rfl, .refl _⟩

theorem symm (hcd : c.Reordered d) : d.Reordered c := ⟨hcd.bare.symm, hcd.interfaces.symm⟩

/-- What does not look at the implements list is the same for both. -/
theorem congr {β : Type} (hcd : c.Reordered d) (f : Class → β) (hf : ∀ c, f c.bare = f c) :
    f c = f d := by
  rw [← hf c, ← hf d, hcd.bare]

theorem name (hcd : c.Reordered d) : c.name = d.name := hcd.congr Class.name fun _ => rfl

theorem supertypes (hcd : c.Reordered d) : c.supertypes.Perm d.supertypes := by
  have hsuper : c.superclass = d.superclass := hcd.congr Class.superclass fun _ => rfl
  unfold Class.supertypes
  rw [hsuper]
  exact hcd.interfaces.append_left _

end Class.Reordered

/-- The same definitions and instantiated classes, registered in any order, with the implements
lists in any order. -/
structure Hierarchy.Reordered (h k : Hierarchy) : Prop where
  defined : ∃ l, h.defined.Perm l ∧ List.Forall₂ Class.Reordered l k.defined
  instantiated : ∀ t, t ∈ h.instantiated ↔ t ∈ k.instantiated

private theorem exists_mem_of_forall₂ {α β : Type} {r : α → β → Prop} {l : List α} {l' : List β}
    (hl : List.Forall₂ r l l') {a : α} (ha : a ∈ l) : ∃ b ∈ l', r a b := by
  induction hl with
  | nil => exact absurd ha List.not_mem_nil
  | cons hr _ ih =>
    rcases List.mem_cons.1 ha with rfl | ha
    · exact ⟨_, List.mem_cons_self, hr⟩
    · obtain ⟨b, hb, hab⟩ := ih ha
      exact ⟨b, List.mem_cons_of_mem _ hb, hab⟩

private theorem eraseDups_of_nodup {α : Type} [DecidableEq α] {l : List α} (hl : l.Nodup) :
    l.eraseDups = l := by
  induction l with
  | nil => rfl
  | cons a l ih =>
    obtain ⟨ha, hl⟩ := List.nodup_cons.1 hl
    have hfilter : l.filter (fun b => !b == a) = l := by
      rw [List.filter_eq_self]
      intro b hb
      rw [Bool.not_eq_true', beq_eq_false_iff_ne]
      exact fun hba => ha (hba ▸ hb)
    rw [List.eraseDups_cons, hfilter, ih hl]

namespace Hierarchy

variable {h k : Hierarchy} {t u : TypeName}

theorem DefinedOnce.size_eq (hd : h.DefinedOnce) : h.size = h.classes.length := by
  unfold size definedNames
  rw [eraseDups_of_nodup hd, List.length_map]

namespace Reordered

theorem symm (hk : h.Reordered k) : k.Reordered h := by
  obtain ⟨l, hl, hforall⟩ := hk.defined
  obtain ⟨l', hforall', hl'⟩ := List.perm_comp_forall₂ hl hforall
  refine ⟨⟨l', hl'.symm, ?_⟩, fun t => (hk.instantiated t).symm⟩
  exact (hforall'.imp fun _ _ hcd => hcd.symm).flip

/-- The root is the same for both, and stands first. -/
theorem classes (hk : h.Reordered k) :
    ∃ l, h.classes.Perm l ∧ List.Forall₂ Class.Reordered l k.classes := by
  obtain ⟨l, hl, hforall⟩ := hk.defined
  exact ⟨Class.root :: l, hl.cons _, .cons (.refl _) hforall⟩

theorem exists_mem (hk : h.Reordered k) {c : Class} (hc : c ∈ h.classes) :
    ∃ d ∈ k.classes, c.Reordered d := by
  obtain ⟨l, hl, hforall⟩ := hk.classes
  exact exists_mem_of_forall₂ hforall (hl.mem_iff.1 hc)

theorem names (hk : h.Reordered k) :
    (h.classes.map (·.name)).Perm (k.classes.map (·.name)) := by
  obtain ⟨l, hl, hforall⟩ := hk.classes
  have hnames : l.map (·.name) = k.classes.map (·.name) := by
    rw [← List.forall₂_eq_eq_eq, List.forall₂_map_left_iff, List.forall₂_map_right_iff]
    exact hforall.imp fun _ _ hcd => hcd.name
  rw [← hnames]
  exact hl.map _

theorem definedOnce (hk : h.Reordered k) (hd : h.DefinedOnce) : k.DefinedOnce :=
  hk.names.nodup_iff.1 hd

theorem size (hk : h.Reordered k) (hd : h.DefinedOnce) : h.size = k.size := by
  have hlength := hk.names.length_eq
  rw [List.length_map, List.length_map] at hlength
  rw [hd.size_eq, (hk.definedOnce hd).size_eq, hlength]

/-- Both define a name alike, or neither defines it. -/
theorem class?_cases (hk : h.Reordered k) (hd : h.DefinedOnce) (t : TypeName) :
    (h.class? t = none ∧ k.class? t = none) ∨
      ∃ c d, h.class? t = some c ∧ k.class? t = some d ∧ c.Reordered d := by
  cases hc : h.class? t with
  | none =>
    left
    have hnot : ¬ (k.class? t).isSome = true := by
      rw [class?_isSome_iff, ← hk.names.mem_iff, ← class?_isSome_iff, hc]
      exact Bool.false_ne_true
    exact ⟨rfl, Option.not_isSome_iff_eq_none.1 hnot⟩
  | some c =>
    right
    obtain ⟨d, hdk, hcd⟩ := hk.exists_mem (mem_classes_of_class? hc)
    have hname : d.name = t := hcd.name.symm.trans (name_of_class? hc)
    refine ⟨c, d, rfl, ?_, hcd⟩
    rw [← hname]
    exact (hk.definedOnce hd).class?_of_mem hdk

section SameAnswers

variable (hk : h.Reordered k) (hd : h.DefinedOnce)
include hk hd

theorem class?_congr {β : Type} (f : Option Class → β)
    (hf : ∀ c d : Class, c.Reordered d → f (some c) = f (some d)) (t : TypeName) :
    f (h.class? t) = f (k.class? t) := by
  rcases hk.class?_cases hd t with ⟨hc, hc'⟩ | ⟨c, d, hc, hc', hcd⟩
  · rw [hc, hc']
  · rw [hc, hc', hf c d hcd]

theorem any_class? (p : Class → Bool) (hp : ∀ c, p c.bare = p c) (t : TypeName) :
    (h.class? t).any p = (k.class? t).any p :=
  hk.class?_congr hd (Option.any p) (fun _ _ hcd => hcd.congr p hp) t

theorem isClass (t : TypeName) : h.isClass t = k.isClass t :=
  hk.any_class? hd (fun c => !c.isInterface) (fun _ => rfl) t

theorem isProgramClass (t : TypeName) : h.isProgramClass t = k.isProgramClass t :=
  hk.any_class? hd Class.isProgramClass (fun _ => rfl) t

theorem superclass? (t : TypeName) : h.superclass? t = k.superclass? t :=
  hk.class?_congr hd (Option.bind · Class.superclass)
    (fun _ _ hcd => hcd.congr Class.superclass fun _ => rfl) t

theorem samePackage (t u : TypeName) : h.samePackage t u = k.samePackage t u := by
  unfold Hierarchy.samePackage
  rcases hk.class?_cases hd t with ⟨hc, hc'⟩ | ⟨c, d, hc, hc', hcd⟩
  · rw [hc, hc']
  · rcases hk.class?_cases hd u with ⟨he, he'⟩ | ⟨e, f, he, he', hef⟩
    · rw [hc, hc', he, he']
    · rw [hc, hc', he, he']
      simp only [hcd.congr Class.package fun _ => rfl, hef.congr Class.package fun _ => rfl]

omit hd in
theorem tracksInstantiation : h.tracksInstantiation = k.tracksInstantiation := by
  have hempty : h.instantiated = [] ↔ k.instantiated = [] := by
    rw [List.eq_nil_iff_forall_not_mem, List.eq_nil_iff_forall_not_mem]
    exact forall_congr' fun u => not_congr (hk.instantiated u)
  unfold Hierarchy.tracksInstantiation
  rw [Bool.eq_iff_iff]
  simp [hempty]

theorem isInstantiated (t : TypeName) : h.isInstantiated t = k.isInstantiated t := by
  unfold Hierarchy.isInstantiated
  simp only [hk.tracksInstantiation, hk.instantiated t]
  exact hk.any_class? hd _ (fun _ => rfl) t

/-! ### Walks -/

theorem mem_interfaces (t u : TypeName) : u ∈ h.interfaces t ↔ u ∈ k.interfaces t := by
  unfold interfaces
  rcases hk.class?_cases hd t with ⟨hc, hc'⟩ | ⟨c, d, hc, hc', hcd⟩
  · rw [hc, hc']
  · rw [hc, hc']
    exact hcd.interfaces.mem_iff

theorem mem_supertypes (t u : TypeName) : u ∈ h.supertypes t ↔ u ∈ k.supertypes t := by
  unfold supertypes
  rcases hk.class?_cases hd t with ⟨hc, hc'⟩ | ⟨c, d, hc, hc', hcd⟩
  · rw [hc, hc']
  · rw [hc, hc']
    exact hcd.supertypes.mem_iff

theorem leads_supertypes : Leads h.supertypes = Leads k.supertypes := by
  funext t u
  exact propext (hk.mem_supertypes hd t u)

theorem isSubtype (t u : TypeName) : h.isSubtype t u = k.isSubtype t u := by
  rw [Bool.eq_iff_iff, isSubtype_iff, isSubtype_iff, hk.leads_supertypes hd]

theorem subtypes (t : TypeName) : (h.subtypes t).Perm (k.subtypes t) := by
  rw [List.perm_ext_iff_of_nodup (nodup_subtypes t) (nodup_subtypes t)]
  intro u
  rw [hd.mem_subtypes_iff, (hk.definedOnce hd).mem_subtypes_iff, hk.leads_supertypes hd]

/-- The superclasses of a type come in the same order in both. -/
theorem superclasses (t : TypeName) :
    List.Forall₂ Class.Reordered (h.superclasses t) (k.superclasses t) := by
  have hwithin : ∀ steps u, List.Forall₂ Class.Reordered (h.superclassesWithin steps u)
      (k.superclassesWithin steps u) := by
    intro steps
    induction steps with
    | zero => exact fun _ => .nil
    | succ steps ih =>
      intro u
      cases u with
      | none => exact .nil
      | some u =>
        simp only [superclassesWithin]
        rcases hk.class?_cases hd u with ⟨hc, hc'⟩ | ⟨c, d, hc, hc', hcd⟩
        · simp only [hc, hc']
          exact .nil
        · simp only [hc, hc']
          rw [hcd.congr Class.superclass fun _ => rfl]
          exact .cons hcd (ih d.superclass)
  unfold Hierarchy.superclasses
  rw [hk.size hd]
  exact hwithin _ _

theorem map_superclasses (t : TypeName) :
    (h.superclasses t).map Class.bare = (k.superclasses t).map Class.bare := by
  rw [← List.forall₂_eq_eq_eq, List.forall₂_map_left_iff, List.forall₂_map_right_iff]
  exact (hk.superclasses hd t).imp fun _ _ hcd => hcd.bare

theorem superinterfaces (t : TypeName) : (h.superinterfaces t).Perm (k.superinterfaces t) := by
  have hleads : Leads h.interfaces = Leads k.interfaces := by
    funext t u
    exact propext (hk.mem_interfaces hd t u)
  have hsub : ∀ {h k : Hierarchy}, List.Forall₂ Class.Reordered (h.superclasses t) (k.superclasses t) →
      Leads h.interfaces = Leads k.interfaces → h.superinterfaces t ⊆ k.superinterfaces t := by
    intro h k hchain hleads i hi
    obtain ⟨hne, c, hc, hci⟩ := mem_superinterfaces_iff.1 hi
    obtain ⟨d, hd, hcd⟩ := exists_mem_of_forall₂ hchain hc
    rw [hcd.name, hleads] at hci
    exact mem_superinterfaces_iff.2 ⟨hne, d, hd, hci⟩
  rw [List.perm_ext_iff_of_nodup (nodup_superinterfaces t) (nodup_superinterfaces t)]
  intro i
  constructor
  · exact fun hi => hsub (hk.superclasses hd t) hleads hi
  · exact fun hi => hsub (hk.symm.superclasses (hk.definedOnce hd) t) hleads.symm hi

end SameAnswers

end Reordered

end Hierarchy

end Devirt
