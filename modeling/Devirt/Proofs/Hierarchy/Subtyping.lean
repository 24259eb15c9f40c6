import Devirt.Hierarchy.Subtyping
import Devirt.Proofs.BreadthFirst
import Mathlib.Algebra.BigOperators.Group.Finset.Piecewise

/-!
What the walks along supertype edges find. Going up reaches exactly the types that a chain of
supertype entries leads to. Where every name has one definition, going down reaches exactly the
types that going up leads back from.
-/

namespace Devirt

namespace Hierarchy

open Relation

variable {h : Hierarchy}

/-- No name has two definitions, the root included. -/
def DefinedOnce (h : Hierarchy) : Prop := (h.classes.map (·.name)).Nodup

instance (h : Hierarchy) : Decidable h.DefinedOnce :=
  inferInstanceAs (Decidable (h.classes.map (·.name)).Nodup)

/-- No type is above itself. -/
def Acyclic (h : Hierarchy) : Prop := ∀ t, ¬ TransGen (Leads h.supertypes) t t

/-- No implements list names a class. -/
def ImplementsNoClass (h : Hierarchy) : Prop :=
  ∀ c ∈ h.classes, ∀ i ∈ c.interfaces, h.isClass i = false

instance (h : Hierarchy) : Decidable h.ImplementsNoClass :=
  inferInstanceAs (Decidable (∀ c ∈ h.classes, ∀ i ∈ c.interfaces, _))

theorem mem_classes_of_class? {t : TypeName} {c : Class} (hc : h.class? t = some c) :
    c ∈ h.classes := by
  simpa using List.mem_of_find?_eq_some hc

theorem class?_name {t : TypeName} {c : Class} (hc : h.class? t = some c) :
    h.class? c.name = some c := by
  rw [name_of_class? hc, hc]

theorem class?_isSome_iff {t : TypeName} :
    (h.class? t).isSome ↔ t ∈ h.classes.map (·.name) := by
  simp [class?, List.find?_isSome]

theorem mem_definedNames {t : TypeName} : t ∈ h.definedNames ↔ (h.class? t).isSome := by
  rw [class?_isSome_iff, definedNames, List.mem_eraseDups]

/-- Where every name has one definition, each definition counts. -/
theorem DefinedOnce.class?_of_mem (hd : h.DefinedOnce) {c : Class} (hc : c ∈ h.classes) :
    h.class? c.name = some c := by
  obtain ⟨d, hd'⟩ := Option.isSome_iff_exists.1
    (class?_isSome_iff.2 (List.mem_map_of_mem hc))
  have hname := name_of_class? hd'
  have : d = c := List.inj_on_of_nodup_map hd (mem_classes_of_class? hd') hc hname
  rw [hd', this]

theorem DefinedOnce.class?_rootType (hd : h.DefinedOnce) : h.class? rootType = some Class.root :=
  hd.class?_of_mem (c := Class.root) (by simp [classes])

theorem supertypes_of_class? {t : TypeName} {c : Class} (hc : h.class? t = some c) :
    h.supertypes t = c.supertypes := by
  simp [supertypes, hc]

theorem interfaces_of_class? {t : TypeName} {c : Class} (hc : h.class? t = some c) :
    h.interfaces t = c.interfaces := by
  simp [interfaces, hc]

theorem mem_supertypes_iff {t u : TypeName} :
    u ∈ h.supertypes t ↔ ∃ c, h.class? t = some c ∧ u ∈ c.supertypes := by
  cases hc : h.class? t <;> simp [supertypes, hc]

theorem mem_interfaces_iff {t u : TypeName} :
    u ∈ h.interfaces t ↔ ∃ c, h.class? t = some c ∧ u ∈ c.interfaces := by
  cases hc : h.class? t <;> simp [interfaces, hc]

/-- The lists of a name's last definition fit into the lists of all definitions. -/
private theorem sum_length_le_edgeCount (next : TypeName → List TypeName)
    (hnext : ∀ t c, h.class? t = some c → (next t).length ≤ c.supertypes.length) :
    ∑ t ∈ (h.classes.map (·.name)).toFinset, (next t).length ≤ h.edgeCount := by
  refine sum_length_le_of_records (fun t => (h.class? t).getD Class.root) ?_ ?_
  · intro t ht u hu heq
    obtain ⟨c, hc⟩ := Option.isSome_iff_exists.1 (class?_isSome_iff.2 (List.mem_toFinset.1 ht))
    obtain ⟨d, hd⟩ := Option.isSome_iff_exists.1 (class?_isSome_iff.2 (List.mem_toFinset.1 hu))
    simp only [hc, hd, Option.getD_some] at heq
    rw [← name_of_class? hc, ← name_of_class? hd, heq]
  · intro t ht
    obtain ⟨c, hc⟩ := Option.isSome_iff_exists.1 (class?_isSome_iff.2 (List.mem_toFinset.1 ht))
    simp only [hc, Option.getD_some]
    exact ⟨mem_classes_of_class? hc, hnext t c hc⟩

private theorem class?_eq_none {t : TypeName} (ht : t ∉ (h.classes.map (·.name)).toFinset) :
    h.class? t = none := by
  rw [List.mem_toFinset, ← class?_isSome_iff] at ht
  simpa using ht

/-- Going up finds what a chain of supertype entries leads to. -/
theorem mem_ancestors_iff {a b : TypeName} :
    b ∈ h.ancestors a ↔ ReflTransGen (Leads h.supertypes) a b := by
  have hsum := sum_length_le_edgeCount h.supertypes
    fun t c hc => by rw [supertypes_of_class? hc]
  rw [ancestors, mem_breadthFirst_iff (h.classes.map (·.name)).toFinset]
  · simp
  · intro t ht
    simp [supertypes, class?_eq_none ht]
  · rw [List.length_singleton]
    omega

theorem isSubtype_iff {a b : TypeName} :
    h.isSubtype a b = true ↔ b = rootType ∨ ReflTransGen (Leads h.supertypes) a b := by
  simp only [isSubtype, Bool.or_eq_true, decide_eq_true_eq, mem_ancestors_iff]
  constructor
  · rintro ((rfl | rfl) | hr)
    · exact .inr .refl
    · exact .inl rfl
    · exact .inr hr
  · rintro (rfl | hr)
    · exact .inl (.inr rfl)
    · exact .inr hr

theorem isSubtype_of_reaches {a b : TypeName} (hr : ReflTransGen (Leads h.supertypes) a b) :
    h.isSubtype a b = true := isSubtype_iff.2 (.inr hr)

/-- The second type is the superclass of the first one. -/
def Extends (h : Hierarchy) (t u : TypeName) : Prop := h.superclass? t = some u

theorem Extends.class?_isSome {t u : TypeName} (htu : h.Extends t u) : (h.class? t).isSome := by
  obtain ⟨c, hc, -⟩ := Option.bind_eq_some_iff.1 htu
  rw [hc]
  rfl

/-- A supertype is the superclass or stands in the implements list. -/
theorem leads_supertypes_iff {t u : TypeName} :
    Leads h.supertypes t u ↔ h.Extends t u ∨ Leads h.interfaces t u := by
  cases hc : h.class? t <;>
    simp [Leads, supertypes, interfaces, Extends, superclass?, Class.supertypes, hc]

theorem Extends.leads {t u : TypeName} (htu : h.Extends t u) : Leads h.supertypes t u :=
  leads_supertypes_iff.2 (.inl htu)

theorem reaches_of_extends {t u : TypeName} (htu : ReflTransGen h.Extends t u) :
    ReflTransGen (Leads h.supertypes) t u :=
  ReflTransGen.mono (fun _ _ hstep => Extends.leads hstep) _ _ htu

/-- The walk along superclasses meets last definitions, each above the start. -/
theorem mem_superclassesWithin {steps : Nat} {t : TypeName} {c : Class}
    (hc : c ∈ h.superclassesWithin steps (some t)) :
    h.class? c.name = some c ∧ ReflTransGen h.Extends t c.name := by
  induction steps generalizing t with
  | zero => simp [superclassesWithin] at hc
  | succ steps ih =>
    simp only [superclassesWithin] at hc
    cases hd : h.class? t with
    | none => simp [hd] at hc
    | some d =>
      simp only [hd, List.mem_cons] at hc
      rcases hc with rfl | hc
      · exact ⟨class?_name hd, by rw [name_of_class? hd]⟩
      · cases hs : d.superclass with
        | none =>
          rw [hs] at hc
          cases steps <;> simp [superclassesWithin] at hc
        | some u =>
          rw [hs] at hc
          obtain ⟨h1, h2⟩ := ih hc
          have hstep : h.Extends t u := by simp [Extends, superclass?, hd, hs]
          exact ⟨h1, .head hstep h2⟩

theorem class?_of_mem_superclasses {t : TypeName} {c : Class} (hc : c ∈ h.superclasses t) :
    h.class? c.name = some c := (mem_superclassesWithin hc).1

theorem reaches_of_mem_superclasses {t : TypeName} {c : Class} (hc : c ∈ h.superclasses t) :
    ReflTransGen (Leads h.supertypes) t c.name := reaches_of_extends (mem_superclassesWithin hc).2

/-- Whatever the walk along superclasses meets later stands above what it has met before. -/
theorem pairwise_superclassesWithin (steps : Nat) (t : Option TypeName) :
    (h.superclassesWithin steps t).Pairwise fun c d => TransGen h.Extends c.name d.name := by
  induction steps generalizing t with
  | zero => simp [superclassesWithin]
  | succ steps ih =>
    cases t with
    | none => simp [superclassesWithin]
    | some t =>
      simp only [superclassesWithin]
      cases hd : h.class? t with
      | none => simp
      | some d =>
        refine List.pairwise_cons.2 ⟨fun c hc => ?_, ih d.superclass⟩
        cases hs : d.superclass with
        | none =>
          rw [hs] at hc
          cases steps <;> simp [superclassesWithin] at hc
        | some u =>
          rw [hs] at hc
          have hstep : h.Extends d.name u := by simp [Extends, superclass?, class?_name hd, hs]
          exact TransGen.head' hstep (mem_superclassesWithin hc).2

theorem pairwise_superclasses (t : TypeName) :
    (h.superclasses t).Pairwise fun c d => TransGen (Leads h.supertypes) c.name d.name :=
  (pairwise_superclassesWithin _ _).imp fun hcd =>
    TransGen.mono (fun _ _ hstep => Extends.leads hstep) _ _ hcd

/-- Going up over implements lists finds all that the lists of the superclasses lead to. -/
theorem mem_superinterfaces_iff {t i : TypeName} :
    i ∈ h.superinterfaces t ↔ i ≠ t ∧
      ∃ c ∈ h.superclasses t, TransGen (Leads h.interfaces) c.name i := by
  have hsum := sum_length_le_edgeCount h.interfaces fun t c hc => by
    rw [interfaces_of_class? hc, Class.supertypes, List.length_append]
    omega
  have hfirst : ∀ c ∈ h.superclasses t, TransGen (Leads h.interfaces) c.name i ↔
      ∃ j ∈ c.interfaces, ReflTransGen (Leads h.interfaces) j i := by
    intro c hc
    rw [TransGen.head'_iff]
    simp only [Leads, interfaces_of_class? (class?_of_mem_superclasses hc)]
  simp only [superinterfaces, List.mem_filter, decide_eq_true_eq]
  rw [mem_breadthFirst_iff (h.classes.map (·.name)).toFinset]
  · simp only [List.mem_flatMap]
    constructor
    · rintro ⟨⟨j, ⟨c, hc, hj⟩, hji⟩, hne⟩
      exact ⟨hne, c, hc, (hfirst c hc).2 ⟨j, hj, hji⟩⟩
    · rintro ⟨hne, c, hc, hci⟩
      obtain ⟨j, hj, hji⟩ := (hfirst c hc).1 hci
      exact ⟨⟨j, ⟨c, hc, hj⟩, hji⟩, hne⟩
  · intro u hu
    simp [interfaces, class?_eq_none hu]
  · omega

/-- A superinterface is named by an implements list and stands above the type. -/
theorem mem_superinterfaces {t i : TypeName} (hi : i ∈ h.superinterfaces t) :
    ReflTransGen (Leads h.supertypes) t i ∧ ∃ c ∈ h.classes, i ∈ c.interfaces := by
  obtain ⟨-, c, hc, hci⟩ := mem_superinterfaces_iff.1 hi
  constructor
  · have hup : TransGen (Leads h.supertypes) c.name i :=
      TransGen.mono (fun _ _ hstep => leads_supertypes_iff.2 (.inr hstep)) _ _ hci
    exact (reaches_of_mem_superclasses hc).trans hup.to_reflTransGen
  · obtain ⟨b, -, hb⟩ := TransGen.tail'_iff.1 hci
    obtain ⟨d, hd, hid⟩ := mem_interfaces_iff.1 hb
    exact ⟨d, mem_classes_of_class? hd, hid⟩

theorem nodup_superinterfaces (t : TypeName) : (h.superinterfaces t).Nodup := by
  unfold superinterfaces
  exact (nodup_breadthFirst List.nodup_nil).filter _

theorem nodup_subtypes (t : TypeName) : (h.subtypes t).Nodup := nodup_breadthFirst List.nodup_nil

theorem ImplementsNoClass.isClass_of_mem_superinterfaces (hn : h.ImplementsNoClass) {t i : TypeName}
    (hi : i ∈ h.superinterfaces t) : h.isClass i = false := by
  obtain ⟨-, c, hc, hic⟩ := mem_superinterfaces hi
  exact hn c hc i hic

/-- A type that names `t` as a supertype is a direct subtype of `t`, and where every name has one
definition the converse holds. -/
theorem DefinedOnce.mem_directSubtypes_iff (hd : h.DefinedOnce) {s t : TypeName} :
    s ∈ h.directSubtypes t ↔ t ∈ h.supertypes s := by
  simp only [directSubtypes, List.mem_flatMap, List.mem_map, List.mem_filter, decide_eq_true_eq]
  constructor
  · rintro ⟨c, hc, t', ⟨ht', rfl⟩, rfl⟩
    rwa [supertypes_of_class? (hd.class?_of_mem hc)]
  · intro ht
    obtain ⟨c, hc, htc⟩ := mem_supertypes_iff.1 ht
    exact ⟨c, mem_classes_of_class? hc, t, ⟨htc, rfl⟩, name_of_class? hc⟩

/-- Every supertype entry is one edge downwards. -/
private theorem sum_directSubtypes_le (cs : List Class) (univ : Finset TypeName) :
    ∑ t ∈ univ, (cs.flatMap fun c => (c.supertypes.filter (· = t)).map fun _ => c.name).length ≤
      (cs.flatMap (·.supertypes)).length := by
  induction cs with
  | nil => simp
  | cons c cs ih =>
    simp only [List.flatMap_cons, List.length_append, List.length_map, Finset.sum_add_distrib]
    refine Nat.add_le_add ?_ ih
    have : ∀ l : List TypeName, ∑ t ∈ univ, (l.filter (· = t)).length ≤ l.length := by
      intro l
      induction l with
      | nil => simp
      | cons a l ihl =>
        have hone : ∀ t, ((a :: l).filter (· = t)).length =
            (if a = t then 1 else 0) + (l.filter (· = t)).length := by
          intro t
          by_cases hat : a = t <;> simp [hat, Nat.add_comm]
        simp only [hone, Finset.sum_add_distrib, Finset.sum_ite_eq, List.length_cons]
        split <;> omega
    exact this c.supertypes

/-- Going down finds what going up leads back from. -/
theorem DefinedOnce.mem_subtypes_iff (hd : h.DefinedOnce) {s t : TypeName} :
    s ∈ h.subtypes t ↔ ReflTransGen (Leads h.supertypes) s t := by
  rw [subtypes, mem_breadthFirst_iff (h.classes.flatMap (·.supertypes)).toFinset]
  rotate_left
  · intro a ha
    rw [List.mem_toFinset] at ha
    rw [List.eq_nil_iff_forall_not_mem]
    intro x hx
    simp only [directSubtypes, List.mem_flatMap, List.mem_map, List.mem_filter,
      decide_eq_true_eq] at hx
    obtain ⟨c, hc, a', ⟨ha', rfl⟩, -⟩ := hx
    exact ha (List.mem_flatMap.2 ⟨c, hc, ha'⟩)
  · have := sum_directSubtypes_le h.classes (h.classes.flatMap (·.supertypes)).toFinset
    simp only [List.length_singleton, directSubtypes, edgeCount]
    omega
  simp only [List.mem_singleton, exists_eq_left]
  have hswap : Leads h.directSubtypes = Function.swap (Leads h.supertypes) := by
    funext a b
    exact propext hd.mem_directSubtypes_iff
  rw [hswap, reflTransGen_swap]

/-- A ranking that grows with every supertype entry rules out cycles. -/
theorem acyclic_of_rank (rank : TypeName → Nat)
    (hrank : ∀ c ∈ h.classes, ∀ t ∈ c.supertypes, rank c.name < rank t) : h.Acyclic := by
  have hup : ∀ a b, TransGen (Leads h.supertypes) a b → rank a < rank b := by
    intro a b hab
    have hone : ∀ x y, Leads h.supertypes x y → rank x < rank y := by
      intro x y hxy
      obtain ⟨c, hc, hyc⟩ := mem_supertypes_iff.1 hxy
      have hlt := hrank c (mem_classes_of_class? hc) y hyc
      rwa [name_of_class? hc] at hlt
    induction hab with
    | single hs => exact hone _ _ hs
    | tail _ hs ih => exact ih.trans (hone _ _ hs)
  exact fun t ht => absurd (hup t t ht) (lt_irrefl _)

end Hierarchy

end Devirt
