import Devirt.Proofs.Hierarchy.Distance

/-!
The walks along superclasses and along implements lists, on hierarchies that may be cyclic, define a
name twice or name types without a definition. The walk along superclasses is cut off by a count of
its steps. As the shortest way to a class meets no name twice, the count lets it come to every class
that can be reached. Where classes and interfaces are kept apart, the superinterfaces of a type are
the interfaces above it.
-/

namespace Devirt

open Relation

namespace Hierarchy

variable {h : Hierarchy} {i t u : TypeName} {c : Class} {n steps : Nat}

/-! ### The superclass chain -/

/-- At place `n` the walk meets the class that `n` superclass entries lead to, unless it has been cut
off before. -/
theorem getElem?_superclassesWithin {start : Option TypeName} :
    (h.superclassesWithin steps start)[n]? = some c ↔
      n < steps ∧ ∃ t ∈ start, ∃ u, ReachesIn h.Extends t n u ∧ h.class? u = some c := by
  induction steps generalizing start n with
  | zero => simp [superclassesWithin]
  | succ steps ih =>
    cases start with
    | none => simp [superclassesWithin]
    | some t =>
      cases n with
      | zero => cases hd : h.class? t <;> simp [superclassesWithin, ReachesIn.zero_iff, hd]
      | succ n =>
        cases hd : h.class? t with
        | none => simp [superclassesWithin, ReachesIn.succ_iff, Extends, superclass?, hd]
        | some d =>
          have hstep : ∀ v, h.Extends t v ↔ v ∈ d.superclass := by
            intro v
            rw [Extends, superclass?, hd, Option.bind_some, Option.mem_def]
          -- the rest of the walk starts at the superclass of `d`, if there is one
          simp only [superclassesWithin, hd, List.getElem?_cons_succ, ih, ReachesIn.succ_iff, hstep,
            Nat.add_lt_add_iff_right, Option.mem_some_iff, exists_eq_left']
          constructor
          · rintro ⟨hn, v, hv, u, hvu, hu⟩
            exact ⟨hn, u, ⟨v, hv, hvu⟩, hu⟩
          · rintro ⟨hn, u, ⟨v, hv, hvu⟩, hu⟩
            exact ⟨hn, v, hv, u, hvu, hu⟩

theorem getElem?_superclasses :
    (h.superclasses t)[n]? = some c ↔
      n ≤ h.size ∧ ∃ u, ReachesIn h.Extends t n u ∧ h.class? u = some c := by
  rw [superclasses, getElem?_superclassesWithin, Nat.lt_succ_iff]
  simp only [Option.mem_some_iff, exists_eq_left']

theorem length_superclasses_le (h : Hierarchy) (t : TypeName) :
    (h.superclasses t).length ≤ h.size + 1 := by
  by_contra hlong
  have hplace : h.size + 1 < (h.superclasses t).length := Nat.lt_of_not_le hlong
  have hle := (getElem?_superclasses.1 (List.getElem?_eq_getElem hplace)).1
  omega

/-- The way to a defined class leads through defined classes only, so its shortest form has fewer
steps than there are names with a definition. -/
theorem distance_extends_lt_size (htu : ReflTransGen h.Extends t u) (hu : h.class? u = some c) :
    distance h.Extends t u < h.size := by
  apply distance_lt_length htu
  intro v _ hvu
  rw [mem_definedNames]
  rcases hvu.cases_head with rfl | ⟨w, hvw, -⟩
  · rw [hu]
    rfl
  · exact hvw.class?_isSome

theorem mem_superclasses_iff :
    c ∈ h.superclasses t ↔ ∃ u, ReflTransGen h.Extends t u ∧ h.class? u = some c := by
  rw [List.mem_iff_getElem?]
  constructor
  · rintro ⟨n, hn⟩
    obtain ⟨-, u, htu, hu⟩ := getElem?_superclasses.1 hn
    exact ⟨u, htu.reflTransGen, hu⟩
  · rintro ⟨u, htu, hu⟩
    have hsize := distance_extends_lt_size htu hu
    obtain ⟨n, hn⟩ := exists_reachesIn htu
    exact ⟨_, getElem?_superclasses.2 ⟨hsize.le, u, hn.shortest, hu⟩⟩

/-- A class that is met twice stands on a cycle. -/
theorem nodup_superclasses (ht : ∀ u, ReflTransGen h.Extends t u → ¬ TransGen h.Extends u u) :
    (h.superclasses t).Nodup := by
  apply (pairwise_superclassesWithin (h.size + 1) (some t)).imp_of_mem
  intro c d hc _ hcd heq
  rw [← heq] at hcd
  exact ht c.name (mem_superclassesWithin hc).2 hcd

/-- A walk that comes to a cycle goes on until it is cut off. -/
theorem not_transGen_of_length_superclasses_le (hlength : (h.superclasses t).length ≤ h.size)
    (htu : ReflTransGen h.Extends t u) : ¬ TransGen h.Extends u u := by
  intro hcycle
  have hnext : ∀ v, ReflTransGen h.Extends v u → ∃ w, h.Extends v w ∧ ReflTransGen h.Extends w u := by
    intro v hvu
    rcases hvu.cases_head with rfl | hstep
    · exact TransGen.head'_iff.1 hcycle
    · exact hstep
  have hway : ∀ n, ∃ v, ReachesIn h.Extends t n v ∧ ReflTransGen h.Extends v u := by
    intro n
    induction n with
    | zero => exact ⟨t, .refl, htu⟩
    | succ n ih =>
      obtain ⟨v, htv, hvu⟩ := ih
      obtain ⟨w, hvw, hwu⟩ := hnext v hvu
      exact ⟨w, htv.tail hvw, hwu⟩
  obtain ⟨v, htv, hvu⟩ := hway h.size
  obtain ⟨w, hvw, -⟩ := hnext v hvu
  obtain ⟨c, hc⟩ := Option.isSome_iff_exists.1 hvw.class?_isSome
  have hplace := getElem?_superclasses.2 ⟨le_rfl, v, htv, hc⟩
  obtain ⟨hlt, -⟩ := List.getElem?_eq_some_iff.1 hplace
  omega

/-! ### Interfaces above a type -/

/-- The definitions that count keep classes and interfaces apart: the root is the built-in one, no
class extends an interface, no implements list names a class, and no interface has a superclass other
than the root. -/
structure KindsApart (h : Hierarchy) : Prop where
  root : h.class? rootType = some Class.root
  superclass : ∀ t u, h.isClass t = true → h.Extends t u → h.isInterface u = false
  implemented : ∀ t, ∀ i ∈ h.interfaces t, h.isClass i = false
  interface : ∀ t u, h.isInterface t = true → h.Extends t u → u = rootType

theorem kindsApart_iff :
    h.KindsApart ↔ h.class? rootType = some Class.root ∧ ∀ t ∈ h.definedNames,
      (h.isClass t = true → ∀ u ∈ h.superclass? t, h.isInterface u = false) ∧
      (∀ i ∈ h.interfaces t, h.isClass i = false) ∧
      (h.isInterface t = true → ∀ u ∈ h.superclass? t, u = rootType) := by
  constructor
  · intro hk
    refine ⟨hk.root, fun t _ => ⟨?_, hk.implemented t, ?_⟩⟩
    · exact fun ht u htu => hk.superclass t u ht htu
    · exact fun ht u htu => hk.interface t u ht htu
  · rintro ⟨hroot, hall⟩
    -- a type without a definition has no entries at all
    have hdefined : ∀ {t u}, h.Extends t u → t ∈ h.definedNames :=
      fun htu => mem_definedNames.2 htu.class?_isSome
    refine ⟨hroot, fun t u ht htu => ?_, fun t i hi => ?_, fun t u ht htu => ?_⟩
    · exact (hall t (hdefined htu)).1 ht u htu
    · obtain ⟨c, hc, -⟩ := mem_interfaces_iff.1 hi
      exact (hall t (by simp [mem_definedNames, hc])).2.1 i hi
    · exact (hall t (hdefined htu)).2.2 ht u htu

instance (h : Hierarchy) : Decidable h.KindsApart := decidable_of_iff _ kindsApart_iff.symm

theorem isClass_or_isInterface (ht : (h.class? t).isSome) :
    h.isClass t = true ∨ h.isInterface t = true := by
  obtain ⟨c, hc⟩ := Option.isSome_iff_exists.1 ht
  cases hkind : c.isInterface <;> simp [isClass, isInterface, hc, hkind]

namespace KindsApart

theorem isInterface_rootType (hk : h.KindsApart) : h.isInterface rootType = false := by
  rw [isInterface, hk.root]
  rfl

theorem isInterface_of_extends (hk : h.KindsApart) (htu : h.Extends t u) :
    h.isInterface u = false := by
  rcases isClass_or_isInterface htu.class?_isSome with ht | ht
  · exact hk.superclass t u ht htu
  · rw [hk.interface t u ht htu]
    exact hk.isInterface_rootType

theorem ne_rootType (hk : h.KindsApart) (hi : h.isInterface i = true) : i ≠ rootType := by
  intro hroot
  rw [hroot, hk.isInterface_rootType] at hi
  cases hi

/-- From what is no class, interfaces are reached through implements lists only. -/
theorem interfaces_of_reaches (hk : h.KindsApart) (hi : h.isInterface i = true)
    (ht : h.isClass t = false) (hti : ReflTransGen (Leads h.supertypes) t i) :
    ReflTransGen (Leads h.interfaces) t i := by
  induction hti using ReflTransGen.head_induction_on with
  | refl => exact .refl
  | @head t s hts hsi ih =>
    rcases leads_supertypes_iff.1 hts with hextends | hmem
    · -- the superclass of an interface is the root, above which there is nothing
      have hinterface : h.isInterface t = true :=
        (isClass_or_isInterface hextends.class?_isSome).resolve_left (by simp [ht])
      rw [hk.interface t s hinterface hextends] at hsi
      exact absurd (eq_rootType_of_reaches hk.root hsi) (hk.ne_rootType hi)
    · exact .head hmem (ih (hk.implemented t s hmem))

/-- The way up to an interface goes along superclasses first, and along implements lists then. -/
theorem exists_extends_of_reaches (hk : h.KindsApart) (hi : h.isInterface i = true)
    (hti : ReflTransGen (Leads h.supertypes) t i) :
    i = t ∨ ∃ u, ReflTransGen h.Extends t u ∧ TransGen (Leads h.interfaces) u i := by
  induction hti using ReflTransGen.head_induction_on with
  | refl => exact .inl rfl
  | @head t s hts hsi ih =>
    right
    rcases leads_supertypes_iff.1 hts with hextends | hmem
    · rcases ih with rfl | ⟨u, hsu, hui⟩
      · rw [hk.isInterface_of_extends hextends] at hi
        cases hi
      · exact ⟨u, .head hextends hsu, hui⟩
    · exact ⟨t, .refl, .head' hmem (hk.interfaces_of_reaches hi (hk.implemented t s hmem) hsi)⟩

theorem mem_superinterfaces_iff_isSubtype (hk : h.KindsApart) (hi : h.isInterface i = true)
    (hne : i ≠ t) : i ∈ h.superinterfaces t ↔ h.isSubtype t i = true := by
  constructor
  · intro hmem
    exact isSubtype_of_reaches (mem_superinterfaces hmem).1
  · intro hsub
    have hti := (isSubtype_iff.1 hsub).resolve_left (hk.ne_rootType hi)
    obtain ⟨u, htu, hui⟩ := (hk.exists_extends_of_reaches hi hti).resolve_left hne
    obtain ⟨j, hj, -⟩ := TransGen.head'_iff.1 hui
    obtain ⟨c, hc, -⟩ := mem_interfaces_iff.1 hj
    rw [← name_of_class? hc] at hui
    exact mem_superinterfaces_iff.2 ⟨hne, c, mem_superclasses_iff.2 ⟨u, htu, hc⟩, hui⟩

end KindsApart

/-- The walks up a hierarchy are complete, whatever its definitions are. The superclass chain of a
type has at most one class more than there are definitions. It lists the classes that superclass
entries lead to, each once unless these entries run into a cycle. The superinterfaces are the types
other than the type itself that the implements lists of these classes lead to. Where classes and
interfaces are kept apart, an interface other than the type is among them exactly if it is above the
type. -/
theorem superclasses_superinterfaces_complete (h : Hierarchy) (t : TypeName) :
    (h.superclasses t).length ≤ h.size + 1 ∧
    (∀ c, c ∈ h.superclasses t ↔ ∃ u, ReflTransGen h.Extends t u ∧ h.class? u = some c) ∧
    ((∀ u, ReflTransGen h.Extends t u → ¬ TransGen h.Extends u u) → (h.superclasses t).Nodup) ∧
    (∀ i, i ∈ h.superinterfaces t ↔ i ≠ t ∧
      ∃ c ∈ h.superclasses t, TransGen (Leads h.interfaces) c.name i) ∧
    (h.superinterfaces t).Nodup ∧
    (h.KindsApart → ∀ i, h.isInterface i = true → i ≠ t →
      (i ∈ h.superinterfaces t ↔ h.isSubtype t i = true)) := by
  refine ⟨length_superclasses_le h t, fun c => mem_superclasses_iff, nodup_superclasses,
    fun i => mem_superinterfaces_iff, nodup_superinterfaces t, ?_⟩
  intro hk i hi hne
  exact hk.mem_superinterfaces_iff_isSubtype hi hne

/-- Two classes that extend each other, one of them defined twice, three interfaces in a circle, and
a class whose superclass has no definition. -/
def knotted : Hierarchy :=
  { defined :=
      [{ name := "B", superclass := some "I", interfaces := ["C"] },
        { name := "A", superclass := some "B", interfaces := ["J"] },
        { name := "B", superclass := some "A" },
        { name := "I", isInterface := true, interfaces := ["J"] },
        { name := "J", isInterface := true, interfaces := ["K", "Missing"] },
        { name := "K", isInterface := true, interfaces := ["I"] },
        { name := "C", superclass := some "D", interfaces := ["K"] },
        { name := "D", superclass := some "Missing" }] }

/-- The chain of `A` is cut off and still complete, and that of `C` ends by itself. -/
theorem superclasses_superinterfaces_knotted :
    knotted.KindsApart ∧
      (knotted.superclasses "A").length = knotted.size + 1 ∧
      ¬ ReflTransGen knotted.Extends "A" "C" ∧
      (∀ u, ReflTransGen knotted.Extends "C" u → ¬ TransGen knotted.Extends u u) ∧
      (knotted.superclasses "C").Nodup ∧
      (∃ c ∈ knotted.superclasses "C", TransGen (Leads knotted.interfaces) c.name "Missing") ∧
      knotted.isInterface "I" = true ∧
      ("I" ∈ knotted.superinterfaces "C" ↔ knotted.isSubtype "C" "I" = true) := by
  have hk : knotted.KindsApart := by decide +kernel
  have hcut : (knotted.superclasses "A").length = knotted.size + 1 := by decide +kernel
  have hends : (knotted.superclasses "C").length ≤ knotted.size := by decide +kernel
  have hlinks : ∀ u, ReflTransGen knotted.Extends "C" u → ¬ TransGen knotted.Extends u u :=
    fun u => not_transGen_of_length_superclasses_le hends
  have hmissing : "Missing" ∈ knotted.superinterfaces "C" := by decide +kernel
  have hi : knotted.isInterface "I" = true := by decide +kernel
  obtain ⟨-, hchain, -⟩ := superclasses_superinterfaces_complete knotted "A"
  obtain ⟨-, -, hnodup, habove, -, hsubtype⟩ := superclasses_superinterfaces_complete knotted "C"
  refine ⟨hk, hcut, fun hreach => ?_, hlinks, hnodup hlinks, ((habove "Missing").1 hmissing).2, hi,
    hsubtype hk "I" hi (by decide)⟩
  obtain ⟨c, hc⟩ : ∃ c, knotted.class? "C" = some c := Option.isSome_iff_exists.1 (by decide +kernel)
  have hnot : ∀ c ∈ knotted.superclasses "A", c.name ≠ "C" := by decide +kernel
  exact hnot c ((hchain c).2 ⟨"C", hreach, hc⟩) (name_of_class? hc)

end Hierarchy

end Devirt
