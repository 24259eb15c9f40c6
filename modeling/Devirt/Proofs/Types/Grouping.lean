import Devirt.Narrowing
import Devirt.Proofs.Hierarchy.Walks
import Devirt.Proofs.Outcome
import Devirt.Proofs.Types.Join

/-!
Joins of three and more types. Two types may have a common supertype that is no superclass of theirs,
an interface for instance. Their join is the nearest common superclass, which need not be below that
supertype, while each of the two alone joins with it to the supertype. So the result may depend on
which types are joined first. This is the only reason: where no two of the types meet too high in
this sense, neither grouping nor order plays a part.
-/

namespace Devirt

open Relation

namespace Hierarchy

variable {h : Hierarchy} {a b c d n t u x y z : TypeName}

/-! ### The superclass chain -/

theorem extends_rightUnique : Relator.RightUnique h.Extends := by
  intro t u v hu hv
  exact Option.some.inj (hu.symm.trans hv)

/-- The classes above a type are those that superclass entries lead to. -/
theorem mem_classAncestors_iff :
    u ∈ h.classAncestors t ↔ h.isClass u = true ∧ ReflTransGen h.Extends t u := by
  unfold classAncestors isClass
  rw [List.mem_map]
  constructor
  · rintro ⟨c, hc, rfl⟩
    obtain ⟨hc, hinterface⟩ := List.mem_filter.1 hc
    rw [class?_of_mem_superclasses hc]
    exact ⟨hinterface, (mem_superclassesWithin hc).2⟩
  · rintro ⟨hu, htu⟩
    obtain ⟨c, hc, hinterface⟩ := (Option.any_eq_true _ _).1 hu
    have hmem : c ∈ h.superclasses t := mem_superclasses_iff.2 ⟨u, htu, hc⟩
    exact ⟨c, List.mem_filter.2 ⟨hmem, hinterface⟩, name_of_class? hc⟩

/-- For a type that is not below a class `n`, the classes below `n` on a superclass chain through `n`
are never common ones, so the chain may as well begin at `n`. -/
theorem Acyclic.commonClass_of_mem (ha : h.Acyclic) (hn : n ∈ h.classAncestors c)
    (hx : ¬ h.isSubtype x n = true) : h.commonClass x c = h.commonClass x n := by
  obtain ⟨-, hcn⟩ := mem_classAncestors_iff.1 hn
  have hcommon : ∀ u ∈ h.classAncestors x, u ∈ h.classAncestors c ↔ u ∈ h.classAncestors n := by
    intro u hxu
    rw [mem_classAncestors_iff, mem_classAncestors_iff]
    constructor
    · rintro ⟨hclass, hcu⟩
      refine ⟨hclass, ?_⟩
      rcases hcn.total_of_right_unique extends_rightUnique hcu with hnu | hun
      · exact hnu
      · have hxn := (reaches_of_mem_classAncestors hxu).trans (reaches_of_extends hun)
        exact absurd (isSubtype_of_reaches hxn) hx
    · rintro ⟨hclass, hnu⟩
      exact ⟨hclass, hcn.trans hnu⟩
  by_cases hmeet : ∃ u ∈ h.classAncestors x, u ∈ h.classAncestors c
  · obtain ⟨u, hxu, hcu⟩ := hmeet
    obtain ⟨hpx, hpc, -⟩ := reaches_of_commonClass hxu hcu
    obtain ⟨hqx, hqn, -⟩ := reaches_of_commonClass hxu ((hcommon u hxu).1 hcu)
    apply ha.eq_of_reaches
    · exact (reaches_of_commonClass hqx ((hcommon _ hqx).2 hqn)).2.2
    · exact (reaches_of_commonClass hpx ((hcommon _ hpx).1 hpc)).2.2
  · rw [commonClass_eq_rootType fun u hcu hxu => hmeet ⟨u, hxu, hcu⟩,
      commonClass_eq_rootType fun u hnu hxu => hmeet ⟨u, hxu, (hcommon u hxu).2 hnu⟩]

/-! ### Names of joins -/

/-- The type named by the join of references to two types. -/
def joinName (h : Hierarchy) (a b : TypeName) : TypeName :=
  if a = b then a
  else if h.isSubtype a b then b
  else if h.isSubtype b a then a
  else h.commonClass a b

theorem name_join (h : Hierarchy) (a b : ReferenceType) :
    (a.join h b).name = h.joinName a.name b.name := rfl

theorem isSubtype_joinName (h : Hierarchy) (a b : TypeName) :
    h.isSubtype a (h.joinName a b) = true ∧ h.isSubtype b (h.joinName a b) = true :=
  ReferenceType.isSubtype_name_join h { name := a } { name := b }

@[simp] theorem joinName_self (h : Hierarchy) (a : TypeName) : h.joinName a a = a := if_pos rfl

theorem joinName_of_isSubtype (hab : h.isSubtype a b = true) : h.joinName a b = b := by
  unfold joinName
  by_cases heq : a = b
  · rw [if_pos heq, heq]
  · rw [if_neg heq, if_pos hab]

theorem joinName_of_unrelated (hab : ¬ h.isSubtype a b = true) (hba : ¬ h.isSubtype b a = true) :
    h.joinName a b = h.commonClass a b := by
  have heq : a ≠ b := by
    rintro rfl
    exact hab (h.isSubtype_refl a)
  unfold joinName
  rw [if_neg heq, if_neg hab, if_neg hba]

/-- The types `a` and `b` meet too high for the join of `c` and `d`: it stands above both of them,
but not above their join. -/
def Overshoots (h : Hierarchy) (a b c d : TypeName) : Prop :=
  h.isSubtype a (h.joinName c d) = true ∧ h.isSubtype b (h.joinName c d) = true ∧
    ¬ h.isSubtype (h.joinName a b) (h.joinName c d) = true

instance (h : Hierarchy) (a b c d : TypeName) : Decidable (h.Overshoots a b c d) :=
  inferInstanceAs (Decidable (_ ∧ _ ∧ ¬ _))

section Laws

variable (ha : h.Acyclic) (hroot : h.class? rootType = some Class.root)
include ha hroot

theorem joinName_comm (a b : TypeName) : h.joinName a b = h.joinName b a :=
  ReferenceType.name_join_comm ha hroot { name := a } { name := b }

theorem joinName_of_isSubtype_left (hba : h.isSubtype b a = true) : h.joinName a b = a := by
  rw [joinName_comm ha hroot, joinName_of_isSubtype hba]

/-- Two types that do not meet too high for a third one add nothing to the joins of two: joined with
the third one, they give the join of some two of the three. -/
theorem joinName_joinName_cases (x b c : TypeName) :
    h.Overshoots b c x x ∨ h.joinName x (h.joinName b c) = h.joinName x b ∨
      h.joinName x (h.joinName b c) = h.joinName x c ∨
      h.joinName x (h.joinName b c) = h.joinName b c := by
  by_cases hbc : h.isSubtype b c = true
  · rw [joinName_of_isSubtype hbc]
    exact .inr (.inr (.inl rfl))
  by_cases hcb : h.isSubtype c b = true
  · rw [joinName_of_isSubtype_left ha hroot hcb]
    exact .inr (.inl rfl)
  have hq : h.joinName b c = h.commonClass b c := joinName_of_unrelated hbc hcb
  obtain ⟨hbq, hcq⟩ := h.isSubtype_joinName b c
  by_cases hxq : h.isSubtype x (h.joinName b c) = true
  · exact .inr (.inr (.inr (joinName_of_isSubtype hxq)))
  by_cases hqx : h.isSubtype (h.joinName b c) x = true
  · rw [joinName_of_isSubtype_left ha hroot hqx,
      joinName_of_isSubtype_left ha hroot (isSubtype_trans hroot hbq hqx)]
    exact .inr (.inl rfl)
  -- the common class is no shortcut to the root, so it is on both superclass chains
  have hmeet : h.joinName b c ∈ h.classAncestors b ∧ h.joinName b c ∈ h.classAncestors c := by
    by_cases hmeet : ∃ u ∈ h.classAncestors b, u ∈ h.classAncestors c
    · obtain ⟨u, hub, huc⟩ := hmeet
      obtain ⟨hb, hc, -⟩ := reaches_of_commonClass hub huc
      rw [hq]
      exact ⟨hb, hc⟩
    · rw [hq, commonClass_eq_rootType fun u huc hub => hmeet ⟨u, hub, huc⟩] at hxq
      exact absurd (h.isSubtype_rootType x) hxq
  have hout : h.joinName x (h.joinName b c) = h.commonClass x (h.joinName b c) :=
    joinName_of_unrelated hxq hqx
  by_cases hbx : h.isSubtype b x = true
  · by_cases hcx : h.isSubtype c x = true
    · left
      rw [Overshoots, joinName_self]
      exact ⟨hbx, hcx, hqx⟩
    · have hxc : ¬ h.isSubtype x c = true := fun hxc => hxq (isSubtype_trans hroot hxc hcq)
      rw [hout, ← ha.commonClass_of_mem hmeet.2 hxq, joinName_of_unrelated hxc hcx]
      exact .inr (.inr (.inl rfl))
  · have hxb : ¬ h.isSubtype x b = true := fun hxb => hxq (isSubtype_trans hroot hxb hbq)
    rw [hout, ← ha.commonClass_of_mem hmeet.1 hxq, joinName_of_unrelated hxb hbx]
    exact .inr (.inl rfl)

theorem not_overshoots_of_grouping
    (heq : h.joinName (h.joinName b a) c = h.joinName b (h.joinName a c)) :
    ¬ h.Overshoots a b a c := by
  rintro ⟨-, hb, hnot⟩
  rw [joinName_of_isSubtype hb, joinName_comm ha hroot b a] at heq
  apply hnot
  rw [← heq]
  exact (h.isSubtype_joinName (h.joinName a b) c).1

theorem not_overshoots_of_order
    (heq : h.joinName (h.joinName (h.joinName c d) a) b =
      h.joinName (h.joinName (h.joinName a b) c) d) :
    ¬ h.Overshoots a b c d := by
  rintro ⟨hac, hbc, hnot⟩
  rw [joinName_of_isSubtype_left ha hroot hac, joinName_of_isSubtype_left ha hroot hbc] at heq
  apply hnot
  rw [heq]
  exact isSubtype_trans hroot (h.isSubtype_joinName _ c).1 (h.isSubtype_joinName _ d).1

end Laws

/-- No two of the types meet too high for the join of two of them. -/
def Settled (h : Hierarchy) (names : List TypeName) : Prop :=
  ∀ a ∈ names, ∀ b ∈ names, ∀ c ∈ names, ∀ d ∈ names, ¬ h.Overshoots a b c d

instance (h : Hierarchy) (names : List TypeName) : Decidable (h.Settled names) :=
  inferInstanceAs (Decidable (∀ a ∈ names, ∀ b ∈ names, ∀ c ∈ names, ∀ d ∈ names, ¬ _))

/-- The join of some two of the types. -/
def JoinOfTwo (h : Hierarchy) (names : List TypeName) (t : TypeName) : Prop :=
  ∃ a ∈ names, ∃ b ∈ names, t = h.joinName a b

namespace Settled

variable {names : List TypeName} (ha : h.Acyclic) (hroot : h.class? rootType = some Class.root)
  (hs : h.Settled names)
include ha hroot hs

/-- One more of the types makes no difference to that. -/
theorem joinOfTwo_joinName (hx : x ∈ names) (ht : h.JoinOfTwo names t) :
    h.JoinOfTwo names (h.joinName x t) := by
  obtain ⟨b, hb, c, hc, rfl⟩ := ht
  rcases joinName_joinName_cases ha hroot x b c with hover | heq | heq | heq
  · exact absurd hover (hs b hb c hc x hx x hx)
  · exact ⟨x, hx, b, hb, heq⟩
  · exact ⟨x, hx, c, hc, heq⟩
  · exact ⟨b, hb, c, hc, heq⟩

/-- Only one join of two of the types can stand above all of them. -/
theorem eq_of_above (ht : h.JoinOfTwo names t) (hu : h.JoinOfTwo names u)
    (habove : ∀ a ∈ names, h.isSubtype a t = true ∧ h.isSubtype a u = true) : t = u := by
  obtain ⟨a, hmem, b, hmemb, rfl⟩ := ht
  obtain ⟨c, hmemc, d, hmemd, rfl⟩ := hu
  apply ha.isSubtype_antisymm hroot
  · by_contra hnot
    exact hs a hmem b hmemb c hmemc d hmemd ⟨(habove a hmem).2, (habove b hmemb).2, hnot⟩
  · by_contra hnot
    exact hs c hmemc d hmemd a hmem b hmemb ⟨(habove c hmemc).1, (habove d hmemd).1, hnot⟩

omit ha hroot in
theorem mono {names' : List TypeName} (hsub : names' ⊆ names) : h.Settled names' :=
  fun a ha b hb c hc d hd => hs a (hsub ha) b (hsub hb) c (hsub hc) d (hsub hd)

end Settled

/-- Grouping makes no difference around a join of two types, if the four types are settled. -/
theorem Settled.joinName_assoc (ha : h.Acyclic) (hroot : h.class? rootType = some Class.root)
    (hs : h.Settled [a, b, x, y]) :
    h.joinName (h.joinName x (h.joinName a b)) y =
      h.joinName x (h.joinName (h.joinName a b) y) := by
  have htwo : h.JoinOfTwo [a, b, x, y] (h.joinName a b) := ⟨a, by simp, b, by simp, rfl⟩
  have hx := hs.joinOfTwo_joinName ha hroot (x := x) (by simp) htwo
  have hy := hs.joinOfTwo_joinName ha hroot (x := y) (by simp) htwo
  have hleft := hs.joinOfTwo_joinName ha hroot (x := y) (by simp) hx
  have hright := hs.joinOfTwo_joinName ha hroot (x := x) (by simp) hy
  rw [joinName_comm ha hroot y] at hleft
  rw [joinName_comm ha hroot y] at hright
  apply hs.eq_of_above ha hroot hleft hright
  obtain ⟨hab, hab'⟩ := h.isSubtype_joinName a b
  obtain ⟨hx₁, hx₂⟩ := h.isSubtype_joinName x (h.joinName a b)
  obtain ⟨hx₃, hx₄⟩ := h.isSubtype_joinName (h.joinName x (h.joinName a b)) y
  obtain ⟨hy₁, hy₂⟩ := h.isSubtype_joinName (h.joinName a b) y
  obtain ⟨hy₃, hy₄⟩ := h.isSubtype_joinName x (h.joinName (h.joinName a b) y)
  have hup := isSubtype_trans hroot hx₂ hx₃
  have hup' := isSubtype_trans hroot hy₁ hy₄
  simp only [List.forall_mem_cons, List.not_mem_nil, false_implies, implies_true, and_true]
  exact ⟨⟨isSubtype_trans hroot hab hup, isSubtype_trans hroot hab hup'⟩,
    ⟨isSubtype_trans hroot hab' hup, isSubtype_trans hroot hab' hup'⟩,
    ⟨isSubtype_trans hroot hx₁ hx₃, hy₃⟩, hx₄, isSubtype_trans hroot hy₂ hy₄⟩

/-- Three types are settled if no two of them meet too high for the join of one of the two and the
third. -/
theorem settled_of_three (ha : h.Acyclic) (hroot : h.class? rootType = some Class.root)
    (hthree : ∀ x ∈ [a, b, c], ∀ y ∈ [a, b, c], ∀ z ∈ [a, b, c], ¬ h.Overshoots x y x z) :
    h.Settled [a, b, c] := by
  intro x hx y hy z hz w hw hover
  obtain ⟨hxb, hyb, hnot⟩ := hover
  -- unless one of the two below is one of the two above, the join above is a single type
  by_cases hxz : x = z
  · subst hxz
    exact hthree x hx y hy w hw ⟨hxb, hyb, hnot⟩
  by_cases hxw : x = w
  · subst hxw
    rw [joinName_comm ha hroot z] at hxb hyb hnot
    exact hthree x hx y hy z hz ⟨hxb, hyb, hnot⟩
  by_cases hyz : y = z
  · subst hyz
    rw [joinName_comm ha hroot x] at hnot
    exact hthree y hy x hx w hw ⟨hyb, hxb, hnot⟩
  by_cases hyw : y = w
  · subst hyw
    rw [joinName_comm ha hroot z] at hxb hyb hnot
    rw [joinName_comm ha hroot x] at hnot
    exact hthree y hy x hx z hz ⟨hyb, hxb, hnot⟩
  by_cases hxy : x = y
  · subst hxy
    rw [joinName_self] at hnot
    exact hnot hxb
  have hzw : z = w := by
    simp only [List.mem_cons, List.not_mem_nil, or_false] at hx hy hz hw
    grind
  subst hzw
  rw [joinName_self] at hxb hyb hnot
  have hjoin := joinName_of_isSubtype hxb
  exact hthree x hx y hy z hz ⟨by rwa [hjoin], by rwa [hjoin], by rwa [hjoin]⟩

end Hierarchy

/-! ### References and static types -/

theorem Nullability.join_assoc (a b c : Nullability) : (a.join b).join c = a.join (b.join c) := by
  cases a <;> cases b <;> cases c <;> rfl

namespace ReferenceType

variable {h : Hierarchy}

theorem exact_join_iff (h : Hierarchy) (a b : ReferenceType) :
    (a.join h b).exact = true ↔ a.name = b.name ∧ a.exact = true ∧ b.exact = true := by
  simp only [join, Bool.and_eq_true, decide_eq_true_eq, and_assoc]

theorem exact_join_join_iff (h : Hierarchy) (a b c : ReferenceType) :
    ((a.join h b).join h c).exact = true ↔
      (a.name = b.name ∧ a.name = c.name) ∧ a.exact = true ∧ b.exact = true ∧ c.exact = true := by
  rw [exact_join_iff, exact_join_iff, h.name_join]
  constructor
  · rintro ⟨hname, ⟨hab, hxa, hxb⟩, hxc⟩
    rw [← hab, h.joinName_self] at hname
    exact ⟨⟨hab, hname⟩, hxa, hxb, hxc⟩
  · rintro ⟨⟨hab, hac⟩, hxa, hxb, hxc⟩
    rw [← hab, h.joinName_self]
    exact ⟨hac, ⟨rfl, hxa, hxb⟩, hxc⟩

/-- Nullability and exactness never depend on the grouping. -/
theorem join_assoc_iff (ha : h.Acyclic) (hroot : h.class? rootType = some Class.root)
    (a b c : ReferenceType) :
    (a.join h b).join h c = a.join h (b.join h c) ↔
      h.joinName (h.joinName a.name b.name) c.name =
        h.joinName a.name (h.joinName b.name c.name) := by
  constructor
  · exact congrArg ReferenceType.name
  · intro hname
    have hnull : ((a.join h b).join h c).nullability = (a.join h (b.join h c)).nullability :=
      Nullability.join_assoc a.nullability b.nullability c.nullability
    have hexact : ((a.join h b).join h c).exact = (a.join h (b.join h c)).exact := by
      rw [join_comm ha hroot a (b.join h c), Bool.eq_iff_iff, exact_join_join_iff, exact_join_join_iff]
      constructor
      · rintro ⟨⟨hab, hac⟩, hxa, hxb, hxc⟩
        exact ⟨⟨hab ▸ hac, hab.symm⟩, hxb, hxc, hxa⟩
      · rintro ⟨⟨hbc, hba⟩, hxb, hxc, hxa⟩
        exact ⟨⟨hba.symm, hba.symm.trans hbc⟩, hxa, hxb, hxc⟩
    cases hl : (a.join h b).join h c
    cases hr : a.join h (b.join h c)
    rw [hl, hr] at hnull hexact
    have hname' : ((a.join h b).join h c).name = (a.join h (b.join h c)).name := hname
    rw [hl, hr] at hname'
    rw [mk.injEq]
    exact ⟨hname', hnull, hexact⟩

/-- The reference that may be null as well. -/
def orNull (r : ReferenceType) : ReferenceType :=
  { r with nullability := r.nullability.join .null }

@[simp] theorem orNull_orNull (r : ReferenceType) : r.orNull.orNull = r.orNull := by
  cases hr : r.nullability <;> simp [orNull, Nullability.join, hr]

@[simp] theorem join_orNull (h : Hierarchy) (a b : ReferenceType) :
    a.join h b.orNull = (a.join h b).orNull := by
  simp only [join, orNull, Nullability.join_assoc]
  rfl

@[simp] theorem orNull_join (h : Hierarchy) (a b : ReferenceType) :
    a.orNull.join h b = (a.join h b).orNull := by
  simp only [join, orNull, Nullability.join_assoc, Nullability.join_comm .null]
  rfl

end ReferenceType

namespace StaticType

variable {h : Hierarchy} {t u w : StaticType}

@[simp] theorem join_bottom (h : Hierarchy) (t : StaticType) : t.join h .bottom = t := by
  cases t <;> rfl

@[simp] theorem top_join (h : Hierarchy) (t : StaticType) : join h .top t = .top := by
  cases t <;> rfl

@[simp] theorem join_top (h : Hierarchy) (t : StaticType) : t.join h .top = .top := by
  cases t <;> rfl

@[simp] theorem null_join_null (h : Hierarchy) : join h .null .null = .null := rfl

@[simp] theorem null_join_reference (h : Hierarchy) (r : ReferenceType) :
    join h .null (.reference r) = .reference r.orNull := rfl

@[simp] theorem reference_join_null (h : Hierarchy) (r : ReferenceType) :
    join h (.reference r) .null = .reference r.orNull := rfl

@[simp] theorem reference_join_reference (h : Hierarchy) (a b : ReferenceType) :
    join h (.reference a) (.reference b) = .reference (a.join h b) := rfl

@[simp] theorem primitive_join_null (h : Hierarchy) (p : Primitive) :
    join h (.primitive p) .null = .top := rfl

@[simp] theorem null_join_primitive (h : Hierarchy) (p : Primitive) :
    join h .null (.primitive p) = .top := rfl

@[simp] theorem primitive_join_reference (h : Hierarchy) (p : Primitive) (r : ReferenceType) :
    join h (.primitive p) (.reference r) = .top := rfl

@[simp] theorem reference_join_primitive (h : Hierarchy) (p : Primitive) (r : ReferenceType) :
    join h (.reference r) (.primitive p) = .top := rfl

theorem primitive_join_primitive_of_ne {p q : Primitive} (hpq : p ≠ q) :
    join h (.primitive p) (.primitive q) = .top := if_neg hpq

/-- Types other than references can be grouped as one likes. -/
theorem join_assoc_iff (ha : h.Acyclic) (hroot : h.class? rootType = some Class.root)
    (t u w : StaticType) :
    (t.join h u).join h w = t.join h (u.join h w) ↔
      ∀ a b c, t = .reference a → u = .reference b → w = .reference c →
        h.joinName (h.joinName a.name b.name) c.name =
          h.joinName a.name (h.joinName b.name c.name) := by
  constructor
  · rintro hassoc a b c rfl rfl rfl
    exact (ReferenceType.join_assoc_iff ha hroot a b c).1 (reference.inj hassoc)
  intro hnames
  cases u with
  | bottom => simp
  | top => simp
  | primitive q =>
    -- next to a primitive everything but the primitive itself leads to the top
    have hleft : t = .bottom ∨ t = .primitive q ∨ t.join h (.primitive q) = .top := by
      cases t with
      | primitive p => by_cases hpq : p = q <;> simp [hpq, primitive_join_primitive_of_ne]
      | _ => simp
    have hright : w = .bottom ∨ w = .primitive q ∨ join h (.primitive q) w = .top := by
      cases w with
      | primitive p => by_cases hqp : q = p <;> simp [hqp, primitive_join_primitive_of_ne]
      | _ => simp
    rcases hleft with rfl | rfl | hleft <;> rcases hright with rfl | rfl | hright <;> simp [*]
  | null =>
    cases t <;> cases w <;> simp
  | reference b =>
    cases t with
    | reference a =>
      cases w with
      | reference c =>
        have hjoin := (ReferenceType.join_assoc_iff ha hroot a b c).2 (hnames a b c rfl rfl rfl)
        simp [hjoin]
      | _ => simp
    | _ => cases w <;> simp

/-- The names of the references among the types. -/
def referenceNames (types : List StaticType) : List TypeName :=
  types.filterMap fun t => t.reference?.map (·.name)

theorem mem_referenceNames {types : List StaticType} {n : TypeName} :
    n ∈ referenceNames types ↔ ∃ r, reference r ∈ types ∧ r.name = n := by
  simp only [referenceNames, List.mem_filterMap, Option.map_eq_some_iff]
  constructor
  · rintro ⟨t, ht, r, hr, hname⟩
    cases t with
    | reference a =>
      cases hr
      exact ⟨r, ht, hname⟩
    | _ => cases hr
  · rintro ⟨r, hr, hname⟩
    exact ⟨reference r, hr, r, rfl, hname⟩

section Folding

variable {types : List StaticType} (ha : h.Acyclic)
  (hroot : h.class? rootType = some Class.root)

/-- What the types gathered so far may be: if it is a reference, its name is a join of two. -/
def Gathered (h : Hierarchy) (types : List StaticType) (t : StaticType) : Prop :=
  ∀ r, t = .reference r → h.JoinOfTwo (referenceNames types) r.name

theorem gathered_of_mem (ht : t ∈ types) : Gathered h types t := by
  rintro r rfl
  have hmem := mem_referenceNames.2 ⟨r, ht, rfl⟩
  exact ⟨r.name, hmem, r.name, hmem, (h.joinName_self _).symm⟩

include ha hroot

theorem Gathered.join (hs : h.Settled (referenceNames types)) (hu : u ∈ types)
    (ht : Gathered h types t) : Gathered h types (t.join h u) := by
  have hu' : Gathered h types u := gathered_of_mem hu
  cases t with
  | bottom => simpa using hu'
  | top => simpa using ht
  | primitive p =>
    cases u with
    | bottom => exact ht
    | primitive q =>
      by_cases hpq : p = q
      · simpa [hpq] using hu'
      · rw [primitive_join_primitive_of_ne hpq]
        exact fun r hr => nomatch hr
    | _ => exact fun r hr => nomatch hr
  | null =>
    cases u with
    | reference b =>
      rintro _ ⟨⟩
      exact hu' b rfl
    | _ => exact fun r hr => nomatch hr
  | reference a =>
    cases u with
    | reference b =>
      rintro _ ⟨⟩
      rw [h.name_join, Hierarchy.joinName_comm ha hroot]
      exact hs.joinOfTwo_joinName ha hroot (mem_referenceNames.2 ⟨b, hu, rfl⟩) (ht a rfl)
    | bottom => exact ht
    | null =>
      rintro _ ⟨⟩
      exact ht a rfl
    | _ => exact fun r hr => nomatch hr

theorem Gathered.join_right_comm (hs : h.Settled (referenceNames types)) (ht : Gathered h types t)
    (hu : u ∈ types) (hw : w ∈ types) : (t.join h u).join h w = (t.join h w).join h u := by
  have hassoc : (u.join h t).join h w = u.join h (t.join h w) := by
    rw [join_assoc_iff ha hroot]
    rintro a b c rfl rfl rfl
    obtain ⟨p, hp, q, hq, hname⟩ := ht b rfl
    rw [hname]
    apply Hierarchy.Settled.joinName_assoc ha hroot
    apply hs.mono
    simp [hp, hq, mem_referenceNames.2 ⟨a, hu, rfl⟩, mem_referenceNames.2 ⟨c, hw, rfl⟩]
  rw [join_comm ha hroot t u, hassoc, join_comm ha hroot u]

/-- The order in which settled types are joined makes no difference. -/
theorem foldl_join_perm (hs : h.Settled (referenceNames types)) {l l' : List StaticType}
    (hperm : l.Perm l') (hl : l ⊆ types) (ht : Gathered h types t) :
    l.foldl (StaticType.join h) t = l'.foldl (StaticType.join h) t := by
  induction hperm generalizing t with
  | nil => rfl
  | cons u _ ih =>
    rw [List.cons_subset] at hl
    exact ih hl.2 (ht.join ha hroot hs hl.1)
  | swap u w l =>
    rw [List.cons_subset, List.cons_subset] at hl
    simp only [List.foldl_cons]
    rw [ht.join_right_comm ha hroot hs hl.1 hl.2.1]
  | trans hperm _ ih ih' =>
    rw [ih hl ht]
    exact ih' (fun v hv => hl (hperm.mem_iff.2 hv)) ht

end Folding

/-- Three of the types can be grouped either way exactly if no two references of them meet too high
for the join of one of the two with a third one. -/
theorem join_assoc_all_iff (ha : h.Acyclic) (hroot : h.class? rootType = some Class.root)
    (types : List StaticType) :
    (∀ t ∈ types, ∀ u ∈ types, ∀ w ∈ types, (t.join h u).join h w = t.join h (u.join h w)) ↔
      ∀ a ∈ referenceNames types, ∀ b ∈ referenceNames types, ∀ c ∈ referenceNames types,
        ¬ h.Overshoots a b a c := by
  constructor
  · intro hassoc a hmem b hmemb c hmemc
    obtain ⟨ra, hra, rfl⟩ := mem_referenceNames.1 hmem
    obtain ⟨rb, hrb, rfl⟩ := mem_referenceNames.1 hmemb
    obtain ⟨rc, hrc, rfl⟩ := mem_referenceNames.1 hmemc
    apply Hierarchy.not_overshoots_of_grouping ha hroot
    exact (join_assoc_iff ha hroot _ _ _).1 (hassoc _ hrb _ hra _ hrc) rb ra rc rfl rfl rfl
  · intro hthree t ht u hu w hw
    rw [join_assoc_iff ha hroot]
    rintro a b c rfl rfl rfl
    have hmem : ∀ n ∈ [b.name, a.name, c.name], n ∈ referenceNames types := by
      simp [mem_referenceNames.2 ⟨a, ht, rfl⟩, mem_referenceNames.2 ⟨b, hu, rfl⟩,
        mem_referenceNames.2 ⟨c, hw, rfl⟩]
    have hs : h.Settled [b.name, a.name, c.name] :=
      Hierarchy.settled_of_three ha hroot fun x hx y hy z hz =>
        hthree x (hmem x hx) y (hmem y hy) z (hmem z hz)
    have htwice : h.Settled [b.name, b.name, a.name, c.name] := hs.mono (by simp)
    have hassoc := htwice.joinName_assoc ha hroot
    rwa [h.joinName_self] at hassoc

/-- Any number of the types can be joined in any order exactly if they are settled. -/
theorem foldl_join_perm_iff (ha : h.Acyclic) (hroot : h.class? rootType = some Class.root)
    (types : List StaticType) :
    (∀ l l' : List StaticType, l ⊆ types → l.Perm l' →
        l.foldl (StaticType.join h) .bottom = l'.foldl (StaticType.join h) .bottom) ↔
      h.Settled (referenceNames types) := by
  constructor
  · intro hperm a hmem b hmemb c hmemc d hmemd
    obtain ⟨ra, hra, rfl⟩ := mem_referenceNames.1 hmem
    obtain ⟨rb, hrb, rfl⟩ := mem_referenceNames.1 hmemb
    obtain ⟨rc, hrc, rfl⟩ := mem_referenceNames.1 hmemc
    obtain ⟨rd, hrd, rfl⟩ := mem_referenceNames.1 hmemd
    apply Hierarchy.not_overshoots_of_order ha hroot
    have heq := hperm ([.reference rc, .reference rd] ++ [.reference ra, .reference rb])
      ([.reference ra, .reference rb] ++ [.reference rc, .reference rd])
      (by simp [hra, hrb, hrc, hrd]) List.perm_append_comm
    exact congrArg ReferenceType.name (reference.inj heq)
  · intro hs l l' hl hperm
    exact foldl_join_perm ha hroot hs hperm hl fun r hr => nomatch hr

end StaticType

/-! ### Phis -/

/-- The value is the output of a phi whose operands have the given types. -/
def Body.Merges (c : Body) (v : ValueId) (types : List StaticType) : Prop :=
  ∃ y b x p, c.value v = .ok y ∧ y.definition = .phi b ∧ c.block b = .ok x ∧ x.phi? v = some p ∧
    List.Forall₂ (fun o t => ∃ z, c.value o = .ok z ∧ z.type = t) p.operands types

theorem Body.Merges.derivedType? {c : Body} {v : ValueId} {types : List StaticType} (h : Hierarchy)
    (hv : c.Merges v types) :
    c.derivedType? h v = .ok (some (types.foldl (StaticType.join h) .bottom)) := by
  obtain ⟨y, b, x, p, hy, hdefinition, hx, hp, hoperands⟩ := hv
  have htypes : p.operands.mapM (fun o => do return (← c.value o).type) = .ok types := by
    rw [mapM_eq_ok]
    apply hoperands.imp
    rintro o t ⟨z, hz, rfl⟩
    rw [hz]
    rfl
  rw [Body.derivedType?, hy]
  simp only [ok_bind, hdefinition, hx, hp, htypes]
  rfl

namespace StaticType

variable {h : Hierarchy}

/-- On an acyclic hierarchy with the built-in root, three of the given types can be grouped either
way, whichever three are taken, exactly if no two references of them meet too high for the join of
one of the two with a third one. Any number of them can be joined in any order exactly if no two meet
too high for the join of any two. Then the type that follows for a phi over some of them does not
depend on the order of its operands. -/
theorem join_assoc_iff_and_foldl_perm_iff (ha : h.Acyclic)
    (hroot : h.class? rootType = some Class.root) (types : List StaticType) :
    ((∀ t ∈ types, ∀ u ∈ types, ∀ w ∈ types,
          (t.join h u).join h w = t.join h (u.join h w)) ↔
        ∀ a ∈ referenceNames types, ∀ b ∈ referenceNames types, ∀ c ∈ referenceNames types,
          ¬ h.Overshoots a b a c) ∧
      ((∀ l l' : List StaticType, l ⊆ types → l.Perm l' →
          l.foldl (StaticType.join h) .bottom = l'.foldl (StaticType.join h) .bottom) ↔
        h.Settled (referenceNames types)) ∧
      (h.Settled (referenceNames types) → ∀ (c c' : Body) (v v' : ValueId) (l l' : List StaticType),
        c.Merges v l → c'.Merges v' l' → l ⊆ types → l.Perm l' →
          c.derivedType? h v = c'.derivedType? h v') := by
  have hfold := foldl_join_perm_iff ha hroot types
  refine ⟨join_assoc_all_iff ha hroot types, hfold, ?_⟩
  intro hs c c' v v' l l' hv hv' hl hperm
  rw [hv.derivedType? h, hv'.derivedType? h, hfold.2 hs l l' hl hperm]

/-- Two classes that implement an interface through their superclass, one of them another interface
of its own. -/
def implementsAbove : Hierarchy :=
  { defined := [
      { name := "I", isInterface := true },
      { name := "J", isInterface := true },
      { name := "P", superclass := some rootType, interfaces := ["I"] },
      { name := "A", superclass := some "P", interfaces := ["J"] },
      { name := "B", superclass := some "P" }] }

theorem foldl_join_implementsAbove :
    implementsAbove.Acyclic ∧
      implementsAbove.class? rootType = some Class.root ∧
      implementsAbove.Settled ["A", "B", "I", "J"] ∧
      [exactly "A" .notNull, .null, ofClass "B" .maybe, ofClass "I" .notNull].foldl
        (StaticType.join implementsAbove) .bottom =
      [ofClass "I" .notNull, ofClass "B" .maybe, exactly "A" .notNull, .null].foldl
        (StaticType.join implementsAbove) .bottom := by
  have ha : implementsAbove.Acyclic :=
    Hierarchy.acyclic_of_rank (fun t => if t = rootType then 3 else
      if t = "I" ∨ t = "J" then 2 else if t = "P" then 1 else 0) (by decide +kernel)
  have hroot : implementsAbove.class? rootType = some Class.root := by decide +kernel
  have hs : implementsAbove.Settled ["A", "B", "I", "J"] := by decide +kernel
  refine ⟨ha, hroot, hs, ?_⟩
  have hfold := (join_assoc_iff_and_foldl_perm_iff ha hroot [exactly "A" .notNull, ofClass "B" .maybe,
    ofClass "I" .notNull, ofClass "J" .maybe, .null]).2.1.2 hs
  exact hfold _ _ (by decide +kernel) (by decide +kernel)

/-- Two unrelated classes that implement the same interface. -/
def implementsTwice : Hierarchy :=
  { defined := [
      { name := "I", isInterface := true },
      { name := "A", superclass := some rootType, interfaces := ["I"] },
      { name := "B", superclass := some rootType, interfaces := ["I"] }] }

/-- Joined first, the two classes meet at the root; each alone joins with the interface to the
interface. -/
theorem join_not_assoc_implementsTwice :
    implementsTwice.Acyclic ∧
      implementsTwice.class? rootType = some Class.root ∧
      join implementsTwice (join implementsTwice (ofClass "A" .maybe) (ofClass "B" .maybe))
        (ofClass "I" .maybe) = ofClass rootType .maybe ∧
      join implementsTwice (ofClass "A" .maybe)
        (join implementsTwice (ofClass "B" .maybe) (ofClass "I" .maybe)) = ofClass "I" .maybe ∧
      [ofClass "A" .maybe, ofClass "B" .maybe, ofClass "I" .maybe].foldl
        (StaticType.join implementsTwice) .bottom = ofClass rootType .maybe ∧
      [ofClass "I" .maybe, ofClass "A" .maybe, ofClass "B" .maybe].foldl
        (StaticType.join implementsTwice) .bottom = ofClass "I" .maybe ∧
      implementsTwice.Overshoots "A" "B" "A" "I" := by
  refine ⟨Hierarchy.acyclic_of_rank (fun t => if t = rootType then 2 else
      if t = "I" then 1 else 0) (by decide +kernel), ?_⟩
  decide +kernel

end StaticType

end Devirt
