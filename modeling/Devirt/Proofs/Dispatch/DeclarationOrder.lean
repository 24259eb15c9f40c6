import Devirt.Proofs.Dispatch.Overriding
import Devirt.Proofs.Dispatch.Resolution
import Devirt.Proofs.Hierarchy.Reordering

/-!
Resolution and the order of declarations. Among several declarations in superinterfaces, the symbolic
lookup falls back to the first one, so the declaration it finds depends on the order of classes and
implements lists. Which one it is makes no difference to dispatch as long as all methods of
interfaces are seen everywhere, so no answer depends on it.
-/

namespace Devirt

/-- The declaration without the implements list of its holder. -/
def Declaration.bare (d : Declaration) : Declaration := { d with holder := d.holder.bare }

theorem Declaration.method_of_bare {d e : Declaration} (hde : d.bare = e.bare) :
    d.method = e.method := by
  have hmethod := congrArg Declaration.method hde
  exact hmethod

theorem Declaration.ref_of_bare {d e : Declaration} (hde : d.bare = e.bare) : d.ref = e.ref := by
  have href := congrArg Declaration.ref hde
  exact href

private theorem bare_cases {x y : Option Declaration}
    (hxy : x.map Declaration.bare = y.map Declaration.bare) :
    (x = none ∧ y = none) ∨ ∃ d e, x = some d ∧ y = some e ∧ d.bare = e.bare := by
  cases x with
  | none => exact .inl ⟨rfl, Option.map_eq_none_iff.1 hxy.symm⟩
  | some d =>
    obtain ⟨e, he, hed⟩ := Option.map_eq_some_iff.1 hxy.symm
    exact .inr ⟨d, e, rfl, he, hed.symm⟩

namespace Selection

variable {α β : Type}

def map (f : α → β) : Selection α → Selection β
  | .single a => .single (f a)
  | .noTarget => .noTarget
  | .ambiguous => .ambiguous

theorem map_ofCandidates (f : α → β) (l : List α) :
    (ofCandidates l).map f = ofCandidates (l.map f) := by
  match l with
  | [] => rfl
  | [_] => rfl
  | _ :: _ :: _ => rfl

theorem ofCandidates_perm {l l' : List α} (hl : l.Perm l') : ofCandidates l = ofCandidates l' := by
  match l, l' with
  | [], l' => rw [List.nil_perm.1 hl]
  | [a], l' => rw [List.singleton_perm.1 hl]
  | a :: b :: l, [] => simpa using hl.length_eq
  | a :: b :: l, [c] => simpa using hl.length_eq
  | _ :: _ :: _, _ :: _ :: _ => rfl

end Selection

namespace Hierarchy

/-- All methods of interfaces are seen everywhere. -/
def PublicInterfaces (h : Hierarchy) : Prop :=
  ∀ c ∈ h.classes, c.isInterface = true → ∀ m ∈ c.methods, m.visibility = .everywhere

instance (h : Hierarchy) : Decidable h.PublicInterfaces :=
  inferInstanceAs (Decidable (∀ c ∈ h.classes, _ → ∀ m ∈ c.methods, _))

variable {h k : Hierarchy} {s : Signature} {d r r' : Declaration} {m : MethodRef}
  {t C : TypeName}

/-- What is found among the superinterfaces is seen everywhere. -/
theorem visibility_of_interfaceMethod? (hn : h.ImplementsNoClass) (hp : h.PublicInterfaces)
    (hr : h.interfaceMethod? t s = some r) : r.method.visibility = .everywhere := by
  obtain ⟨hsuper, hdecl, -⟩ := mem_interfaceDeclarations.1 (mem_of_interfaceMethod? hr)
  have hclass := hn.isClass_of_mem_superinterfaces hsuper
  rw [isClass, hdecl.holder, Option.any_some, Bool.not_eq_false'] at hclass
  exact hp r.holder (mem_classes_of_class? hdecl.holder) hclass r.method
    (List.mem_of_find?_eq_some hdecl.method)

/-- Methods that are seen everywhere are dispatched alike. -/
theorem dispatchFrom_eq_of_everywhere (hr : h.Declares s r) (hr' : h.Declares s r')
    (hv : r.method.visibility = .everywhere) (hv' : r'.method.visibility = .everywhere)
    (C : TypeName) : h.dispatchFrom C r = h.dispatchFrom C r' := by
  apply dispatchFrom_congr hr.signature hr'.signature
  intro e he
  rw [he.overrides_iff hr (by simp [Method.isVirtual, hv]),
    he.overrides_iff hr' (by simp [Method.isVirtual, hv'])]
  simp [hv, hv']

/-- The declarations are dispatched alike, each in its hierarchy. -/
def SameDispatch (h k : Hierarchy) (r r' : Declaration) : Prop :=
  ∀ C, (h.dispatchFrom C r).map Declaration.bare = (k.dispatchFrom C r').map Declaration.bare

theorem SameDispatch.symm (hr : SameDispatch h k r r') : SameDispatch k h r' r :=
  fun C => (hr C).symm

theorem SameDispatch.exists_single (hr : SameDispatch h k r r')
    (hC : h.dispatchFrom C r = .single d) :
    ∃ e, k.dispatchFrom C r' = .single e ∧ d.bare = e.bare := by
  have hsame := hr C
  rw [hC] at hsame
  cases hC' : k.dispatchFrom C r' with
  | single e =>
    rw [hC'] at hsame
    exact ⟨e, rfl, Selection.single.inj hsame⟩
  | noTarget => simp [hC', Selection.map] at hsame
  | ambiguous => simp [hC', Selection.map] at hsame

namespace Reordered

variable (hk : h.Reordered k) (hd : h.DefinedOnce)
include hk hd

/-! ### Candidates among the superinterfaces -/

theorem map_interfaceDeclarations (t : TypeName) (s : Signature) :
    ((h.interfaceDeclarations t s).map Declaration.bare).Perm
      ((k.interfaceDeclarations t s).map Declaration.bare) := by
  unfold interfaceDeclarations
  rw [List.map_filterMap, List.map_filterMap]
  have hsame : ∀ i, ((h.class? i).bind fun c =>
        ((c.declared? s).filter (·.isVirtual)).map (Declaration.mk c)).map Declaration.bare =
      ((k.class? i).bind fun c =>
        ((c.declared? s).filter (·.isVirtual)).map (Declaration.mk c)).map Declaration.bare := by
    intro i
    apply hk.class?_congr hd fun o => (o.bind fun c =>
      ((c.declared? s).filter (·.isVirtual)).map (Declaration.mk c)).map Declaration.bare
    intro c d hcd
    apply hcd.congr fun c => (((c.declared? s).filter (·.isVirtual)).map
      (Declaration.mk c)).map Declaration.bare
    intro c
    rw [Option.map_map, Option.map_map]
    rfl
  simp only [hsame]
  exact (hk.superinterfaces hd t).filterMap _

theorem map_mostSpecific (t : TypeName) (s : Signature) :
    ((h.mostSpecific t s).map Declaration.bare).Perm
      ((k.mostSpecific t s).map Declaration.bare) := by
  have hcandidates := hk.map_interfaceDeclarations hd t s
  have hbare : ∀ h : Hierarchy, (h.mostSpecific t s).map Declaration.bare =
      ((h.interfaceDeclarations t s).map Declaration.bare).filter fun d =>
        !((h.interfaceDeclarations t s).map Declaration.bare).any fun other =>
          other.holder.name ≠ d.holder.name && h.isSubtype other.holder.name d.holder.name := by
    intro h
    simp only [mostSpecific, List.filter_map, List.any_map]
    rfl
  rw [hbare h, hbare k]
  simp only [hcandidates.any_eq, hk.isSubtype hd]
  exact hcandidates.filter _

theorem map_defaultMethod (t : TypeName) (s : Signature) :
    (h.defaultMethod t s).map Declaration.bare = (k.defaultMethod t s).map Declaration.bare := by
  have hfilter : ∀ h : Hierarchy,
      ((h.mostSpecific t s).filter fun d => !d.method.isAbstract).map Declaration.bare =
        ((h.mostSpecific t s).map Declaration.bare).filter fun d => !d.method.isAbstract := by
    intro h
    rw [List.filter_map]
    rfl
  unfold defaultMethod
  rw [Selection.map_ofCandidates, Selection.map_ofCandidates, hfilter h, hfilter k]
  exact Selection.ofCandidates_perm ((hk.map_mostSpecific hd t s).filter _)

/-! ### Selection -/

theorem map_declaration? (m : MethodRef) :
    (h.declaration? m).map Declaration.bare = (k.declaration? m).map Declaration.bare := by
  apply hk.class?_congr hd fun o => (o.bind fun c =>
    (c.declared? m.signature).map (Declaration.mk c)).map Declaration.bare
  intro c d hcd
  apply hcd.congr fun c => ((c.declared? m.signature).map (Declaration.mk c)).map Declaration.bare
  intro c
  rw [Option.map_map, Option.map_map]
  rfl

/-- The first declaration on the way up is the same in both. -/
theorem map_findSome?_superclasses (t : TypeName) (s : Signature) :
    ((h.superclasses t).findSome? fun c => (c.declared? s).map (Declaration.mk c)).map
        Declaration.bare =
      ((k.superclasses t).findSome? fun c => (c.declared? s).map (Declaration.mk c)).map
        Declaration.bare := by
  have hbare : ∀ l : List Class,
      (l.findSome? fun c => (c.declared? s).map (Declaration.mk c)).map Declaration.bare =
        (l.map Class.bare).findSome? fun c => (c.declared? s).map (Declaration.mk c) := by
    intro l
    rw [List.map_findSome?, List.findSome?_map]
    congr 1
    funext c
    simp only [Function.comp_apply, Option.map_map]
    rfl
  rw [hbare, hbare, hk.map_superclasses hd]

theorem map_firstOverride? (hr : r.bare = r'.bare) (C : TypeName) :
    (h.firstOverride? C r).map Declaration.bare = (k.firstOverride? C r').map Declaration.bare := by
  have hbare : ∀ (h : Hierarchy) (r : Declaration),
      (h.firstOverride? C r).map Declaration.bare =
        (((h.superclasses C).map Class.bare).takeWhile fun c => !c.isInterface).findSome? fun c =>
          ((c.declared? r.bare.method.signature).map (Declaration.mk c)).filter
            (overrides · r.bare) := by
    intro h r
    unfold firstOverride?
    rw [List.map_findSome?, List.takeWhile_map, List.findSome?_map]
    show List.findSome? _ ((h.superclasses C).takeWhile fun c => !c.isInterface) =
      List.findSome? _ ((h.superclasses C).takeWhile fun c => !c.isInterface)
    congr 1
    funext c
    have hdecl : c.bare.declared? r.bare.method.signature =
        c.declared? r.method.signature := rfl
    have hoverrides : ∀ x, overrides ⟨c.bare, x⟩ r.bare = overrides ⟨c, x⟩ r := fun _ => rfl
    simp only [Function.comp_apply, hdecl]
    cases c.declared? r.method.signature with
    | none => rfl
    | some x =>
      simp only [Option.map_some, Option.filter, hoverrides]
      split <;> rfl
  rw [hbare, hbare, hr, hk.map_superclasses hd]

/-- A declaration is dispatched alike in both. -/
theorem map_dispatchFrom (hr : r.bare = r'.bare) (C : TypeName) :
    (h.dispatchFrom C r).map Declaration.bare = (k.dispatchFrom C r').map Declaration.bare := by
  unfold dispatchFrom
  rw [Declaration.method_of_bare hr]
  rcases bare_cases (hk.map_firstOverride? hd hr C) with ⟨hf, hf'⟩ | ⟨d, e, hf, hf', hde⟩
  · rw [hf, hf']
    exact hk.map_defaultMethod hd C r'.method.signature
  · rw [hf, hf']
    simp only [Declaration.method_of_bare hde]
    split
    · rfl
    · simp only [Selection.map, hde]

theorem map_dispatchSuper (m : MethodRef) (context : TypeName) :
    (h.dispatchSuper m context).map Declaration.bare =
      (k.dispatchSuper m context).map Declaration.bare := by
  unfold dispatchSuper
  rw [hk.isClass hd, hk.superclass? hd]
  split
  · cases k.superclass? context with
    | none => rfl
    | some t =>
      dsimp only
      rcases bare_cases (hk.map_findSome?_superclasses hd t m.signature) with
        ⟨hf, hf'⟩ | ⟨d, e, hf, hf', hde⟩
      · rw [hf, hf']
        exact hk.map_defaultMethod hd t m.signature
      · rw [hf, hf']
        simp only [Declaration.method_of_bare hde]
        split
        · rfl
        · simp only [Selection.map, hde]
  · rfl

/-! ### Symbolic lookup -/

theorem exists_declares (hr : h.Declares s r) : ∃ r', k.Declares s r' ∧ r.bare = r'.bare := by
  rcases hk.class?_cases hd r.holder.name with ⟨hc, -⟩ | ⟨c, d, hc, hc', hcd⟩
  · rw [hr.holder] at hc
    cases hc
  · obtain rfl := Option.some.inj (hr.holder.symm.trans hc)
    have hname : d.name = r.holder.name := hcd.name.symm
    have hmethod : d.declared? s = some r.method := by
      rw [← hr.method]
      exact (hcd.congr (·.declared? s) fun _ => rfl).symm
    refine ⟨⟨d, r.method⟩, ⟨?_, hmethod⟩, ?_⟩
    · show k.class? d.name = some d
      rw [hname]
      exact hc'
    · show Declaration.mk r.holder.bare r.method = Declaration.mk d.bare r.method
      rw [hcd.bare]

theorem sameDispatch_of_bare (hr : r.bare = r'.bare) : SameDispatch h k r r' :=
  fun C => hk.map_dispatchFrom hd hr C

theorem implementsNoClass (hn : h.ImplementsNoClass) : k.ImplementsNoClass := by
  intro d hdk i hi
  obtain ⟨c, hc, hdc⟩ := hk.symm.exists_mem hdk
  rw [← hk.isClass hd]
  exact hn c hc i (hdc.interfaces.mem_iff.1 hi)

omit hd in
theorem publicInterfaces (hp : h.PublicInterfaces) : k.PublicInterfaces := by
  intro d hdk hi m hm
  obtain ⟨c, hc, hdc⟩ := hk.symm.exists_mem hdk
  have hinterface : d.isInterface = c.isInterface := hdc.congr Class.isInterface fun _ => rfl
  have hmethods : d.methods = c.methods := hdc.congr Class.methods fun _ => rfl
  exact hp c hc (hinterface ▸ hi) m (hmethods ▸ hm)

/-- The declarations found may differ here, but both are seen everywhere. -/
theorem interfaceMethod? (hn : h.ImplementsNoClass) (hp : h.PublicInterfaces) (t : TypeName)
    (s : Signature) :
    Option.Rel (SameDispatch h k) (h.interfaceMethod? t s) (k.interfaceMethod? t s) := by
  have hempty : h.mostSpecific t s = [] ↔ k.mostSpecific t s = [] := by
    have hlength := (hk.map_mostSpecific hd t s).length_eq
    rw [List.length_map, List.length_map] at hlength
    rw [← List.length_eq_zero_iff, ← List.length_eq_zero_iff, hlength]
  rw [← interfaceMethod?_eq_none_iff, ← interfaceMethod?_eq_none_iff] at hempty
  cases hr : h.interfaceMethod? t s with
  | none =>
    rw [hempty.1 hr]
    exact .none
  | some r =>
    cases hr' : k.interfaceMethod? t s with
    | none =>
      rw [hempty.2 hr'] at hr
      cases hr
    | some r' =>
      apply Option.Rel.some
      intro C
      obtain ⟨e, he, hre⟩ := hk.exists_declares hd (declares_of_interfaceMethod? hr)
      have hv : e.method.visibility = .everywhere := by
        rw [← visibility_of_interfaceMethod? hn hp hr, Declaration.method_of_bare hre]
      have hv' := visibility_of_interfaceMethod? (hk.implementsNoClass hd hn)
        (hk.publicInterfaces hp) hr'
      rw [hk.map_dispatchFrom hd hre, dispatchFrom_eq_of_everywhere he
        (declares_of_interfaceMethod? hr') hv hv']

theorem findOnClass? (hn : h.ImplementsNoClass) (hp : h.PublicInterfaces) (s : Signature)
    (t : TypeName) :
    Option.Rel (SameDispatch h k) (h.findOnClass? s t) (k.findOnClass? s t) := by
  unfold Hierarchy.findOnClass?
  rcases bare_cases (hk.map_findSome?_superclasses hd t s) with ⟨hf, hf'⟩ | ⟨d, e, hf, hf', hde⟩
  · rw [hf, hf']
    exact hk.interfaceMethod? hd hn hp t s
  · rw [hf, hf']
    exact .some (hk.sameDispatch_of_bare hd hde)

theorem findOnInterface? (hn : h.ImplementsNoClass) (hp : h.PublicInterfaces) (s : Signature)
    {i j : Class} (hij : i.Reordered j) :
    Option.Rel (SameDispatch h k) (h.findOnInterface? s i) (k.findOnInterface? s j) := by
  have hown : i.declared? s = j.declared? s := hij.congr (·.declared? s) fun _ => rfl
  have habove := hk.interfaceMethod? hd hn hp i.name s
  unfold Hierarchy.findOnInterface?
  rw [hown, ← hij.name]
  cases j.declared? s with
  | some m =>
    apply Option.Rel.some
    apply hk.sameDispatch_of_bare hd
    show Declaration.mk i.bare m = Declaration.mk j.bare m
    rw [hij.bare]
  | none =>
    dsimp only
    rcases bare_cases (hk.map_declaration? hd ⟨rootType, s⟩) with
      ⟨hf, hf'⟩ | ⟨d, e, hf, hf', hde⟩
    · rw [hf, hf']
      exact habove
    · rw [hf, hf']
      simp only [Declaration.method_of_bare hde]
      split
      · exact .some (hk.sameDispatch_of_bare hd hde)
      · exact habove

/-- A reference stands for nothing in both, or for declarations that are dispatched alike. -/
theorem find? (hn : h.ImplementsNoClass) (hp : h.PublicInterfaces) (m : MethodRef) :
    Option.Rel (SameDispatch h k) (h.find? m) (k.find? m) := by
  unfold Hierarchy.find?
  rcases hk.class?_cases hd m.holder with ⟨hc, hc'⟩ | ⟨c, d, hc, hc', hcd⟩
  · rw [hc, hc']
    exact .none
  · have hinterface : c.isInterface = d.isInterface := hcd.congr Class.isInterface fun _ => rfl
    rw [hc, hc', Option.bind_some, Option.bind_some, hinterface]
    split
    · exact hk.findOnInterface? hd hn hp m.signature hcd
    · exact hk.findOnClass? hd hn hp m.signature m.holder

/-! ### Receivers below a bound -/

theorem targetsBelow_subset (hr : SameDispatch h k r r') (bound : TypeName) :
    ∀ m ∈ (h.targetsBelow bound r).targets, m ∈ (k.targetsBelow bound r').targets := by
  intro m hm
  obtain ⟨C, hC, hi, d, hdC, rfl⟩ := mem_targetsBelow.1 hm
  obtain ⟨e, he, hde⟩ := hr.exists_single hdC
  rw [hk.isInstantiated hd] at hi
  exact mem_targetsBelow.2
    ⟨C, (hk.subtypes hd bound).mem_iff.1 hC, hi, e, he, (Declaration.ref_of_bare hde).symm⟩

theorem mem_targetsBelow_iff (hr : SameDispatch h k r r') (bound : TypeName) (m : MethodRef) :
    m ∈ (h.targetsBelow bound r).targets ↔ m ∈ (k.targetsBelow bound r').targets :=
  ⟨hk.targetsBelow_subset hd hr bound m,
    hk.symm.targetsBelow_subset (hk.definedOnce hd) hr.symm bound m⟩

theorem complete_targetsBelow (hr : SameDispatch h k r r') (bound : TypeName) :
    (h.targetsBelow bound r).complete = (k.targetsBelow bound r').complete := by
  rw [Bool.eq_iff_iff, targetsBelow_complete_iff, targetsBelow_complete_iff,
    hk.isProgramClass hd]
  apply and_congr_right
  intro _
  simp only [(hk.subtypes hd bound).mem_iff, hk.isInstantiated hd]
  constructor
  · intro hall C hC hi
    obtain ⟨d, hdC⟩ := hall C hC hi
    obtain ⟨e, he, -⟩ := hr.exists_single hdC
    exact ⟨e, he⟩
  · intro hall C hC hi
    obtain ⟨d, hdC⟩ := hall C hC hi
    obtain ⟨e, he, -⟩ := hr.symm.exists_single hdC
    exact ⟨e, he⟩

theorem map_dispatchBelow (hr : SameDispatch h k r r') (bound : TypeName) :
    (h.dispatchBelow bound r).map Declaration.bare =
      (k.dispatchBelow bound r').map Declaration.bare := by
  have hmem := hk.mem_targetsBelow_iff hd hr bound
  have hcomplete := hk.complete_targetsBelow hd hr bound
  have hperm : (h.targetsBelow bound r).targets.toList.Perm
      (k.targetsBelow bound r').targets.toList :=
    (List.perm_ext_iff_of_nodup (OrderedSet.nodup _) (OrderedSet.nodup _)).2 hmem
  have hsingle : (h.targetsBelow bound r).single? = (k.targetsBelow bound r').single? := by
    apply Option.ext
    intro m
    rw [DispatchTargets.single?_eq_some, DispatchTargets.single?_eq_some, hcomplete,
      OrderedSet.toList_eq_singleton_iff, OrderedSet.toList_eq_singleton_iff]
    simp only [hmem]
  have hempty : (h.targetsBelow bound r).targets.isEmpty =
      (k.targetsBelow bound r').targets.isEmpty := hperm.isEmpty_eq
  simp only [dispatchBelow, hsingle, hempty, hcomplete]
  cases (k.targetsBelow bound r').single? with
  | none => rfl
  | some m =>
    dsimp only
    rcases bare_cases (hk.map_declaration? hd m) with ⟨hf, hf'⟩ | ⟨d, e, hf, hf', hde⟩
    · rw [hf, hf']
    · rw [hf, hf']
      simp only [Selection.map, hde]

/-! ### Answers -/

theorem map_select (kind : DispatchKind) (m : MethodRef) (receiver : ReferenceType)
    (context : TypeName) (hr : SameDispatch h k r r') :
    (h.select kind m receiver context r).map Declaration.bare =
      (k.select kind m receiver context r').map Declaration.bare := by
  have hdispatch : (if receiver.exact then h.dispatchFrom receiver.name r
      else h.dispatchBelow receiver.name r).map Declaration.bare =
      (if receiver.exact then k.dispatchFrom receiver.name r'
        else k.dispatchBelow receiver.name r').map Declaration.bare := by
    split
    · exact hr receiver.name
    · exact hk.map_dispatchBelow hd hr receiver.name
  unfold select
  cases kind with
  | super => exact hk.map_dispatchSuper hd m context
  | virtual => exact hdispatch
  | interface => exact hdispatch

theorem memberAccessible (holder : TypeName) (v : Visibility) (context : TypeName) :
    h.memberAccessible holder v context = k.memberAccessible holder v context := by
  have hclass : h.classAccessible holder context = k.classAccessible holder context := by
    unfold classAccessible
    rcases hk.class?_cases hd holder with ⟨hc, hc'⟩ | ⟨c, d, hc, hc', hcd⟩
    · rw [hc, hc']
    · rw [hc, hc', hk.samePackage hd]
      simp only [hcd.congr Class.packagePrivate fun _ => rfl]
  unfold Hierarchy.memberAccessible
  rw [hclass, hk.samePackage hd, hk.isSubtype hd]

theorem answer (hn : h.ImplementsNoClass) (hp : h.PublicInterfaces) (kind : DispatchKind)
    (m : MethodRef) (receiver : ReferenceType) (context : TypeName) :
    h.answer kind m receiver context = k.answer kind m receiver context := by
  have hfind := hk.find? hd hn hp m
  unfold Hierarchy.answer
  generalize h.find? m = x at hfind ⊢
  generalize k.find? m = y at hfind ⊢
  cases hfind with
  | none => rfl
  | @some r r' hr =>
    have hselect := hk.map_select hd kind m receiver context hr
    dsimp only
    generalize h.select kind m receiver context r = x at hselect ⊢
    generalize k.select kind m receiver context r' = y at hselect ⊢
    cases x with
    | noTarget =>
      cases y with
      | noTarget => rfl
      | single e => cases hselect
      | ambiguous => cases hselect
    | ambiguous =>
      cases y with
      | ambiguous => rfl
      | single e => cases hselect
      | noTarget => cases hselect
    | single d =>
      cases y with
      | noTarget => cases hselect
      | ambiguous => cases hselect
      | single e =>
        have hde : d.bare = e.bare := Selection.single.inj hselect
        have hinterface := congrArg (fun d : Declaration => d.holder.isInterface) hde
        have hname := congrArg (fun d : Declaration => d.holder.name) hde
        have haccess : h.declarationAccessible d context =
            k.declarationAccessible e context := by
          unfold declarationAccessible
          rw [hk.memberAccessible hd, Declaration.method_of_bare hde]
          exact congrArg (k.memberAccessible · _ _) hname
        change d.holder.isInterface = e.holder.isInterface at hinterface
        simp only [hinterface, haccess, Declaration.ref_of_bare hde]

theorem resolved (hn : h.ImplementsNoClass) (hp : h.PublicInterfaces) (kind : DispatchKind)
    (m : MethodRef) (receiver : StaticType) (context : TypeName) :
    h.resolved kind m receiver context = k.resolved kind m receiver context := by
  have hreceiver : receiver.classReference? h = receiver.classReference? k := by
    unfold StaticType.classReference?
    simp only [hk.isClass hd]
  unfold Hierarchy.resolved
  rw [hreceiver]
  cases receiver.classReference? k with
  | none => rfl
  | some c => exact hk.answer hd hn hp kind m c context

end Reordered

/-- Where every name has one definition, implements lists name no classes and all methods of
interfaces are seen everywhere, neither the order in which classes are registered nor the order of
implements lists has an influence on resolution: every call resolves alike, and below every bound the
same methods are collected and found to be complete or not. -/
theorem resolve_eq_and_mem_dispatchTargets_iff (hk : h.Reordered k) (hd : h.DefinedOnce)
    (hn : h.ImplementsNoClass) (hp : h.PublicInterfaces) :
    (∀ (r : Resolver h) (r' : Resolver k) (kind : DispatchKind) (m : MethodRef)
        (receiver : StaticType) (context : TypeName),
      (r.resolve kind m receiver context).1 = (r'.resolve kind m receiver context).1) ∧
      ∀ (m : MethodRef) (bound : TypeName),
        (∀ t, t ∈ (h.dispatchTargets m bound).targets ↔ t ∈ (k.dispatchTargets m bound).targets) ∧
          (h.dispatchTargets m bound).complete = (k.dispatchTargets m bound).complete := by
  constructor
  · intro r r' kind m receiver context
    rw [h.resolve_fst, k.resolve_fst]
    exact hk.resolved hd hn hp kind m receiver context
  · intro m bound
    have hfind := hk.find? hd hn hp m
    unfold dispatchTargets
    generalize h.find? m = x at hfind ⊢
    generalize k.find? m = y at hfind ⊢
    cases hfind with
    | none => exact ⟨fun _ => Iff.rfl, rfl⟩
    | some hr =>
      exact ⟨hk.mem_targetsBelow_iff hd hr bound, hk.complete_targetsBelow hd hr bound⟩

/-- An abstract class that inherits a method from two interfaces, and a class that has it. -/
def inheritedTwice : Hierarchy :=
  { defined := [
      { name := "I", isInterface := true,
        methods := [{ signature := { name := "f" }, isAbstract := true }] },
      { name := "J", isInterface := true,
        methods := [{ signature := { name := "f" }, isAbstract := true }] },
      { name := "A", declaredAbstract := true, interfaces := ["I", "J"] },
      { name := "B", superclass := some "A", methods := [{ signature := { name := "f" } }] }] }

/-- The same classes, the last one first and with the interfaces the other way round. -/
def inheritedTwiceTurned : Hierarchy :=
  { defined := [
      { name := "B", superclass := some "A", methods := [{ signature := { name := "f" } }] },
      { name := "A", declaredAbstract := true, interfaces := ["J", "I"] },
      { name := "J", isInterface := true,
        methods := [{ signature := { name := "f" }, isAbstract := true }] },
      { name := "I", isInterface := true,
        methods := [{ signature := { name := "f" }, isAbstract := true }] }] }

/-- The lookup finds one interface's declaration in the first hierarchy and the other one's in the
second, but a call resolves to the same method. -/
theorem resolve_inheritedTwice :
    inheritedTwice.Reordered inheritedTwiceTurned ∧ inheritedTwice.DefinedOnce ∧
      inheritedTwice.ImplementsNoClass ∧ inheritedTwice.PublicInterfaces ∧
      (inheritedTwice.find? (.plain "A" "f")).map (·.ref) = some (.plain "I" "f") ∧
      (inheritedTwiceTurned.find? (.plain "A" "f")).map (·.ref) = some (.plain "J" "f") ∧
      ((∅ : Resolver inheritedTwice).resolve .virtual (.plain "A" "f") (.ofClass "A" .maybe)
          "B").1 = .single (.plain "B" "f") ∧
      ((∅ : Resolver inheritedTwiceTurned).resolve .virtual (.plain "A" "f")
          (.ofClass "A" .maybe) "B").1 = .single (.plain "B" "f") := by
  have hk : inheritedTwice.Reordered inheritedTwiceTurned := by
    refine ⟨⟨inheritedTwice.defined.reverse, (List.reverse_perm _).symm, ?_⟩, fun t => Iff.rfl⟩
    exact .cons (.refl _) (.cons ⟨rfl, .swap "J" "I" []⟩ (.cons (.refl _) (.cons (.refl _) .nil)))
  have hd : inheritedTwice.DefinedOnce := by decide +kernel
  have hn : inheritedTwice.ImplementsNoClass := by decide +kernel
  have hp : inheritedTwice.PublicInterfaces := by decide +kernel
  have hfind : (inheritedTwice.find? (.plain "A" "f")).map (·.ref) = some (.plain "I" "f") := by
    decide +kernel
  have hfind' : (inheritedTwiceTurned.find? (.plain "A" "f")).map (·.ref) =
      some (.plain "J" "f") := by decide +kernel
  have hresolve : ((∅ : Resolver inheritedTwice).resolve .virtual (.plain "A" "f")
      (.ofClass "A" .maybe) "B").1 = .single (.plain "B" "f") := by decide +kernel
  have hsame := (resolve_eq_and_mem_dispatchTargets_iff hk hd hn hp).1 ∅ ∅ .virtual
    (.plain "A" "f") (.ofClass "A" .maybe) "B"
  exact ⟨hk, hd, hn, hp, hfind, hfind', hresolve, hsame ▸ hresolve⟩

end Hierarchy

end Devirt
