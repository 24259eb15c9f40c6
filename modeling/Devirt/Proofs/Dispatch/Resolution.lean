import Devirt.Proofs.Dispatch.Selection

/-!
Resolution and the classes a receiver may have. A receiver type admits the classes that its objects
may be of; where every name has one definition, a single answer for the type is what each class that
it admits and that may exist dispatches to.
-/

namespace Devirt

/-- Objects of the class may be referred to with this type. -/
def ReferenceType.Admits (h : Hierarchy) (r : ReferenceType) (C : TypeName) : Prop :=
  if r.exact then C = r.name else h.isSubtype C r.name = true

/-- The type is a reference that admits the class. -/
def StaticType.Admits (h : Hierarchy) (t : StaticType) (C : TypeName) : Prop :=
  ∃ r, t = .reference r ∧ r.Admits h C

instance (h : Hierarchy) (r : ReferenceType) (C : TypeName) : Decidable (r.Admits h C) :=
  inferInstanceAs (Decidable (ite _ _ _))

theorem StaticType.classReference?_eq_some {h : Hierarchy} {t : StaticType} {c : ReferenceType} :
    t.classReference? h = some c ↔ t = .reference c ∧ h.isClass c.name = true := by
  rw [classReference?, Option.filter_eq_some_iff]
  cases t <;> simp [reference?]

theorem OrderedSet.mem_ofList {α : Type} [DecidableEq α] {l : List α} {a : α} :
    a ∈ OrderedSet.ofList l ↔ a ∈ l := by
  rw [ofList, mem_insertAll, or_iff_right_iff_imp]
  exact fun h => absurd h List.not_mem_nil

theorem OrderedSet.toList_eq_singleton_iff {α : Type} {s : OrderedSet α} {a : α} :
    s.toList = [a] ↔ ∀ b, b ∈ s ↔ b = a := by
  constructor
  · intro hs b
    rw [← mem_toList, hs, List.mem_singleton]
  · intro hs
    apply List.perm_singleton.1
    rw [List.perm_ext_iff_of_nodup s.nodup (List.nodup_singleton a)]
    intro b
    rw [mem_toList, hs b, List.mem_singleton]

theorem Selection.target?_eq_some_iff {α : Type} {x : Selection α} {a : α} :
    x.target? = some a ↔ x = .single a := by
  cases x <;> simp [target?]

theorem DispatchTargets.single?_eq_some {d : DispatchTargets} {m : MethodRef} :
    d.single? = some m ↔ d.complete = true ∧ d.targets.toList = [m] := by
  unfold single?
  split
  · rename_i hcomplete hlist
    simp [hcomplete, hlist]
  · rename_i hnot
    simp only [reduceCtorEq, false_iff, not_and]
    exact fun hcomplete hlist => hnot m hcomplete hlist

namespace Hierarchy

variable {h : Hierarchy} {s : Signature} {d r : Declaration} {m t : MethodRef}
  {C bound context : TypeName} {kind : DispatchKind} {receiver : StaticType}

/-- The answer for a call on a receiver of the given type. -/
def resolved (h : Hierarchy) (kind : DispatchKind) (method : MethodRef) (receiver : StaticType)
    (context : TypeName) : Selection MethodRef :=
  match receiver.classReference? h with
  | none => .noTarget
  | some c => h.answer kind method c context

theorem resolve_fst (r : Resolver h) (kind : DispatchKind) (method : MethodRef)
    (receiver : StaticType) (context : TypeName) :
    (r.resolve kind method receiver context).1 = h.resolved kind method receiver context := by
  rw [Resolver.resolve, resolved]
  cases receiver.classReference? h with
  | none => rfl
  | some c => exact r.ask_fst kind method c context

/-- An answer comes from a reference to a class. -/
theorem resolved_eq_single (ha : h.resolved kind m receiver context = .single t) :
    ∃ c, receiver = .reference c ∧ h.isClass c.name = true ∧
      h.answer kind m c context = .single t := by
  unfold resolved at ha
  split at ha
  · simp at ha
  · rename_i c hc
    obtain ⟨hc, hclass⟩ := StaticType.classReference?_eq_some.1 hc
    exact ⟨c, hc, hclass, ha⟩

/-- The methods collected below a bound are those that the instantiated classes there run. -/
theorem mem_targetsBelow :
    m ∈ (h.targetsBelow bound r).targets ↔
      ∃ C ∈ h.subtypes bound, h.isInstantiated C = true ∧
        ∃ d, h.dispatchFrom C r = .single d ∧ d.ref = m := by
  simp only [targetsBelow, OrderedSet.mem_ofList, List.mem_filterMap, List.mem_map,
    List.mem_filter, Option.map_eq_some_iff, Selection.target?_eq_some_iff]
  constructor
  · rintro ⟨x, ⟨C, ⟨hC, hi⟩, rfl⟩, d, hd, hm⟩
    exact ⟨C, hC, hi, d, hd, hm⟩
  · rintro ⟨C, hC, hi, d, hd, hm⟩
    exact ⟨_, ⟨C, ⟨hC, hi⟩, rfl⟩, d, hd, hm⟩

/-- They are all there are if the bound is a class of the program and each of those classes runs a
method. -/
theorem targetsBelow_complete_iff :
    (h.targetsBelow bound r).complete = true ↔ h.isProgramClass bound = true ∧
      ∀ C ∈ h.subtypes bound, h.isInstantiated C = true → ∃ d, h.dispatchFrom C r = .single d := by
  simp only [targetsBelow, Bool.and_eq_true, List.all_eq_true, List.mem_map, List.mem_filter,
    Option.isSome_iff_exists, Selection.target?_eq_some_iff]
  constructor
  · rintro ⟨hprogram, hall⟩
    exact ⟨hprogram, fun C hC hi => hall _ ⟨C, ⟨hC, hi⟩, rfl⟩⟩
  · rintro ⟨hprogram, hall⟩
    refine ⟨hprogram, ?_⟩
    rintro _ ⟨C, ⟨hC, hi⟩, rfl⟩
    exact hall C hC hi

/-- Below a bound one method is selected if the bound is a class of the program, something below it
is instantiated, and whatever is instantiated there dispatches to that method. -/
theorem dispatchBelow_eq_single_iff (hr : h.Declares s r) :
    h.dispatchBelow bound r = .single d ↔ h.isProgramClass bound = true ∧
      (∃ C ∈ h.subtypes bound, h.isInstantiated C = true) ∧
      ∀ C ∈ h.subtypes bound, h.isInstantiated C = true → h.dispatchFrom C r = .single d := by
  constructor
  · intro hb
    simp only [dispatchBelow] at hb
    split at hb
    · rename_i m hm
      obtain ⟨hcomplete, hlist⟩ := DispatchTargets.single?_eq_some.1 hm
      obtain ⟨hprogram, hall⟩ := targetsBelow_complete_iff.1 hcomplete
      have hmem := OrderedSet.toList_eq_singleton_iff.1 hlist
      have hrun : ∀ C ∈ h.subtypes bound, h.isInstantiated C = true →
          h.dispatchFrom C r = .single d := by
        intro C hC hi
        obtain ⟨e, he⟩ := hall C hC hi
        have href : e.ref = m := (hmem e.ref).1 (mem_targetsBelow.2 ⟨C, hC, hi, e, he, rfl⟩)
        rw [← href, (declares_of_dispatchFrom hr.signature he).1.declaration?] at hb
        rw [he, Selection.single.inj hb]
      obtain ⟨C, hC, hi, -⟩ := mem_targetsBelow.1 ((hmem m).2 rfl)
      exact ⟨hprogram, ⟨C, hC, hi⟩, hrun⟩
    · split at hb <;> simp at hb
  · rintro ⟨hprogram, ⟨C, hC, hi⟩, hrun⟩
    have hcomplete : (h.targetsBelow bound r).complete = true :=
      targetsBelow_complete_iff.2 ⟨hprogram, fun C hC hi => ⟨d, hrun C hC hi⟩⟩
    have hlist : (h.targetsBelow bound r).targets.toList = [d.ref] := by
      apply OrderedSet.toList_eq_singleton_iff.2
      intro m
      rw [mem_targetsBelow]
      constructor
      · rintro ⟨C, hC, hi, e, he, rfl⟩
        rw [Selection.single.inj (he.symm.trans (hrun C hC hi))]
      · rintro rfl
        exact ⟨C, hC, hi, d, hrun C hC hi, rfl⟩
    have hdecl := (declares_of_dispatchFrom hr.signature (hrun C hC hi)).1.declaration?
    simp only [dispatchBelow, DispatchTargets.single?_eq_some.2 ⟨hcomplete, hlist⟩, hdecl]

/-- Whatever the kind of dispatch, a declaration of the signature is selected. -/
theorem declares_of_select {c : ReferenceType} (hr : h.Declares s r) (hs : m.signature = s)
    (hd : h.select kind m c context r = .single d) : h.Declares s d := by
  unfold select at hd
  split at hd
  · exact hs ▸ declares_of_dispatchSuper hd
  all_goals
    split at hd
    · exact (declares_of_dispatchFrom hr.signature hd).1
    · obtain ⟨-, ⟨C, hC, hi⟩, hrun⟩ := (dispatchBelow_eq_single_iff hr).1 hd
      exact (declares_of_dispatchFrom hr.signature (hrun C hC hi)).1

/-- The root is no class of the program, so its shortcut plays no part below a class that is. -/
theorem DefinedOnce.mem_subtypes_iff_of_isProgramClass (hd : h.DefinedOnce)
    (hprogram : h.isProgramClass bound = true) :
    C ∈ h.subtypes bound ↔ h.isSubtype C bound = true := by
  rw [hd.mem_subtypes_iff, isSubtype_iff]
  constructor
  · exact Or.inr
  · rintro (rfl | hreach)
    · rw [isProgramClass, hd.class?_rootType] at hprogram
      simp [Class.root, Class.isProgramClass] at hprogram
    · exact hreach

/-- Where every name has one definition, a single answer is the method that every receiver class
dispatches to. -/
theorem DefinedOnce.exists_dispatchFrom (hd : h.DefinedOnce) (hkind : kind ≠ .super)
    (ha : h.resolved kind m receiver context = .single t) (hC : receiver.Admits h C)
    (hi : h.isInstantiated C = true) :
    ∃ r d, h.find? m = some r ∧ h.dispatchFrom C r = .single d ∧ d.ref = t ∧
      (d.holder.isInterface = true → kind = .interface) ∧
      h.declarationAccessible d context = true := by
  obtain ⟨c, rfl, -, ha⟩ := resolved_eq_single ha
  obtain ⟨c', hc', hC⟩ := hC
  obtain rfl := StaticType.reference.inj hc'
  obtain ⟨r, d, hr, hsel, hinterface, haccess, rfl⟩ := answer_eq_single ha
  refine ⟨r, d, hr, ?_, rfl, hinterface, haccess⟩
  have hsel : (if c.exact then h.dispatchFrom c.name r else h.dispatchBelow c.name r) =
      .single d := by
    cases kind with
    | super => exact absurd rfl hkind
    | virtual => exact hsel
    | interface => exact hsel
  unfold ReferenceType.Admits at hC
  split at hsel
  · rename_i hexact
    rw [if_pos hexact] at hC
    rwa [hC]
  · rename_i hexact
    rw [if_neg hexact] at hC
    have hr := declares_of_find? hr
    obtain ⟨hprogram, -, hrun⟩ := (dispatchBelow_eq_single_iff hr).1 hsel
    exact hrun C ((hd.mem_subtypes_iff_of_isProgramClass hprogram).2 hC) hi

end Hierarchy

end Devirt
