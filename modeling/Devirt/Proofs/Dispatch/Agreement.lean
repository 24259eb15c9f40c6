import Devirt.Proofs.Dispatch.Overriding
import Devirt.Proofs.Dispatch.Specificity
import Devirt.Proofs.Outcome

/-!
When the method resolved for a receiver of a known class is the method that runs on it. The two
selections differ in what they make of visibility: resolution compares a candidate with the
resolved declaration, execution with the type named in the call. So they may part where the resolved
method is private or a package member. They also differ on default methods: resolution wants one that
is more specific than the other ones, execution one that is more specific than everything declared.
-/

namespace Devirt

/-- Nothing that the class declares overrides the declaration, unless it is the declaration itself:
either this one is private, or it is a package member and the class lies in another package. -/
def Declaration.HiddenFrom (r : Declaration) (c : Class) : Prop :=
  r.method.visibility = .holder ∨
    r.method.visibility = .package ∧ c.package ≠ r.holder.package

instance (r : Declaration) (c : Class) : Decidable (r.HiddenFrom c) :=
  inferInstanceAs (Decidable (_ ∨ _))

namespace Hierarchy

variable {h : Hierarchy} {s : Signature} {d e r : Declaration} {m t : MethodRef}
  {C context : TypeName} {kind : DispatchKind}

/-- Whether the class declares a method that answers the call at run time. -/
def answering (h : Hierarchy) (m : MethodRef) (c : Class) : Bool :=
  (c.declared? m.signature).any (h.answersCall c · m)

theorem Declares.answering (hd : h.Declares m.signature d) :
    h.answering m d.holder = h.answersCall d.holder d.method m := by
  simp [Hierarchy.answering, hd.method]

theorem Declares.isVirtual_of_answering (hd : h.Declares m.signature d)
    (hans : h.answering m d.holder = true) : d.method.isVirtual = true := by
  rw [hd.answering] at hans
  simp only [answersCall, Bool.and_eq_true] at hans
  exact hans.1

theorem exists_declares_of_answering {c : Class} (hc : h.class? c.name = some c)
    (hans : h.answering m c = true) : ∃ d, h.Declares m.signature d ∧ d.holder = c := by
  cases hx : c.declared? m.signature with
  | none => simp [Hierarchy.answering, hx] at hans
  | some x => exact ⟨⟨c, x⟩, ⟨hc, hx⟩, rfl⟩

/-- A package member answers a call if the type named in the call is of its package. -/
theorem answering_iff_samePackage (hd : h.Declares m.signature d) (hv : d.method.isVirtual = true)
    (hr : h.find? m = some r) :
    h.answering m d.holder = true ↔
      (d.method.visibility = .package → h.samePackage d.holder.name m.holder = true) := by
  obtain ⟨c, hc, -⟩ := Option.bind_eq_some_iff.1 hr
  rw [hd.answering]
  by_cases hname : d.holder.name = m.holder
  · simp [answersCall, samePackage, hv, hname, hc]
  · simp only [answersCall, samePackage, hv, hname, hd.holder, hc, Bool.true_and, Bool.or_eq_true,
      decide_eq_true_eq, or_false, Option.any_some, eq_comm (a := c.package), Decidable.imp_iff_not_or,
      ne_eq]

private theorem filter_answersCall_eq_none {c : Class} :
    ((c.declared? m.signature).filter (h.answersCall c · m)).map (Declaration.mk c) = none ↔
      h.answering m c = false := by
  rw [Option.map_eq_none_iff, Option.filter_eq_none_iff, Hierarchy.answering]
  cases c.declared? m.signature <;> simp

/-- At run time the first class on the way up that answers the call decides. -/
theorem selectFrom_of_answering {before after : List Class} (hd : h.Declares m.signature d)
    (hsplit : h.superclasses C = before ++ d.holder :: after)
    (hbefore : ∀ c ∈ before, h.answering m c = false) (hans : h.answering m d.holder = true)
    (ha : d.method.isAbstract = false) : h.selectFrom C m = .ok d.ref := by
  have hfound : (h.superclasses C).findSome? (fun c =>
      ((c.declared? m.signature).filter (h.answersCall c · m)).map (Declaration.mk c)) =
        some d := by
    rw [hsplit, List.findSome?_append, List.findSome?_eq_none_iff.2 fun c hc =>
      filter_answersCall_eq_none.2 (hbefore c hc)]
    rw [hd.answering] at hans
    simp [hd.method, Option.filter, hans]
  simp only [selectFrom, hfound, ha, Bool.false_eq_true, if_false]

/-- Where no class answers, the superinterfaces decide. -/
theorem selectFrom_of_silent (hsilent : ∀ c ∈ h.superclasses C, h.answering m c = false) :
    h.selectFrom C m = h.selectDefault C m := by
  have hfound : (h.superclasses C).findSome? (fun c =>
      ((c.declared? m.signature).filter (h.answersCall c · m)).map (Declaration.mk c)) = none :=
    List.findSome?_eq_none_iff.2 fun c hc => filter_answersCall_eq_none.2 (hsilent c hc)
  simp only [selectFrom, hfound]

/-- The two ways in which a selection at run time succeeds. -/
theorem selectFrom_eq_ok (hok : h.selectFrom C m = .ok t) :
    (∃ d before after, h.Declares m.signature d ∧ d.ref = t ∧
      h.superclasses C = before ++ d.holder :: after ∧
      (∀ c ∈ before, h.answering m c = false) ∧ h.answering m d.holder = true) ∨
    ((∀ c ∈ h.superclasses C, h.answering m c = false) ∧ h.selectDefault C m = .ok t) := by
  simp only [selectFrom] at hok
  split at hok
  · rename_i d hfound
    left
    obtain ⟨before, c, after, hsplit, hc, hbefore⟩ := List.findSome?_eq_some_iff.1 hfound
    obtain ⟨x, hx, rfl⟩ := Option.map_eq_some_iff.1 hc
    obtain ⟨hx, hans⟩ := Option.filter_eq_some_iff.1 hx
    have hmem : c ∈ h.superclasses C := by rw [hsplit]; simp
    refine ⟨⟨c, x⟩, before, after, ⟨class?_of_mem_superclasses hmem, hx⟩, ?_, hsplit, ?_, ?_⟩
    · split at hok
      · simp at hok
      · simpa using hok
    · exact fun c hc => filter_answersCall_eq_none.1 (hbefore c hc)
    · simp [Hierarchy.answering, hx, hans]
  · rename_i hfound
    right
    refine ⟨fun c hc => ?_, hok⟩
    exact filter_answersCall_eq_none.1 (List.findSome?_eq_none_iff.1 hfound c hc)

/-! ### What is left of the superinterfaces -/

theorem Declares.declared? (hd : h.Declares s d) :
    h.declared? ⟨d.holder.name, s⟩ = some d.method := by
  simp [Hierarchy.declared?, hd.holder, hd.method]

theorem isSome_declared?_iff {i : TypeName} :
    (h.declared? ⟨i, s⟩).isSome = true ↔ ∃ e, h.Declares s e ∧ e.holder.name = i := by
  constructor
  · intro hsome
    obtain ⟨x, hx⟩ := Option.isSome_iff_exists.1 hsome
    obtain ⟨c, hc, hx⟩ := Option.bind_eq_some_iff.1 hx
    exact ⟨⟨c, x⟩, ⟨class?_name hc, hx⟩, name_of_class? hc⟩
  · rintro ⟨e, he, rfl⟩
    rw [he.declared?]
    rfl

/-- A default method runs if it alone is left among the most specific declarations. -/
theorem selectDefault_eq_ok_iff (hd : h.Declares m.signature d)
    (ha : d.method.isAbstract = false) :
    h.selectDefault C m = .ok d.ref ↔ h.runtimeDefaults C m.signature = [d.holder.name] := by
  constructor
  · intro hok
    simp only [selectDefault] at hok
    split at hok
    · rename_i i hconcrete
      split at hok
      · rename_i hlen
        obtain ⟨j, hj⟩ := List.length_eq_one_iff.1 hlen
        have hij : i ∈ h.runtimeDefaults C m.signature :=
          List.mem_of_mem_filter (hconcrete ▸ List.mem_singleton_self i)
        rw [hj, List.mem_singleton] at hij
        have hname : i = d.holder.name := by
          have := congrArg MethodRef.holder (Except.ok.inj hok)
          rwa [hd.ref] at this
        rw [hj, ← hij, hname]
      · simp at hok
    · simp at hok
    · simp at hok
  · intro hspec
    simp only [selectDefault, hspec, List.filter_cons, hd.declared?, Option.any_some, ha, Bool.not_false,
      if_true, List.filter_nil, List.length_singleton]
    rw [hd.ref]
    rfl

/-- A selected default is declared by a superinterface. -/
theorem mem_superinterfaces_of_selectDefault (hok : h.selectDefault C m = .ok t) :
    t.holder ∈ h.superinterfaces C ∧ h.isDefined t.holder = true := by
  simp only [selectDefault] at hok
  split at hok
  · rename_i i hconcrete
    split at hok
    · have hi : i ∈ h.runtimeDefaults C m.signature :=
        List.mem_of_mem_filter (hconcrete ▸ List.mem_singleton_self i)
      have hcand := List.mem_filter.1 (List.mem_of_mem_filter hi)
      obtain rfl := Except.ok.inj hok
      obtain ⟨e, he, hname⟩ := isSome_declared?_iff.1 hcand.2
      exact ⟨hcand.1, by simp [isDefined, ← hname, he.holder]⟩
    · simp at hok
  · simp at hok
  · simp at hok

/-! ### Overrides on classes -/

/-- What does not override the resolved method answers the call only where that method is hidden. -/
theorem hiddenFrom_of_answering (hd : h.Declares m.signature d) (hov : overrides d r = false)
    (hans : h.answering m d.holder = true) : r.HiddenFrom d.holder := by
  simp only [overrides, hd.isVirtual_of_answering hans, Bool.true_and, Bool.or_eq_false_iff] at hov
  cases hvis : r.method.visibility with
  | everywhere => simp [hvis] at hov
  | subclasses => simp [hvis] at hov
  | package => exact .inr ⟨hvis, by simpa [hvis] using hov.2⟩
  | holder => exact .inl hvis

/-- Where classes do not override the resolved method, only those can answer the call from which it is
hidden. -/
theorem silent_of_hidden {l : List Class} (hl : ∀ c ∈ l, h.class? c.name = some c)
    (hnov : ∀ e, h.Declares m.signature e → e.holder ∈ l → overrides e r = false)
    (hhidden : ∀ c ∈ l, r.HiddenFrom c → h.answering m c = false) :
    ∀ c ∈ l, h.answering m c = false := by
  intro c hc
  by_contra hans
  rw [Bool.not_eq_false] at hans
  obtain ⟨e, he, rfl⟩ := exists_declares_of_answering (hl c hc) hans
  have hsilent := hhidden _ hc (hiddenFrom_of_answering he (hnov e he hc) hans)
  rw [hans] at hsilent
  exact Bool.noConfusion hsilent

/-- The override found on the way up is private only as the resolved declaration itself. -/
theorem isVirtual_of_overrides (hd : h.Declares s d) (hr : h.Declares s r)
    (hov : overrides d r = true) (hv : d.method.isVirtual = true) :
    r.method.isVirtual = true := by
  by_contra hnot
  have hvis : r.method.visibility = .holder := by simpa [Method.isVirtual] using hnot
  have hname : d.holder.name = r.holder.name := by simpa [overrides, hvis] using hov
  rw [hd.eq_of_name hr hname] at hv
  exact hnot hv

/-- An override on a class runs unless visibility at run time says otherwise. -/
theorem selectFrom_override_iff (hfind : h.find? m = some r) (hf : h.firstOverride? C r = some d)
    (ha : d.method.isAbstract = false) (hint : d.holder.name ∉ h.superinterfaces C) :
    h.selectFrom C m = .ok d.ref ↔
      r.method.isVirtual = true ∧
        (d.method.visibility = .package → h.samePackage d.holder.name m.holder = true) ∧
        ∀ c ∈ (h.superclasses C).takeWhile (·.name ≠ d.holder.name),
          r.HiddenFrom c → h.answering m c = false := by
  have hr := declares_of_find? hfind
  obtain ⟨hd, -, -, hov⟩ := declares_of_firstOverride? hr.signature hf
  constructor
  · intro hok
    rcases selectFrom_eq_ok hok with ⟨e, before, after, he, href, hsplit, hbefore, hans⟩ | ⟨-, hok⟩
    · obtain rfl := he.eq_of_ref hd href
      have hv := he.isVirtual_of_answering hans
      refine ⟨isVirtual_of_overrides he hr hov hv, (answering_iff_samePackage he hv hfind).1 hans,
        fun c hc _ => hbefore c ?_⟩
      rw [hsplit, List.takeWhile_append] at hc
      split at hc
      · simpa using hc
      · exact (List.takeWhile_prefix _).subset hc
    · -- a default stands on a superinterface, and the override does not
      have hsup := (mem_superinterfaces_of_selectDefault hok).1
      rw [hd.ref] at hsup
      exact absurd hsup hint
  · rintro ⟨hv, hpackage, hhidden⟩
    obtain ⟨before, after, hsplit, -, hnov, hbefore⟩ := exists_way_of_firstOverride? hr hf
    rw [hbefore] at hhidden
    have hdv := ((hd.overrides_iff hr hv).1 hov).1
    have hclass : ∀ c ∈ before, h.class? c.name = some c := fun c hc =>
      class?_of_mem_superclasses (hsplit ▸ List.mem_append_left _ hc)
    exact selectFrom_of_answering hd hsplit (silent_of_hidden hclass hnov hhidden)
      ((answering_iff_samePackage hd hdv hfind).2 hpackage) ha

/-! ### Default methods -/

theorem mem_runtimeDefaults_iff {i : TypeName} :
    i ∈ h.runtimeDefaults C s ↔
      (∃ e, h.Declares s e ∧ e.holder.name = i ∧ i ∈ h.superinterfaces C) ∧
        ∀ e, h.Declares s e → e.holder.name ∈ h.superinterfaces C →
          h.isSubtype e.holder.name i = true → e.holder.name = i := by
  simp only [runtimeDefaults, List.mem_filter, isSome_declared?_iff, Bool.not_eq_true', List.any_eq_false,
    Bool.and_eq_true, decide_eq_true_eq, ne_eq, not_and]
  constructor
  · rintro ⟨⟨hi, e, he, hname⟩, hlowest⟩
    refine ⟨⟨e, he, hname, hi⟩, fun x hx hmem hsub => ?_⟩
    by_contra hne
    exact hlowest _ ⟨hmem, x, hx, rfl⟩ hne hsub
  · rintro ⟨⟨e, he, hname, hi⟩, hlowest⟩
    refine ⟨⟨hi, e, he, hname⟩, ?_⟩
    rintro j ⟨hmem, x, hx, rfl⟩ hne hsub
    exact hne (hlowest x hx hmem hsub)

section Defaults

variable (hacyclic : h.Acyclic) (hroot : h.class? rootType = some Class.root)
include hacyclic hroot

/-- One declaration is left at run time if it stands below all that the superinterfaces declare. -/
theorem runtimeDefaults_eq_singleton_iff (hd : h.Declares s d)
    (hmem : d.holder.name ∈ h.superinterfaces C) :
    h.runtimeDefaults C s = [d.holder.name] ↔
      ∀ e, h.Declares s e → e.holder.name ∈ h.superinterfaces C →
        h.isSubtype d.holder.name e.holder.name = true := by
  constructor
  · intro honly e he hmem
    obtain ⟨j, hj, hje, hlowest⟩ := exists_lowest
      (p := fun i => ∃ x, h.Declares s x ∧ x.holder.name = i ∧ i ∈ h.superinterfaces C)
      hacyclic hroot ⟨e, he, rfl, hmem⟩
    have hleft : j ∈ h.runtimeDefaults C s :=
      mem_runtimeDefaults_iff.2 ⟨hj, fun x hx hx' => hlowest _ ⟨x, hx, rfl, hx'⟩⟩
    rw [honly, List.mem_singleton] at hleft
    rwa [hleft] at hje
  · intro hbelow
    have hnodup : (h.runtimeDefaults C s).Nodup := ((nodup_superinterfaces C).filter _).filter _
    apply List.perm_singleton.1
    apply (List.perm_ext_iff_of_nodup hnodup (List.nodup_singleton _)).2
    intro i
    rw [mem_runtimeDefaults_iff, List.mem_singleton]
    constructor
    · rintro ⟨⟨e, he, rfl, hi⟩, hlowest⟩
      exact (hlowest d hd hmem (hbelow e he hi)).symm
    · rintro rfl
      refine ⟨⟨d, hd, rfl, hmem⟩, fun e he hi hed => ?_⟩
      exact hacyclic.isSubtype_antisymm hroot hed (hbelow e he hi)

/-- The only most specific default stands below every other one that can be overridden, unless an
abstract declaration comes between. -/
theorem isSubtype_of_defaultMethod (hf : h.defaultMethod C s = .single d)
    (habstract : ∀ e, h.Offers C s e → e.method.isAbstract = true →
      h.isSubtype d.holder.name e.holder.name = true) (he : h.Offers C s e) :
    h.isSubtype d.holder.name e.holder.name = true := by
  obtain ⟨x, hx, hxe⟩ := he.exists_mostSpecific hacyclic hroot
  obtain ⟨hoffers, hlowest⟩ := mem_mostSpecific_iff.1 hx
  obtain ⟨hd, hda⟩ := mem_of_defaultMethod hf
  have hd := (mem_mostSpecific_iff.1 hd).1
  have hdx : d = x := by
    cases hxa : x.method.isAbstract with
    | true => exact hd.declares.eq_of_name hoffers.declares (hlowest d hd (habstract x hoffers hxa))
    | false =>
      have hmem : x ∈ (h.mostSpecific C s).filter fun d => !d.method.isAbstract := by
        simp [hx, hxa]
      rw [defaultMethod_eq_single hf, List.mem_singleton] at hmem
      exact hmem.symm
  rwa [hdx]

/-- Without an override the default runs if no class answers from which the resolved method is hidden
and it stands below everything abstract or private. -/
theorem selectFrom_default_iff (hr : h.Declares m.signature r)
    (hnone : h.firstOverride? C r = none) (hf : h.defaultMethod C m.signature = .single d)
    (hi : d.holder.isInterface = true) (hchain : ∀ c ∈ h.superclasses C, c.isInterface = false) :
    h.selectFrom C m = .ok d.ref ↔
      (∀ c ∈ h.superclasses C, r.HiddenFrom c → h.answering m c = false) ∧
        ∀ e, h.Declares m.signature e → e.holder.name ∈ h.superinterfaces C →
          (e.method.isAbstract = true ∨ e.method.isVirtual = false) →
            h.isSubtype d.holder.name e.holder.name = true := by
  obtain ⟨hmem, hd⟩ := declares_of_defaultMethod hf
  have hda := (mem_of_defaultMethod hf).2
  constructor
  · intro hok
    rcases selectFrom_eq_ok hok with ⟨e, before, after, he, href, hsplit, -⟩ | ⟨hsilent, hok⟩
    · obtain rfl := he.eq_of_ref hd href
      have := hchain e.holder (by rw [hsplit]; simp)
      simp [hi] at this
    · rw [selectDefault_eq_ok_iff hd hda,
        runtimeDefaults_eq_singleton_iff hacyclic hroot hd hmem] at hok
      exact ⟨fun c hc _ => hsilent c hc, fun e he hmem _ => hok e he hmem⟩
  · rintro ⟨hhidden, hopen⟩
    rw [firstOverride?_eq_firstDeclared? hr.signature, firstDeclared?_eq_none_iff,
      List.takeWhile_eq_self_iff.2 fun c hc => by simp [hchain c hc]] at hnone
    have hsilent := silent_of_hidden (fun _ hc => class?_of_mem_superclasses hc) hnone hhidden
    rw [selectFrom_of_silent hsilent, selectDefault_eq_ok_iff hd hda,
      runtimeDefaults_eq_singleton_iff hacyclic hroot hd hmem]
    intro e he hmem
    cases hv : e.method.isVirtual with
    | false => exact hopen e he hmem (.inr hv)
    | true =>
      refine isSubtype_of_defaultMethod hacyclic hroot hf (fun x hx hxa => ?_) ⟨hmem, he, hv⟩
      exact hopen x hx.declares hx.superinterface (.inl hxa)

end Defaults

/-- On an acyclic hierarchy in which every name has one definition, resolution for a receiver of
exactly the class `C` names the method that runs on it, under conditions on what resolution leaves
open. A method of a class must be resolved from one that is not private, and, as a package member, be
called by a type of its package; no class from which the resolved method is hidden may answer the
call before. A default method must stand below every abstract or private declaration, and again no
class may answer from which the resolved method is hidden. Both are meant for a class `C` that extends
no interface and does not implement the class of the method. -/
theorem selectTarget_iff_of_answer (ha : h.Acyclic) (hd : h.DefinedOnce) (hkind : kind ≠ .super)
    {n : Nullability} (hans : h.answer kind m ⟨C, n, true⟩ context = .single t)
    (arguments : List RuntimeValue) :
    ∃ r d, h.find? m = some r ∧ h.declaration? t = some d ∧
      (d.holder.isInterface = false → d.holder.name ∉ h.superinterfaces C →
        (h.selectTarget context kind m (.object C :: arguments) = .ok t ↔
          r.method.isVirtual = true ∧
            (d.method.visibility = .package → h.samePackage d.holder.name m.holder = true) ∧
            ∀ c ∈ (h.superclasses C).takeWhile (·.name ≠ d.holder.name),
              r.HiddenFrom c → h.answering m c = false)) ∧
      (d.holder.isInterface = true → (∀ c ∈ h.superclasses C, c.isInterface = false) →
        (h.selectTarget context kind m (.object C :: arguments) = .ok t ↔
          (∀ c ∈ h.superclasses C, r.HiddenFrom c → h.answering m c = false) ∧
            ∀ e, h.Declares m.signature e → e.holder.name ∈ h.superinterfaces C →
              (e.method.isAbstract = true ∨ e.method.isVirtual = false) →
                h.isSubtype d.holder.name e.holder.name = true)) := by
  have hselect : h.selectTarget context kind m (.object C :: arguments) = h.selectFrom C m := by
    cases kind with
    | super => exact absurd rfl hkind
    | virtual => rfl
    | interface => rfl
  obtain ⟨r, d, hfind, hsel, -, -, rfl⟩ := answer_eq_single hans
  have hr := declares_of_find? hfind
  have hdispatch : h.dispatchFrom C r = .single d := by
    cases kind with
    | super => exact absurd rfl hkind
    | virtual => exact hsel
    | interface => exact hsel
  have hdecl := (declares_of_dispatchFrom hr.signature hdispatch).1
  rw [hselect]
  refine ⟨r, d, hfind, hdecl.declaration?, fun hi hint => ?_, fun hi hchain => ?_⟩
  · rcases dispatchFrom_eq_single.1 hdispatch with ⟨hf, hda⟩ | ⟨-, hf⟩
    · exact selectFrom_override_iff hfind hf hda hint
    · exact absurd (declares_of_defaultMethod hf).1 hint
  · rcases dispatchFrom_eq_single.1 hdispatch with ⟨hf, -⟩ | ⟨hnone, hf⟩
    · have := (declares_of_firstOverride? hr.signature hf).2.2.1
      rw [hi] at this
      exact Bool.noConfusion this
    · rw [hr.signature] at hf
      exact selectFrom_default_iff ha hd.class?_rootType hr hnone hf hi hchain

/-- A class with a package member `f` and a public method `g`. -/
def packageBase : Class :=
  { name := "p.A"
    methods := [{ signature := { name := "f" }, visibility := .package },
      { signature := { name := "g" } }] }

/-- Another package redefines both methods, and the first package extends the result. -/
def acrossPackages : Hierarchy :=
  { defined := [packageBase,
      { name := "q.B", superclass := some "p.A"
        methods := [{ signature := { name := "f" } }, { signature := { name := "g" } }] },
      { name := "p.C", superclass := some "q.B" }] }

/-- The class `C` implements an interface and a default method below it. -/
def inheritedDefault : Hierarchy :=
  { defined := [
      { name := "I", isInterface := true
        methods := [{ signature := { name := "f" }, isAbstract := true }] },
      { name := "J", isInterface := true, interfaces := ["I"]
        methods := [{ signature := { name := "f" } }] },
      { name := "C", interfaces := ["I", "J"] }] }

theorem acyclic_acrossPackages : acrossPackages.Acyclic :=
  acyclic_of_rank
    (fun t => if t = rootType then 3 else if t = "p.A" then 2 else if t = "q.B" then 1 else 0)
    (by decide +kernel)

/-- On one receiver the resolved `g` is the method that runs, and the resolved `f` is not. A resolved
default runs below an abstract declaration. -/
theorem selectTarget_acrossPackages :
    acrossPackages.answer .virtual (.plain "p.A" "g") ⟨"p.C", .notNull, true⟩ "p.A" =
        .single (.plain "q.B" "g") ∧
      acrossPackages.selectTarget "p.A" .virtual (.plain "p.A" "g") [.object "p.C"] =
        .ok (.plain "q.B" "g") ∧
      acrossPackages.answer .virtual (.plain "p.A" "f") ⟨"p.C", .notNull, true⟩ "p.A" =
        .single (.plain "p.A" "f") ∧
      acrossPackages.selectTarget "p.A" .virtual (.plain "p.A" "f") [.object "p.C"] ≠
        .ok (.plain "p.A" "f") ∧
      inheritedDefault.answer .interface (.plain "I" "f") ⟨"C", .notNull, true⟩ "C" =
        .single (.plain "J" "f") ∧
      inheritedDefault.selectTarget "C" .interface (.plain "I" "f") [.object "C"] =
        .ok (.plain "J" "f") := by
  have honce : acrossPackages.DefinedOnce := by decide +kernel
  have hg : acrossPackages.answer .virtual (.plain "p.A" "g") ⟨"p.C", .notNull, true⟩ "p.A" =
      .single (.plain "q.B" "g") := by decide +kernel
  have hf : acrossPackages.answer .virtual (.plain "p.A" "f") ⟨"p.C", .notNull, true⟩ "p.A" =
      .single (.plain "p.A" "f") := by decide +kernel
  have hdefault : inheritedDefault.answer .interface (.plain "I" "f") ⟨"C", .notNull, true⟩ "C" =
      .single (.plain "J" "f") := by decide +kernel
  refine ⟨hg, ?_, hf, ?_, hdefault, ?_⟩
  · obtain ⟨r, d, hr, hd, hclass, -⟩ :=
      selectTarget_iff_of_answer acyclic_acrossPackages honce (by decide) hg []
    obtain rfl := Option.some.inj (hr.symm.trans
      (show _ = some ⟨packageBase, { signature := { name := "g" } }⟩ by decide +kernel))
    have hholder : ∀ e ∈ acrossPackages.declaration? (.plain "q.B" "g"),
        e.holder.isInterface = false ∧ e.holder.name = "q.B" ∧
          e.method.visibility = .everywhere := by decide +kernel
    obtain ⟨hi, hname, hvis⟩ := hholder d hd
    rw [hname, hvis] at hclass
    exact (hclass hi (by decide +kernel)).2 (by decide +kernel)
  · obtain ⟨r, d, hr, hd, hclass, -⟩ :=
      selectTarget_iff_of_answer acyclic_acrossPackages honce (by decide) hf []
    obtain rfl := Option.some.inj (hr.symm.trans (show _ = some
      ⟨packageBase, { signature := { name := "f" }, visibility := .package }⟩ by decide +kernel))
    have hholder : ∀ e ∈ acrossPackages.declaration? (.plain "p.A" "f"),
        e.holder.isInterface = false ∧ e.holder.name = "p.A" := by decide +kernel
    obtain ⟨hi, hname⟩ := hholder d hd
    rw [hname] at hclass
    intro hrun
    have hsilent := ((hclass hi (by decide +kernel)).1 hrun).2.2
    exact absurd hsilent (by decide +kernel)
  · obtain ⟨r, d, hr, hd, -, hinterface⟩ := selectTarget_iff_of_answer
      (acyclic_of_rank (fun t => if t = rootType then 3 else if t = "I" then 2 else
        if t = "J" then 1 else 0) (by decide +kernel)) (by decide +kernel) (by decide) hdefault []
    have hholder : ∀ e ∈ inheritedDefault.declaration? (.plain "J" "f"),
        e.holder.isInterface = true ∧ e.holder.name = "J" := by decide +kernel
    obtain ⟨hi, hname⟩ := hholder d hd
    rw [hname] at hinterface
    refine (hinterface hi (by decide +kernel)).2 ⟨?_, fun e _ hmem _ => ?_⟩
    · have hsilent : ∀ c ∈ inheritedDefault.superclasses "C",
          inheritedDefault.answering (.plain "I" "f") c = false := by decide +kernel
      exact fun c hc _ => hsilent c hc
    · have hbelow : ∀ i ∈ inheritedDefault.superinterfaces "C",
          inheritedDefault.isSubtype "J" i = true := by decide +kernel
      exact hbelow _ hmem

/-- A class with a private method of its own. -/
def ownPrivate : Hierarchy :=
  { defined := [
      { name := "A", methods := [{ signature := { name := "f" }, visibility := .holder }] }] }

/-- The class `C` extends an interface and implements another one that overrides it. -/
def extendedInterface : Hierarchy :=
  { defined := [
      { name := "I", isInterface := true, methods := [{ signature := { name := "f" } }] },
      { name := "J", isInterface := true, interfaces := ["I"]
        methods := [{ signature := { name := "f" } }] },
      { name := "C", superclass := some "I", interfaces := ["J"] }] }

/-- The class `C` implements two classes, next to an interface that is unrelated to them. -/
def implementedClass : Hierarchy :=
  { defined := [
      { name := "D", methods := [{ signature := { name := "f" } }] },
      { name := "J", isInterface := true
        methods := [{ signature := { name := "f" }, isAbstract := true }] },
      { name := "K", superclass := some "D", methods := [{ signature := { name := "g" } }] },
      { name := "C", interfaces := ["K", "D", "J"] }] }

theorem acyclic_implementedClass : implementedClass.Acyclic :=
  acyclic_of_rank
    (fun t => if t = rootType then 3 else if t = "D" ∨ t = "J" then 2 else if t = "K" then 1 else 0)
    (by decide +kernel)

/-- The class `C` inherits a default method and an abstract declaration from unrelated interfaces. -/
def besideAbstract : Hierarchy :=
  { defined := [
      { name := "I", isInterface := true, methods := [{ signature := { name := "f" } }] },
      { name := "J", isInterface := true
        methods := [{ signature := { name := "f" }, isAbstract := true }] },
      { name := "C", interfaces := ["I", "J"] }] }

/-- Resolution for a receiver of exactly the class `C` names a method that does not run on it. -/
def Misnames (h : Hierarchy) (kind : DispatchKind) (m : MethodRef) (C context : TypeName) : Prop :=
  h.Acyclic ∧ h.DefinedOnce ∧ h.isInstantiated C = true ∧ h.isSubtype C m.holder = true ∧
    ∃ t, h.answer kind m ⟨C, .notNull, true⟩ context = .single t ∧
      h.selectTarget context kind m [.object C] ≠ .ok t

/-- A package member is resolved although a class of another package has redefined it on the way to
the receiver, but the redefinition runs. A private method is resolved for calls of its own class, and
a default method next to an abstract declaration, but neither runs. Where an interface stands among
the superclasses, or a class among the superinterfaces, the search for the method that runs goes
another way. -/
theorem answer_misnames :
    acrossPackages.Misnames .virtual (.plain "p.A" "f") "p.C" "p.A" ∧
      ownPrivate.Misnames .virtual (.plain "A" "f") "A" "A" ∧
      besideAbstract.Misnames .interface (.plain "I" "f") "C" "C" ∧
      extendedInterface.Misnames .interface (.plain "I" "f") "C" "C" ∧
      implementedClass.Misnames .virtual (.plain "D" "f") "C" "C" := by
  refine ⟨⟨acyclic_acrossPackages,
      by decide +kernel, by decide +kernel, by decide +kernel, .plain "p.A" "f", ?_⟩,
    ⟨acyclic_of_rank (fun t => if t = rootType then 1 else 0) (by decide +kernel),
      by decide +kernel, by decide +kernel, by decide +kernel, .plain "A" "f", ?_⟩,
    ⟨acyclic_of_rank (fun t => if t = rootType then 2 else if t = "C" then 0 else 1)
        (by decide +kernel),
      by decide +kernel, by decide +kernel, by decide +kernel, .plain "I" "f", ?_⟩,
    ⟨acyclic_of_rank (fun t => if t = rootType then 3 else if t = "I" then 2 else
        if t = "J" then 1 else 0) (by decide +kernel),
      by decide +kernel, by decide +kernel, by decide +kernel, .plain "J" "f", ?_⟩,
    ⟨acyclic_implementedClass,
      by decide +kernel, by decide +kernel, by decide +kernel, .plain "D" "f", ?_⟩⟩
  all_goals decide +kernel

end Hierarchy

end Devirt
