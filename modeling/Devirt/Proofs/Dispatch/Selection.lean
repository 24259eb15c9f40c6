import Devirt.Dispatch.Resolver
import Devirt.Execution.Selection
import Devirt.Proofs.Hierarchy.Subtyping
import Mathlib.Data.List.TakeWhile

/-!
What the selections of a hierarchy return: declarations of the signature asked for, each on the
definition that counts for its holder.
-/

namespace Devirt

/-- A declaration of the signature on the definition that counts for its holder. -/
structure Hierarchy.Declares (h : Hierarchy) (s : Signature) (d : Declaration) : Prop where
  holder : h.class? d.holder.name = some d.holder
  method : d.holder.declared? s = some d.method

theorem Selection.ofCandidates_eq_single {α : Type} {l : List α} {a : α} :
    Selection.ofCandidates l = .single a ↔ l = [a] := by
  match l with
  | [] => simp [ofCandidates]
  | [b] => simp [ofCandidates]
  | _ :: _ :: _ => simp [ofCandidates]

namespace Hierarchy

variable {h : Hierarchy} {s : Signature} {d e r : Declaration} {t : TypeName}

namespace Declares

theorem signature (hd : h.Declares s d) : d.method.signature = s :=
  Class.signature_of_declared? hd.method

theorem ref (hd : h.Declares s d) : d.ref = ⟨d.holder.name, s⟩ := by
  rw [Declaration.ref, Class.methodRef, hd.signature]

/-- The holder's name fixes the declaration. -/
theorem eq_of_name (hd : h.Declares s d) (he : h.Declares s e)
    (hname : d.holder.name = e.holder.name) : d = e := by
  have hholder : d.holder = e.holder := by
    have := hd.holder
    rw [hname, he.holder] at this
    exact (Option.some.inj this).symm
  have hmethod : d.method = e.method := by
    have := hd.method
    rw [hholder, he.method] at this
    exact (Option.some.inj this).symm
  cases d
  cases e
  simp_all

theorem eq_of_ref (hd : h.Declares s d) (he : h.Declares s e) (href : d.ref = e.ref) : d = e :=
  hd.eq_of_name he (congrArg MethodRef.holder href)

theorem declaration? (hd : h.Declares s d) : h.declaration? d.ref = some d := by
  simp [hd.ref, Hierarchy.declaration?, hd.holder, hd.method]

end Declares

theorem declares_of_declaration? {m : MethodRef} (hd : h.declaration? m = some d) :
    h.Declares m.signature d ∧ d.holder.name = m.holder := by
  simp only [Hierarchy.declaration?, Option.bind_eq_some_iff, Option.map_eq_some_iff] at hd
  obtain ⟨c, hc, x, hx, rfl⟩ := hd
  exact ⟨⟨class?_name hc, hx⟩, name_of_class? hc⟩

theorem mem_interfaceDeclarations :
    d ∈ h.interfaceDeclarations t s ↔
      d.holder.name ∈ h.superinterfaces t ∧ h.Declares s d ∧ d.method.isVirtual = true := by
  simp only [interfaceDeclarations, List.mem_filterMap, Option.bind_eq_some_iff,
    Option.map_eq_some_iff, Option.filter_eq_some_iff]
  constructor
  · rintro ⟨i, hi, c, hc, x, ⟨hx, hv⟩, rfl⟩
    exact ⟨by rwa [name_of_class? hc], ⟨class?_name hc, hx⟩, hv⟩
  · rintro ⟨hi, hd, hv⟩
    exact ⟨_, hi, _, hd.holder, _, ⟨hd.method, hv⟩, rfl⟩

theorem mem_interfaceDeclarations_of_mem_mostSpecific (hd : d ∈ h.mostSpecific t s) :
    d ∈ h.interfaceDeclarations t s := List.mem_of_mem_filter hd

theorem mem_of_interfaceMethod? (hd : h.interfaceMethod? t s = some d) :
    d ∈ h.interfaceDeclarations t s := by
  refine mem_interfaceDeclarations_of_mem_mostSpecific ?_
  simp only [interfaceMethod?] at hd
  split at hd
  · rename_i e heq
    obtain rfl := Option.some.inj hd
    exact List.mem_of_mem_filter (heq ▸ List.mem_singleton_self e)
  · exact List.mem_of_mem_head? hd

theorem interfaceMethod?_eq_none_iff :
    h.interfaceMethod? t s = none ↔ h.mostSpecific t s = [] := by
  simp only [interfaceMethod?]
  constructor
  · intro hnone
    split at hnone
    · cases hnone
    · exact List.head?_eq_none_iff.1 hnone
  · intro hnil
    rw [hnil]
    rfl

theorem declares_of_interfaceMethod? (hd : h.interfaceMethod? t s = some d) :
    h.Declares s d := (mem_interfaceDeclarations.1 (mem_of_interfaceMethod? hd)).2.1

/-- The first declaration on the way up. -/
theorem declares_of_findSome?_superclasses
    (hd : (h.superclasses t).findSome? (fun c => (c.declared? s).map (Declaration.mk c)) =
      some d) : h.Declares s d ∧ d.holder ∈ h.superclasses t := by
  obtain ⟨c, hc, hcd⟩ := List.exists_of_findSome?_eq_some hd
  obtain ⟨x, hx, rfl⟩ := Option.map_eq_some_iff.1 hcd
  exact ⟨⟨class?_of_mem_superclasses hc, hx⟩, hc⟩

theorem declares_of_findOnClass? (hd : h.findOnClass? s t = some d) : h.Declares s d := by
  unfold findOnClass? at hd
  split at hd
  · rename_i e he
    obtain rfl := Option.some.inj hd
    exact (declares_of_findSome?_superclasses he).1
  · exact declares_of_interfaceMethod? hd

theorem declares_of_find? {m : MethodRef} (hr : h.find? m = some r) :
    h.Declares m.signature r := by
  simp only [find?, Option.bind_eq_some_iff] at hr
  obtain ⟨c, hc, hr⟩ := hr
  split at hr
  · -- an interface: its own declaration, the root's, or one of its superinterfaces
    unfold findOnInterface? at hr
    split at hr
    · rename_i x hx
      obtain rfl := Option.some.inj hr
      exact ⟨class?_name hc, hx⟩
    · split at hr
      · rename_i d hd
        split at hr
        · obtain rfl := Option.some.inj hr
          exact (declares_of_declaration? hd).1
        · exact declares_of_interfaceMethod? hr
      · exact declares_of_interfaceMethod? hr
  · exact declares_of_findOnClass? hr

theorem defaultMethod_eq_single (hd : h.defaultMethod t s = .single d) :
    (h.mostSpecific t s).filter (fun d => !d.method.isAbstract) = [d] :=
  Selection.ofCandidates_eq_single.1 hd

/-- A selected default stands on a superinterface. -/
theorem mem_of_defaultMethod (hd : h.defaultMethod t s = .single d) :
    d ∈ h.mostSpecific t s ∧ d.method.isAbstract = false := by
  have hmem : d ∈ (h.mostSpecific t s).filter fun d => !d.method.isAbstract := by
    rw [defaultMethod_eq_single hd]
    exact List.mem_singleton_self d
  simpa using hmem

theorem declares_of_defaultMethod (hd : h.defaultMethod t s = .single d) :
    d.holder.name ∈ h.superinterfaces t ∧ h.Declares s d := by
  have hmem := mem_interfaceDeclarations_of_mem_mostSpecific (mem_of_defaultMethod hd).1
  have := mem_interfaceDeclarations.1 hmem
  exact ⟨this.1, this.2.1⟩

/-- The classes that dispatch looks through on the way up. -/
theorem mem_superclasses_of_mem_takeWhile {c : Class}
    (hc : c ∈ (h.superclasses t).takeWhile fun c => !c.isInterface) :
    c ∈ h.superclasses t ∧ c.isInterface = false :=
  ⟨(List.takeWhile_prefix _).subset hc, by simpa using List.mem_takeWhile_imp hc⟩

theorem declares_of_firstOverride? (hr : r.method.signature = s)
    (hd : h.firstOverride? t r = some d) :
    h.Declares s d ∧ d.holder ∈ h.superclasses t ∧ d.holder.isInterface = false ∧
      overrides d r = true := by
  obtain ⟨c, hc, hcd⟩ := List.exists_of_findSome?_eq_some hd
  obtain ⟨hcd, hov⟩ := Option.filter_eq_some_iff.1 hcd
  obtain ⟨x, hx, rfl⟩ := Option.map_eq_some_iff.1 hcd
  obtain ⟨hmem, hi⟩ := mem_superclasses_of_mem_takeWhile hc
  exact ⟨⟨class?_of_mem_superclasses hmem, hr ▸ hx⟩, hmem, hi, hov⟩

/-- Dispatch takes the first override, and only without one a default method. -/
theorem dispatchFrom_eq_single :
    h.dispatchFrom t r = .single d ↔
      (h.firstOverride? t r = some d ∧ d.method.isAbstract = false) ∨
        (h.firstOverride? t r = none ∧ h.defaultMethod t r.method.signature = .single d) := by
  unfold dispatchFrom
  cases hf : h.firstOverride? t r with
  | none => simp
  | some e =>
    by_cases ha : e.method.isAbstract = true
    · simp only [ha, if_true, reduceCtorEq, Option.some.injEq, false_and,
        or_false, false_iff, not_and]
      rintro rfl
      simp [ha]
    · simp only [ha, Bool.false_eq_true, if_false, Selection.single.injEq, Option.some.injEq,
        reduceCtorEq, false_and, or_false]
      exact ⟨fun he => ⟨he, by simpa [he] using ha⟩, fun he => he.1⟩

theorem declares_of_dispatchFrom (hr : r.method.signature = s)
    (hd : h.dispatchFrom t r = .single d) : h.Declares s d ∧ d.method.isAbstract = false := by
  rcases dispatchFrom_eq_single.1 hd with ⟨hf, ha⟩ | ⟨-, hf⟩
  · exact ⟨(declares_of_firstOverride? hr hf).1, ha⟩
  · rw [hr] at hf
    exact ⟨(declares_of_defaultMethod hf).2, (mem_of_defaultMethod hf).2⟩

/-- A super call reaches the first declaration above its class, or a default method. -/
theorem dispatchSuper_eq_single {m : MethodRef} {K : TypeName}
    (hd : h.dispatchSuper m K = .single d) :
    ∃ S, h.superclass? K = some S ∧ d.method.isAbstract = false ∧
      (h.Declares m.signature d ∧ (∃ before after, h.superclasses S = before ++ d.holder :: after ∧
        ∀ c ∈ before, c.declared? m.signature = none) ∨
      h.defaultMethod S m.signature = .single d) := by
  simp only [dispatchSuper] at hd
  split at hd
  · split at hd
    · simp at hd
    · rename_i S hS
      refine ⟨S, hS, ?_⟩
      split at hd
      · rename_i e he
        split at hd
        · simp at hd
        · rename_i ha
          obtain rfl := Selection.single.inj hd
          refine ⟨by simpa using ha, .inl ⟨(declares_of_findSome?_superclasses he).1, ?_⟩⟩
          obtain ⟨before, c, after, hsplit, hc, hbefore⟩ := List.findSome?_eq_some_iff.1 he
          obtain ⟨x, -, rfl⟩ := Option.map_eq_some_iff.1 hc
          exact ⟨before, after, hsplit, fun c hc => by simpa using hbefore c hc⟩
      · exact ⟨(mem_of_defaultMethod hd).2, .inr hd⟩
  · simp at hd

theorem declares_of_dispatchSuper {m : MethodRef} {K : TypeName}
    (hd : h.dispatchSuper m K = .single d) : h.Declares m.signature d := by
  obtain ⟨S, -, -, ⟨hdecl, -⟩ | hdefault⟩ := dispatchSuper_eq_single hd
  · exact hdecl
  · exact (declares_of_defaultMethod hdefault).2

/-- What an answer stands for: a resolved declaration, and the selected one, which the calling
class may name. -/
theorem answer_eq_single_iff {kind : DispatchKind} {m m' : MethodRef} {c : ReferenceType}
    {context : TypeName} :
    h.answer kind m c context = .single m' ↔
      ∃ r d, h.find? m = some r ∧ h.select kind m c context r = .single d ∧
        (d.holder.isInterface = true → kind = .interface) ∧
        h.declarationAccessible d context = true ∧ m' = d.ref := by
  constructor
  · intro ha
    unfold answer at ha
    split at ha
    · simp at ha
    · rename_i r hr
      split at ha
      · simp at ha
      · simp at ha
      · rename_i d hd
        by_cases hk : (d.holder.isInterface && kind ≠ .interface) = true
        · rw [if_pos hk] at ha
          simp at ha
        · rw [if_neg hk] at ha
          split at ha
          · rename_i hacc
            refine ⟨r, d, hr, hd, ?_, hacc, by simpa using ha.symm⟩
            intro hi
            simpa [hi] using hk
          · simp at ha
  · rintro ⟨r, d, hr, hd, hi, hacc, rfl⟩
    have hk : ¬ (d.holder.isInterface && kind ≠ .interface) = true := by
      intro hk
      rw [Bool.and_eq_true, decide_eq_true_eq] at hk
      exact hk.2 (hi hk.1)
    simp only [answer, hr, hd, if_neg hk, if_pos hacc]

theorem answer_eq_single {kind : DispatchKind} {m m' : MethodRef} {c : ReferenceType}
    {context : TypeName} (ha : h.answer kind m c context = .single m') :
    ∃ r d, h.find? m = some r ∧ h.select kind m c context r = .single d ∧
      (d.holder.isInterface = true → kind = .interface) ∧
      h.declarationAccessible d context = true ∧ m' = d.ref :=
  answer_eq_single_iff.1 ha

end Hierarchy

end Devirt
