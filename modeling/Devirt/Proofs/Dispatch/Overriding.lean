import Devirt.Proofs.Dispatch.Selection

/-!
The override relation among the declarations of one signature, and how dispatch depends on it. For
a method that is not private, what overrides it is decided by visibility and packages alone, so two
such methods that agree on these are dispatched alike.
-/

namespace Devirt

namespace Hierarchy

variable {h : Hierarchy} {s : Signature} {d e r r' : Declaration} {C : TypeName}

/-- A method that is not private is overridden by what is not private, within its package if it is
a package member. -/
theorem Declares.overrides_iff (he : h.Declares s e) (hr : h.Declares s r)
    (hv : r.method.isVirtual = true) :
    overrides e r = true ↔ e.method.isVirtual = true ∧
      (r.method.visibility = .package → e.holder.package = r.holder.package) := by
  by_cases hname : e.holder.name = r.holder.name
  · obtain rfl := he.eq_of_name hr hname
    simp [overrides, hv]
  · cases hvis : r.method.visibility <;> simp_all [overrides, Method.isVirtual]

theorem overrides_self (d : Declaration) : overrides d d = true := by
  simp [overrides]

/-- The first declaration of a kind on the way up from a class, as far as the first interface. -/
def firstDeclared? (h : Hierarchy) (C : TypeName) (s : Signature) (p : Declaration → Bool) :
    Option Declaration :=
  ((h.superclasses C).takeWhile fun c => !c.isInterface).findSome? fun c =>
    ((c.declared? s).map (Declaration.mk c)).filter p

theorem firstOverride?_eq_firstDeclared? (hr : r.method.signature = s) :
    h.firstOverride? C r = h.firstDeclared? C s (overrides · r) := by
  rw [firstOverride?, firstDeclared?, hr]

section FirstDeclared

variable {p q : Declaration → Bool}

/-- What is found, with what stands before it on the way up. -/
theorem firstDeclared?_eq_some_iff :
    h.firstDeclared? C s p = some d ↔ h.Declares s d ∧ p d = true ∧ ∃ before after,
      (h.superclasses C).takeWhile (fun c => !c.isInterface) = before ++ d.holder :: after ∧
        ∀ e, h.Declares s e → e.holder ∈ before → p e = false := by
  constructor
  · intro hf
    obtain ⟨before, c, after, hsplit, hc, hbefore⟩ := List.findSome?_eq_some_iff.1 hf
    obtain ⟨hc, hp⟩ := Option.filter_eq_some_iff.1 hc
    obtain ⟨x, hx, rfl⟩ := Option.map_eq_some_iff.1 hc
    have hmem : c ∈ h.superclasses C := (List.takeWhile_prefix _).subset (by rw [hsplit]; simp)
    refine ⟨⟨class?_of_mem_superclasses hmem, hx⟩, hp, before, after, hsplit, fun e he hmem => ?_⟩
    have := hbefore e.holder hmem
    rw [he.method] at this
    simpa [Option.filter] using this
  · rintro ⟨hd, hp, before, after, hsplit, hbefore⟩
    refine List.findSome?_eq_some_iff.2 ⟨before, d.holder, after, hsplit, ?_, fun c hc => ?_⟩
    · simp [hd.method, Option.filter, hp]
    · have hmem : c ∈ h.superclasses C := (List.takeWhile_prefix _).subset (by rw [hsplit]; simp [hc])
      cases hx : c.declared? s with
      | none => simp
      | some x =>
        have := hbefore ⟨c, x⟩ ⟨class?_of_mem_superclasses hmem, hx⟩ hc
        simp [Option.filter, this]

theorem firstDeclared?_eq_none_iff :
    h.firstDeclared? C s p = none ↔ ∀ e, h.Declares s e →
      e.holder ∈ (h.superclasses C).takeWhile (fun c => !c.isInterface) → p e = false := by
  rw [firstDeclared?, List.findSome?_eq_none_iff]
  constructor
  · intro hnone e he hmem
    have := hnone e.holder hmem
    rw [he.method] at this
    simpa [Option.filter] using this
  · intro hnone c hc
    cases hx : c.declared? s with
    | none => simp
    | some x =>
      have hmem := (List.takeWhile_prefix _).subset hc
      have := hnone ⟨c, x⟩ ⟨class?_of_mem_superclasses hmem, hx⟩ hc
      simp [Option.filter, this]

theorem firstDeclared?_congr (hpq : ∀ e, h.Declares s e → (p e = true ↔ q e = true)) :
    h.firstDeclared? C s p = h.firstDeclared? C s q := by
  have hpq : ∀ e, h.Declares s e → p e = q e := fun e he => Bool.eq_iff_iff.2 (hpq e he)
  cases hf : h.firstDeclared? C s q with
  | none =>
    refine firstDeclared?_eq_none_iff.2 fun e he hmem => ?_
    rw [hpq e he]
    exact firstDeclared?_eq_none_iff.1 hf e he hmem
  | some d =>
    obtain ⟨hd, hq, before, after, hsplit, hbefore⟩ := firstDeclared?_eq_some_iff.1 hf
    refine firstDeclared?_eq_some_iff.2 ⟨hd, by rwa [hpq d hd], before, after, hsplit, ?_⟩
    exact fun e he hmem => (hpq e he).trans (hbefore e he hmem)

/-- A narrower search that accepts what the wider one has found finds the same. -/
theorem firstDeclared?_of_imp (hf : h.firstDeclared? C s p = some d) (hq : q d = true)
    (himp : ∀ e, h.Declares s e → q e = true → p e = true) : h.firstDeclared? C s q = some d := by
  obtain ⟨hd, -, before, after, hsplit, hbefore⟩ := firstDeclared?_eq_some_iff.1 hf
  refine firstDeclared?_eq_some_iff.2 ⟨hd, hq, before, after, hsplit, fun e he hmem => ?_⟩
  exact Bool.eq_false_of_not_eq_true fun heq =>
    Bool.eq_false_iff.1 (hbefore e he hmem) (himp e he heq)

theorem firstDeclared?_eq_none_of_imp (hf : h.firstDeclared? C s p = none)
    (himp : ∀ e, h.Declares s e → q e = true → p e = true) : h.firstDeclared? C s q = none :=
  firstDeclared?_eq_none_iff.2 fun e he hmem => Bool.eq_false_of_not_eq_true fun heq =>
    Bool.eq_false_iff.1 (firstDeclared?_eq_none_iff.1 hf e he hmem) (himp e he heq)

end FirstDeclared

/-- The way up from a class to what it runs: classes only, none of which overrides. -/
theorem exists_way_of_firstOverride? (hr : h.Declares s r)
    (hf : h.firstOverride? C r = some d) :
    ∃ before after, h.superclasses C = before ++ d.holder :: after ∧
      (∀ c ∈ before, c.isInterface = false) ∧
      (∀ e, h.Declares s e → e.holder ∈ before → overrides e r = false) ∧
      (h.superclasses C).takeWhile (·.name ≠ d.holder.name) = before := by
  rw [firstOverride?_eq_firstDeclared? hr.signature] at hf
  obtain ⟨hd, hov, before, after, hsplit, hbefore⟩ := firstDeclared?_eq_some_iff.1 hf
  have hchain : h.superclasses C = before ++ d.holder :: (after ++
      (h.superclasses C).dropWhile fun c => !c.isInterface) := by
    conv_lhs => rw [← List.takeWhile_append_dropWhile (p := fun c : Class => !c.isInterface)
      (l := h.superclasses C), hsplit]
    simp
  have hclass : ∀ c ∈ before, c.isInterface = false := fun c hc =>
    (mem_superclasses_of_mem_takeWhile (hsplit ▸ List.mem_append_left _ hc)).2
  refine ⟨before, _, hchain, hclass, hbefore, ?_⟩
  have hne : ∀ c ∈ before, c.name ≠ d.holder.name := by
    intro c hc hname
    have hcd : c = d.holder := by
      have := class?_of_mem_superclasses (hchain ▸ List.mem_append_left _ hc)
      rw [hname, hd.holder] at this
      exact (Option.some.inj this).symm
    have := hbefore d hd (hcd ▸ hc)
    simp [hov] at this
  rw [hchain, List.takeWhile_append_of_pos fun c hc => by simpa using hne c hc]
  simp

/-- Methods with the same overrides are dispatched alike. -/
theorem dispatchFrom_congr (hr : r.method.signature = s) (hr' : r'.method.signature = s)
    (hov : ∀ e, h.Declares s e → (overrides e r = true ↔ overrides e r' = true)) :
    h.dispatchFrom C r = h.dispatchFrom C r' := by
  simp only [dispatchFrom, hr, hr', firstOverride?_eq_firstDeclared? hr,
    firstOverride?_eq_firstDeclared? hr', firstDeclared?_congr hov]

/-- What a class runs is found again from the method itself, if nothing overrides it that does not
override the method it was found from. -/
theorem dispatchFrom_self (hr : h.Declares s r) (hd : h.dispatchFrom C r = .single d)
    (hov : ∀ e, h.Declares s e → overrides e d = true → overrides e r = true) :
    h.dispatchFrom C d = .single d := by
  have hsig := (declares_of_dispatchFrom hr.signature hd).1.signature
  rw [dispatchFrom_eq_single, firstOverride?_eq_firstDeclared? hr.signature, hr.signature] at hd
  rw [dispatchFrom_eq_single, firstOverride?_eq_firstDeclared? hsig, hsig]
  rcases hd with ⟨hf, ha⟩ | ⟨hf, hdefault⟩
  · exact .inl ⟨firstDeclared?_of_imp hf (overrides_self d) hov, ha⟩
  · exact .inr ⟨firstDeclared?_eq_none_of_imp hf hov, hdefault⟩

/-- What a class runs is declared above it. -/
theorem reaches_of_dispatchFrom (hr : h.Declares s r) (hd : h.dispatchFrom C r = .single d) :
    Relation.ReflTransGen (Leads h.supertypes) C d.holder.name := by
  rcases dispatchFrom_eq_single.1 hd with ⟨hf, -⟩ | ⟨-, hf⟩
  · exact reaches_of_mem_superclasses (declares_of_firstOverride? hr.signature hf).2.1
  · exact (mem_superinterfaces (declares_of_defaultMethod hf).1).1

theorem reaches_of_dispatchSuper {m : MethodRef} {K : TypeName}
    (hd : h.dispatchSuper m K = .single d) :
    Relation.ReflTransGen (Leads h.supertypes) K d.holder.name := by
  obtain ⟨S, hS, -, hd⟩ := dispatchSuper_eq_single hd
  have hstep : Leads h.supertypes K S := Extends.leads hS
  refine .head hstep ?_
  rcases hd with ⟨-, before, after, hsplit, -⟩ | hdefault
  · exact reaches_of_mem_superclasses (by rw [hsplit]; simp)
  · exact (mem_superinterfaces (declares_of_defaultMethod hdefault).1).1

/-- What is found on a class is declared above it. -/
theorem reaches_of_findOnClass? (hd : h.findOnClass? s C = some d) :
    Relation.ReflTransGen (Leads h.supertypes) C d.holder.name := by
  unfold findOnClass? at hd
  split at hd
  · rename_i e he
    obtain rfl := Option.some.inj hd
    exact reaches_of_mem_superclasses (declares_of_findSome?_superclasses he).2
  · exact (mem_superinterfaces (mem_interfaceDeclarations.1 (mem_of_interfaceMethod? hd)).1).1

/-- A method that a class runs is not private, unless it is the resolved one. -/
theorem isVirtual_of_dispatchFrom (hr : h.Declares s r) (hv : r.method.isVirtual = true)
    (hd : h.dispatchFrom C r = .single d) : d.method.isVirtual = true := by
  rcases dispatchFrom_eq_single.1 hd with ⟨hf, -⟩ | ⟨-, hf⟩
  · obtain ⟨hdecl, -, -, hov⟩ := declares_of_firstOverride? hr.signature hf
    exact ((hdecl.overrides_iff hr hv).1 hov).1
  · exact (mem_interfaceDeclarations.1
      (mem_interfaceDeclarations_of_mem_mostSpecific (mem_of_defaultMethod hf).1)).2.2

/-- A method of a class is found on the class itself. -/
theorem Declares.find? (hd : h.Declares s d) (hi : d.holder.isInterface = false) :
    h.find? d.ref = some d := by
  have hchain : (h.superclasses d.holder.name).findSome?
      (fun c => (c.declared? s).map (Declaration.mk c)) = some d := by
    simp [superclasses, superclassesWithin, hd.holder, hd.method]
  simp [Hierarchy.find?, hd.ref, hd.holder, hi, findOnClass?, hchain]

end Hierarchy

end Devirt
