import Devirt.Proofs.Dispatch.Selection
import Devirt.Proofs.Hierarchy.Order

/-!
The most specific declarations among those that the superinterfaces of a type offer. Each declaration
below which there is another one is left out. Where the hierarchy is acyclic and its root is the
built-in one, this leaves one below each of them, so lookup fails only where nothing is declared.
-/

namespace Devirt

namespace Hierarchy

variable {h : Hierarchy} {s : Signature} {d e : Declaration} {t : TypeName}

/-- A superinterface of the type declares the signature as a method that can be overridden. Of several
declarations of one signature in a definition, the first one counts. -/
structure Offers (h : Hierarchy) (t : TypeName) (s : Signature) (d : Declaration) : Prop where
  superinterface : d.holder.name ∈ h.superinterfaces t
  declares : h.Declares s d
  isVirtual : d.method.isVirtual = true

theorem mem_interfaceDeclarations_iff_offers :
    d ∈ h.interfaceDeclarations t s ↔ h.Offers t s d := by
  rw [mem_interfaceDeclarations]
  constructor
  · rintro ⟨hsuper, hdecl, hv⟩
    exact ⟨hsuper, hdecl, hv⟩
  · intro hd
    exact ⟨hd.superinterface, hd.declares, hd.isVirtual⟩

theorem mem_mostSpecific_iff :
    d ∈ h.mostSpecific t s ↔ h.Offers t s d ∧
      ∀ e, h.Offers t s e → h.isSubtype e.holder.name d.holder.name = true →
        e.holder.name = d.holder.name := by
  simp only [mostSpecific, List.mem_filter, Bool.not_eq_true', List.any_eq_false, Bool.and_eq_true,
    decide_eq_true_eq, not_and, ne_eq, mem_interfaceDeclarations_iff_offers]
  apply and_congr_right
  intro _
  apply forall₂_congr
  intro e _
  constructor
  · intro hnone hsub
    by_contra hne
    exact hnone hne hsub
  · intro hsame hne hsub
    exact hne (hsame hsub)

/-- Each superinterface offers at most one declaration. -/
theorem pairwise_interfaceDeclarations (t : TypeName) (s : Signature) :
    (h.interfaceDeclarations t s).Pairwise fun d e => d.holder.name ≠ e.holder.name := by
  have hname : ∀ i d, ((h.class? i).bind fun c =>
      ((c.declared? s).filter (·.isVirtual)).map (Declaration.mk c)) = some d →
      d.holder.name = i := by
    intro i d hd
    obtain ⟨c, hc, hcd⟩ := Option.bind_eq_some_iff.1 hd
    obtain ⟨x, -, rfl⟩ := Option.map_eq_some_iff.1 hcd
    exact name_of_class? hc
  apply List.Pairwise.filterMap _ _ (nodup_superinterfaces t)
  intro i j hij d hd e he
  rwa [hname i d hd, hname j e he]

theorem pairwise_mostSpecific (t : TypeName) (s : Signature) :
    (h.mostSpecific t s).Pairwise fun d e =>
      h.isSubtype d.holder.name e.holder.name = false ∧
        h.isSubtype e.holder.name d.holder.name = false := by
  have hapart : (h.mostSpecific t s).Pairwise fun d e => d.holder.name ≠ e.holder.name :=
    (pairwise_interfaceDeclarations t s).filter _
  apply hapart.imp_of_mem
  intro d e hd he hne
  obtain ⟨hd, hdlowest⟩ := mem_mostSpecific_iff.1 hd
  obtain ⟨he, helowest⟩ := mem_mostSpecific_iff.1 he
  simp only [Bool.eq_false_iff]
  constructor
  · intro hde
    exact hne (helowest d hd hde)
  · intro hed
    exact hne (hdlowest e he hed).symm

section Descent

variable (ha : h.Acyclic) (hroot : h.class? rootType = some Class.root)
include ha hroot

/-- Going down among types of one kind lowers the rank, so it ends at one with no other below. -/
theorem exists_lowest {p : TypeName → Prop} {i : TypeName} (hi : p i) :
    ∃ j, p j ∧ h.isSubtype j i = true ∧ ∀ k, p k → h.isSubtype k j = true → k = j := by
  induction hrank : h.rank i using Nat.strong_induction_on generalizing i with
  | h n ih =>
    by_cases hlowest : ∀ k, p k → h.isSubtype k i = true → k = i
    · exact ⟨i, hi, isSubtype_refl h i, hlowest⟩
    · push Not at hlowest
      obtain ⟨k, hk, hki, hne⟩ := hlowest
      have hlt := rank_lt ha (supertypes_of_class? hroot) hki hne
      obtain ⟨j, hj, hjk, hlowest⟩ := ih _ (hrank ▸ hlt) hk rfl
      exact ⟨j, hj, isSubtype_trans hroot hjk hki, hlowest⟩

theorem Offers.exists_mostSpecific (hd : h.Offers t s d) :
    ∃ e ∈ h.mostSpecific t s, h.isSubtype e.holder.name d.holder.name = true := by
  obtain ⟨_, ⟨e, he, rfl⟩, hed, hlowest⟩ :=
    exists_lowest (p := fun i => ∃ e, h.Offers t s e ∧ e.holder.name = i) ha hroot ⟨d, hd, rfl⟩
  refine ⟨e, mem_mostSpecific_iff.2 ⟨he, fun x hx hxe => ?_⟩, hed⟩
  exact hlowest _ ⟨x, hx, rfl⟩ hxe

theorem mostSpecific_eq_nil_iff : h.mostSpecific t s = [] ↔ ∀ d, ¬ h.Offers t s d := by
  rw [List.eq_nil_iff_forall_not_mem]
  constructor
  · intro hnone d hd
    obtain ⟨e, he, -⟩ := hd.exists_mostSpecific ha hroot
    exact hnone e he
  · intro hnone d hd
    exact hnone d (mem_mostSpecific_iff.1 hd).1

end Descent

/-- Lookup on a class fails if no superclass declares the signature and no declaration is most
specific. -/
theorem findOnClass?_eq_none_iff :
    h.findOnClass? s t = none ↔
      (∀ c ∈ h.superclasses t, c.declared? s = none) ∧ h.mostSpecific t s = [] := by
  rw [← interfaceMethod?_eq_none_iff]
  unfold findOnClass?
  cases hfound : (h.superclasses t).findSome? fun c => (c.declared? s).map (Declaration.mk c) with
  | none => simpa using fun _ => List.findSome?_eq_none_iff.1 hfound
  | some d =>
    obtain ⟨hdecl, hmem⟩ := declares_of_findSome?_superclasses hfound
    simp only [reduceCtorEq, false_iff, not_and]
    intro hnone
    have hmethod := hdecl.method
    rw [hnone _ hmem] at hmethod
    cases hmethod

/-- On an acyclic hierarchy with the built-in root the choice of the most specific declarations loses
nothing. They are offered by superinterfaces, no two of them are related, and below whatever a
superinterface offers there is one of them. So lookup on a class finds a declaration exactly if a
class on its superclass chain declares the signature or a superinterface offers it. -/
theorem mostSpecific_covers (ha : h.Acyclic) (hroot : h.class? rootType = some Class.root)
    (t : TypeName) (s : Signature) :
    (∀ d ∈ h.mostSpecific t s, h.Offers t s d) ∧
    ((h.mostSpecific t s).Pairwise fun d e =>
      h.isSubtype d.holder.name e.holder.name = false ∧
        h.isSubtype e.holder.name d.holder.name = false) ∧
    (∀ d, h.Offers t s d →
      ∃ e ∈ h.mostSpecific t s, h.isSubtype e.holder.name d.holder.name = true) ∧
    ((h.findOnClass? s t).isSome = true ↔
      (∃ c ∈ h.superclasses t, (c.declared? s).isSome = true) ∨ ∃ d, h.Offers t s d) := by
  refine ⟨fun d hd => (mem_mostSpecific_iff.1 hd).1, pairwise_mostSpecific t s,
    fun d hd => hd.exists_mostSpecific ha hroot, ?_⟩
  rw [← not_iff_not, Bool.not_eq_true, Option.isSome_eq_false_iff, Option.isNone_iff_eq_none,
    findOnClass?_eq_none_iff, mostSpecific_eq_nil_iff ha hroot]
  simp

/-- A diamond of interfaces that all declare one signature, with a declaration below it that only its
holder sees, and an unrelated one beside it. -/
def diamond : Hierarchy :=
  let abstract : Method := { signature := { name := "f" }, isAbstract := true }
  { defined :=
      [{ name := "Top", isInterface := true, methods := [abstract] },
        { name := "Left", isInterface := true, interfaces := ["Top"], methods := [abstract] },
        { name := "Right", isInterface := true, interfaces := ["Top"], methods := [abstract] },
        { name := "Low", isInterface := true, interfaces := ["Left", "Right"],
          methods := [{ signature := { name := "f" } }] },
        { name := "Hidden", isInterface := true, interfaces := ["Low"],
          methods := [{ signature := { name := "f" }, visibility := .holder }] },
        { name := "Beside", isInterface := true, methods := [abstract] },
        { name := "A", interfaces := ["Top", "Hidden"] },
        { name := "B", superclass := some "A", interfaces := ["Beside", "Missing"] }] }

/-- Two steps down from `Top` there is `Low`, and nothing that can be overridden below it. -/
theorem mostSpecific_diamond :
    diamond.Acyclic ∧ diamond.class? rootType = some Class.root ∧
      (diamond.mostSpecific "B" { name := "f" }).map (·.holder.name) = ["Beside", "Low"] ∧
      diamond.isSubtype "Beside" "Low" = false ∧
      ∃ d, diamond.Offers "B" { name := "f" } d ∧ d.holder.name = "Top" ∧
        (∃ e ∈ diamond.mostSpecific "B" { name := "f" },
          diamond.isSubtype e.holder.name d.holder.name = true) ∧
        (diamond.findOnClass? { name := "f" } "B").isSome = true := by
  have ha : diamond.Acyclic :=
    acyclic_of_rank (fun t => if t = rootType then 6 else if t = "Top" then 5 else
      if t = "Left" ∨ t = "Right" ∨ t = "Missing" then 4 else if t = "Low" ∨ t = "Beside" then 3 else
      if t = "Hidden" then 2 else if t = "A" then 1 else 0) (by decide +kernel)
  have hroot : diamond.class? rootType = some Class.root := by decide +kernel
  have hnames : (diamond.mostSpecific "B" { name := "f" }).map (·.holder.name) =
      ["Beside", "Low"] := by decide +kernel
  obtain ⟨-, hapart, hbelow, hfinds⟩ := mostSpecific_covers ha hroot "B" { name := "f" }
  have hunrelated : (["Beside", "Low"] : List TypeName).Pairwise fun a b =>
      diamond.isSubtype a b = false ∧ diamond.isSubtype b a = false := by
    rw [← hnames, List.pairwise_map]
    exact hapart
  obtain ⟨top, htop⟩ := Option.isSome_iff_exists.1
    (show (diamond.declaration? (.plain "Top" "f")).isSome = true by decide +kernel)
  obtain ⟨hdecl, hname⟩ := declares_of_declaration? htop
  have hoffers : diamond.Offers "B" { name := "f" } top := by
    refine ⟨?_, hdecl, ?_⟩
    · rw [hname]
      decide +kernel
    · have hv : (diamond.declaration? (.plain "Top" "f")).all (·.method.isVirtual) = true := by
        decide +kernel
      rwa [htop] at hv
  refine ⟨ha, hroot, hnames, ?_, top, hoffers, hname, hbelow top hoffers, ?_⟩
  · exact (List.rel_of_pairwise_cons hunrelated (by simp)).1
  · exact hfinds.2 (.inr ⟨top, hoffers⟩)

end Hierarchy

end Devirt
