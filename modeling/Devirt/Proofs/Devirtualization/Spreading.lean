import Devirt.Proofs.Devirtualization.Edits

/-!
Spreading a cast. Redirecting the uses of a value to a new cast of it always succeeds, and what it
does to the body is a sequence of tweaks.
-/

namespace Devirt

open Relation

namespace Body

variable {h : Hierarchy} {c₀ c d : Body} {b p q s : BlockId} {i j k : InstrId}
  {u v w old new phi : ValueId} {op : Operation} {x : Block} {t : DominatorTree} {name : TypeName}

/-- Every edge into an old block comes from a block of the body. -/
theorem Rewritten.hasBlock_of_mem_predecessors (hr : Rewritten c₀ c) (h₀ : c₀.Arranged)
    (hclosed : c₀.Closed) (hx : c.block b = .ok x) (hq : q ∈ x.predecessors) : c.HasBlock q := by
  have hof : ∀ {p}, Origin c₀ c q p → c.HasBlock q := by
    rintro p ⟨hp, rfl | htail⟩
    · exact hr.hasBlock hp
    · exact hr.closed h₀ hclosed _ _ (.inl htail.1)
  by_cases hb : c₀.HasBlock b
  · obtain ⟨x₀, hx₀⟩ := exists_block_iff.2 hb
    obtain ⟨e, he⟩ := List.mem_iff_getElem?.1 hq
    obtain ⟨e₀, q', p, hq', -, horigin, -⟩ :=
      (hr.inflow hx₀ hx).back e (List.getElem?_eq_some_iff.1 he).1
    obtain rfl := Option.some.inj (he.symm.trans hq')
    exact hof horigin
  · obtain ⟨p, hp, htail⟩ := hr.tail (hasBlock_of_block hx) hb
    rw [(hr.predecessors_tail h₀ hclosed htail hx).1, List.mem_singleton] at hq
    exact hq ▸ hr.hasBlock hp

/-- What is kept while the uses of `old` are redirected to its cast `new`. -/
structure Spreads (h : Hierarchy) (c₀ : Body) (t : DominatorTree) (k : InstrId)
    (old new : ValueId) (name : TypeName) (c : Body) : Prop where
  stage : Stage c₀ c
  tree : Describes t c
  cast : c.operation k = .ok (.cast new old name)

namespace Spreads

variable (hI₀ : c₀.Intact) (hc₀ : c₀.Consistent) (hk : ¬ c₀.HasInstruction k)

theorem tweak (hs : Spreads h c₀ t k old new name c) (ht : Tweak h c₀ c d)
    (hcast : d.operation k = .ok (.cast new old name)) : Spreads h c₀ t k old new name d :=
  ⟨ht.stage hs.stage, ht.describes hs.tree, hcast⟩

theorem hasValue (hs : Spreads h c₀ t k old new name c) : c.HasValue old ∧ c.HasValue new := by
  have := hs.stage.intact.hasValue hs.cast
  simpa [Operation.mentions, Operation.out?, Operation.operands, and_comm] using this

include hI₀ hc₀ hk in
theorem redirectUser (hs : Spreads h c₀ t k old new name c) (hi : c.operation i = .ok op)
    (hik : i ≠ k) :
    ∃ changed d, c.redirectUser t old new k i = .ok (changed, d) ∧
      Spreads h c₀ t k old new name d ∧ ReflTransGen (Tweak h c₀) c d := by
  have hI := hs.stage.intact
  have hclosed := hs.stage.rewritten.closed hI₀.toArranged hc₀.closed
  obtain ⟨b, x, hof, hx, hmem⟩ := hI.exists_place hi
  obtain ⟨n, hn⟩ := List.mem_iff_getElem?.1 hmem
  obtain ⟨r, hr, hiff⟩ := exists_standsAfter hI hclosed hs.tree ⟨_, hs.cast, rfl⟩ hx hn
  by_cases hred : r = true ∧ old ∈ op.operands
  · obtain ⟨hr', hold⟩ := hred
    have hready : c.ReadyAt new i :=
      .of_place hI.toArranged hx hn fun hreach => (hiff hreach).1 hr'
    have htweak := Tweak.spread (h := h) hk hs.cast hik hi hold hready
    have hcast : (c.redirected i old new).operation k = .ok (.cast new old name) :=
      operation_redirected.2 ⟨_, hs.cast, if_neg hik.symm⟩
    refine ⟨true, _, ?_, hs.tweak htweak hcast, .single htweak⟩
    simp only [Body.redirectUser, hr, ok_bind, hr', if_true]
    exact redirectOperand_of_mem hi hold hs.hasValue.1 hs.hasValue.2
  · refine ⟨false, c, ?_, hs, .refl⟩
    by_cases hr' : r = true
    · have hold : old ∉ op.operands := fun hold => hred ⟨hr', hold⟩
      simp only [Body.redirectUser, hr, ok_bind, hr', if_true]
      exact redirectOperand_eq_ok.2 ⟨op, hi, by simp [hold]⟩
    · simp [Body.redirectUser, hr, hr']

include hI₀ hc₀ hk in
theorem redirectPhi (hs : Spreads h c₀ t k old new name c)
    (hphi : ∃ b p, c.HasPhi b p ∧ p.out = phi) :
    ∃ changed d, c.redirectPhi t old new phi = .ok (changed, d) ∧
      Spreads h c₀ t k old new name d ∧ ReflTransGen (Tweak h c₀) c d := by
  have hI := hs.stage.intact
  have hr := hs.stage.rewritten
  have hclosed := hr.closed hI₀.toArranged hc₀.closed
  obtain ⟨b, p, ⟨x, hx, hp⟩, rfl⟩ := hphi
  obtain ⟨y, hy, hdef⟩ := hI.value_of_hasPhi ⟨x, hx, hp⟩
  have hfind : x.phi? p.out = some p := by
    cases hfound : x.phi? p.out with
    | none =>
      have := List.find?_eq_none.1 hfound p hp
      simp at this
    | some p' =>
      have hout : p'.out = p.out := by simpa using List.find?_some hfound
      rw [List.inj_on_of_nodup_map (hI.phi_nodup hx) (List.mem_of_find?_eq_some hfound) hp hout]
  have hedge : ∀ q ∈ x.predecessors, ∃ r, c.availableOnEdge t new q b = .ok r ∧
      (c.Reachable q → (r = true ↔ c.OnEdge new q b)) := fun q hq =>
    exists_availableOnEdge hI hclosed hs.tree hs.hasValue.2
      (hr.hasBlock_of_mem_predecessors hI₀.toArranged hc₀.closed hx hq)
  obtain ⟨edges, hedges⟩ : ∃ edges,
      x.predecessors.mapM (fun q => c.availableOnEdge t new q b) = .ok edges :=
    exists_mapM_eq_ok.2 fun q hq => (hedge q hq).imp fun _ h => h.1
  obtain ⟨changed, d, hrun⟩ : ∃ changed d, c.redirectPhi t old new p.out = .ok (changed, d) := by
    simp only [Body.redirectPhi, hy, ok_bind, hdef, hx, hfind, hedges]
    split
    · exact ⟨false, c, rfl⟩
    · rw [modifyBlock_eq_ok.2 ⟨hasBlock_of_block hx, rfl⟩, ok_bind]
      have hadd : ∀ e : Body, (∀ v, c.HasValue v → e.HasValue v) → ∃ changed d,
          (do return (true, ← e.addPhiUser new p.out) : Except Fault (Bool × Body)) =
            .ok (changed, d) := by
        intro e he
        rw [addPhiUser, modifyValue_eq_ok.2 ⟨he _ hs.hasValue.2, rfl⟩]
        exact ⟨true, _, rfl⟩
      split
      · exact hadd _ fun v hv => by simpa using hv
      · rw [removePhiUser, modifyValue_eq_ok.2 ⟨by simpa using hs.hasValue.1, rfl⟩, ok_bind]
        exact hadd _ fun v hv => by simpa using hv
  refine ⟨changed, d, hrun, ?_⟩
  rcases redirectPhi_eq_ok hrun with ⟨-, rfl⟩ | ⟨b', x', p', edges', -, hx', hfind', ⟨y', hy', hdef'⟩,
    hedges', hmem, -, rfl⟩
  · exact ⟨hs, .refl⟩
  · obtain rfl := Except.ok.inj (hy.symm.trans hy')
    obtain rfl : b = b' := by simpa using hdef.symm.trans hdef'
    obtain rfl := Except.ok.inj (hx.symm.trans hx')
    obtain rfl := Option.some.inj (hfind.symm.trans hfind')
    obtain rfl := Except.ok.inj (hedges.symm.trans hedges')
    have htweak := Tweak.spreadPhi (h := h) hk hs.cast hx hp hmem fun n q hq hopen hreach => by
      obtain ⟨r, hr', hiff⟩ := hedge q (List.mem_of_getElem? hq)
      obtain ⟨q', hq', htrue⟩ := (getElem?_of_mapM_eq_ok hedges).1 hopen
      obtain rfl := Option.some.inj (hq.symm.trans hq')
      exact (hiff hreach).1 (Except.ok.inj (hr'.symm.trans htrue))
    exact ⟨hs.tweak htweak hs.cast, .single htweak⟩

end Spreads

theorem sameShape_of_tweaks (ht : ReflTransGen (Tweak h c₀) c d) : SameShape c d := by
  induction ht with
  | refl => exact .refl c
  | tail _ hstep ih => exact ih.trans hstep.sameShape

theorem hasValue_of_tweaks (ht : ReflTransGen (Tweak h c₀) c d) (hv : c.HasValue v) :
    d.HasValue v := by
  induction ht with
  | refl => exact hv
  | tail _ hstep ih => exact hstep.hasValue ih

theorem context_of_tweaks (ht : ReflTransGen (Tweak h c₀) c d) : d.context = c.context := by
  induction ht with
  | refl => rfl
  | tail _ hstep ih => rw [context, hstep.method_eq, ← context, ih]

namespace Spreads

variable (hI₀ : c₀.Intact) (hc₀ : c₀.Consistent) (hk : ¬ c₀.HasInstruction k)

private theorem mem_of_mem_done {α : Type} {l done : List α} {a : α} {changed : Bool}
    (hdone : ∀ b ∈ done, b ∈ l) (ha : a ∈ l) : ∀ b ∈ if changed then done ++ [a] else done, b ∈ l := by
  intro b hb
  split at hb
  · rcases List.mem_append.1 hb with hb | hb
    · exact hdone b hb
    · rwa [List.mem_singleton.1 hb]
  · exact hdone b hb

include hI₀ hc₀ hk in
private theorem redirectUsers (hs : Spreads h c₀ t k old new name c) (l : List InstrId)
    (hl : ∀ i ∈ l, i ≠ k ∧ ∃ op, c.operation i = .ok op) :
    ∃ q, l.foldlM (fun (done, c) i => do
        let (changed, c) ← c.redirectUser t old new k i
        return (if changed then done ++ [i] else done, c)) (([] : List InstrId), c) = .ok q ∧
      Spreads h c₀ t k old new name q.2 ∧ ReflTransGen (Tweak h c₀) c q.2 ∧ ∀ i ∈ q.1, i ∈ l := by
  refine foldlM_total (fun q : List InstrId × Body => Spreads h c₀ t k old new name q.2 ∧
    ReflTransGen (Tweak h c₀) c q.2 ∧ ∀ i ∈ q.1, i ∈ l) ⟨hs, .refl, by simp⟩ ?_
  rintro i hi ⟨done, e⟩ ⟨hse, hte, hdone⟩
  obtain ⟨hik, op, hop⟩ := hl i hi
  obtain ⟨op', hop', -⟩ := (sameShape_of_tweaks hte).exists_operation hop
  obtain ⟨changed, e', hrun, hse', hte'⟩ := hse.redirectUser hI₀ hc₀ hk hop' hik
  refine ⟨(if changed then done ++ [i] else done, e'), by simp only [hrun, ok_bind, pure_eq_ok],
    hse', hte.trans hte', mem_of_mem_done hdone hi⟩

include hI₀ hc₀ hk in
private theorem redirectPhis (hs : Spreads h c₀ t k old new name c) (l : List ValueId)
    (hl : ∀ phi ∈ l, ∃ b p, c.HasPhi b p ∧ p.out = phi) :
    ∃ q, l.foldlM (fun (done, c) phi => do
        let (changed, c) ← c.redirectPhi t old new phi
        return (if changed then done ++ [phi] else done, c)) (([] : List ValueId), c) = .ok q ∧
      Spreads h c₀ t k old new name q.2 ∧ ReflTransGen (Tweak h c₀) c q.2 ∧ ∀ v ∈ q.1, v ∈ l := by
  refine foldlM_total (fun q : List ValueId × Body => Spreads h c₀ t k old new name q.2 ∧
    ReflTransGen (Tweak h c₀) c q.2 ∧ ∀ v ∈ q.1, v ∈ l) ⟨hs, .refl, by simp⟩ ?_
  rintro phi hphi ⟨done, e⟩ ⟨hse, hte, hdone⟩
  obtain ⟨b, p, hp⟩ := hl phi hphi
  obtain ⟨p', hp'⟩ := (sameShape_of_tweaks hte).exists_phi_iff.2 ⟨p, hp⟩
  obtain ⟨changed, e', hrun, hse', hte'⟩ := hse.redirectPhi hI₀ hc₀ hk ⟨b, p', hp'⟩
  refine ⟨(if changed then done ++ [phi] else done, e'), by simp only [hrun, ok_bind, pure_eq_ok],
    hse', hte.trans hte', mem_of_mem_done hdone hphi⟩

include hI₀ hc₀ hk in
/-- Redirecting the uses of a value to a new cast of it. -/
theorem redirectUses (hs : Spreads h c₀ t k old new name c) (excluded : List InstrId) :
    ∃ r d, c.redirectUses t old new k excluded = .ok (r, d) ∧
      Spreads h c₀ t k old new name d ∧ ReflTransGen (Tweak h c₀) c d ∧
      (∀ i ∈ r.instructions, ∃ op, d.operation i = .ok op) ∧ ∀ phi ∈ r.phis, d.HasValue phi := by
  obtain ⟨y, hy⟩ := exists_value_iff.2 hs.hasValue.1
  have husers : ∀ i ∈ y.users.toList.filter fun i => i ≠ k && i ∉ excluded,
      i ≠ k ∧ ∃ op, c.operation i = .ok op := by
    intro i hi
    simp only [List.mem_filter, OrderedSet.mem_toList, Bool.and_eq_true, decide_eq_true_eq] at hi
    obtain ⟨op, hop, -⟩ := (hs.stage.intact.users hy i).1 hi.1
    exact ⟨hi.2.1, op, hop⟩
  obtain ⟨⟨done, e⟩, he, hse, hte, hdone⟩ := hs.redirectUsers hI₀ hc₀ hk _ husers
  obtain ⟨z, hz⟩ := exists_value_iff.2 hse.hasValue.1
  have hphiUsers : ∀ phi ∈ z.phiUsers.toList, ∃ b p, e.HasPhi b p ∧ p.out = phi := by
    intro phi hphi
    obtain ⟨b, p, hp, hout, -⟩ := (hse.stage.intact.phiUsers hz phi).1 hphi
    exact ⟨b, p, hp, hout⟩
  obtain ⟨⟨phis, d⟩, hd, hsd, htd, hdone'⟩ := hse.redirectPhis hI₀ hc₀ hk _ hphiUsers
  refine ⟨⟨done, phis⟩, d, ?_, hsd, hte.trans htd, fun i hi => ?_, fun phi hphi => ?_⟩
  · simp only [Body.redirectUses, hy, ok_bind]
    rw [he]
    simp only [ok_bind]
    rw [hz, ok_bind, hd]
    rfl
  · obtain ⟨-, op, hop⟩ := husers i (hdone i hi)
    exact ((sameShape_of_tweaks (hte.trans htd)).exists_operation hop).imp fun _ h => h.1
  · obtain ⟨b, p, hp, rfl⟩ := hphiUsers phi (hdone' phi hphi)
    exact hasValue_of_tweaks htd (hse.stage.intact.phi_hasValue hp _ (by simp))

end Spreads

end Body

end Devirt
