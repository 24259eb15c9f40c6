import Devirt.Proofs.Body.Splitting

/-!
Which blocks an output reaches. Placing an instruction in front of another one changes nothing about
that, and splitting a block takes blocks away from what an output of another block reaches but adds
none.
-/

namespace Devirt

open Relation

namespace Body

variable {c d : Body} {a b q s : BlockId} {k : InstrId} {v : ValueId} {op : Operation}
  {index : Nat} {x : Block} {jumps : List BlockId} {t : DominatorTree}

/-- An instruction of the block outputs the value, or the value is there from the start of the block
on. -/
def OutputReaches (c : Body) (v : ValueId) (b : BlockId) : Prop :=
  (∃ k, c.Outputs k v ∧ c.blockOf k = .ok b) ∨
    ∃ a, c.AvailableFrom v a ∧ (a = b ∨ c.Reachable b ∧ c.Dominates a b)

theorem ResultFrom.hasBlock (h : c.ResultFrom op q a) (hclosed : c.Closed) : c.HasBlock a := by
  obtain ⟨x, hx, hcond⟩ := h
  split at hcond
  · exact hclosed q a (.inl ((mem_normalSuccessors hcond.1).1 (by simp)))
  · exact hcond ▸ hasBlock_of_block hx

theorem SameShape.outputReaches_iff (h : SameShape c d) :
    d.OutputReaches v b ↔ c.OutputReaches v b := by
  simp only [OutputReaches, h.outputs_iff, h.blockOf_eq, h.availableFrom_iff, h.reachable_iff,
    h.dominates_iff]

/-- The dominator tree answers where an output is available. -/
theorem outputReaches_iff (hI : c.Intact) (hclosed : c.Closed) (ht : c.dominators = .ok t)
    (hk : c.Outputs k v) :
    c.OutputReaches v b ↔ c.blockOf k = .ok b ∨ c.availableIn t v b = .ok true := by
  obtain ⟨y, hy, -⟩ := hI.value_of_outputs hk
  obtain ⟨r, hr, hiff⟩ := exists_availableIn (t := t) (b := b) hI hclosed (hasValue_of_value hy)
  simp only [dominates_iff hI.toArranged hclosed ht] at hiff
  rw [hr, Except.ok.injEq, hiff]
  refine or_congr ⟨?_, fun hof => ⟨k, hk, hof⟩⟩ Iff.rfl
  rintro ⟨j, hj, hof⟩
  rwa [hI.eq_of_outputs hk hj]

theorem not_outputReaches_iff (hI : c.Intact) (hclosed : c.Closed) (ht : c.dominators = .ok t)
    (hk : c.Outputs k v) :
    ¬ c.OutputReaches v b ↔ c.blockOf k ≠ .ok b ∧ c.availableIn t v b = .ok false := by
  obtain ⟨y, hy, -⟩ := hI.value_of_outputs hk
  obtain ⟨r, hr, -⟩ := exists_availableIn (t := t) (b := b) hI hclosed (hasValue_of_value hy)
  rw [outputReaches_iff hI hclosed ht hk, not_or, hr]
  cases r <;> simp

/-! ### Placing an instruction -/

section Inserted

variable (hI : c.Arranged) (hx : c.block b = .ok x) (hindex : index < x.instructions.length)

include hI hx hindex

theorem OutputReaches.of_inserted (hfresh : op.out? ≠ some v)
    (h : (c.inserted b index op).OutputReaches v s) : c.OutputReaches v s := by
  rcases h with ⟨k, hk, hof⟩ | ⟨a, ha, hdom⟩
  · have hk := (outputs_inserted.1 hk).resolve_right fun h => hfresh h.2
    refine .inl ⟨k, hk, (blockOf_inserted.1 hof).resolve_right ?_⟩
    rintro ⟨rfl, -⟩
    obtain ⟨op', hop', -⟩ := hk
    exact operation_next_ne_ok hop'
  · rw [reachable_inserted hx hindex hI, dominates_inserted hx hindex hI] at hdom
    exact .inr ⟨a, availableFrom_of_inserted hx hindex hI hfresh ha, hdom⟩

end Inserted

/-! ### Splitting a block -/

section Splitted

variable (hI : c.Intact) (hx : c.block b = .ok x)

include hI hx

/-- Paths before the split are paths after it, which pass the tail where they left the block. -/
theorem avoids_splitted (hindex : index < x.instructions.length) (ha : a ≠ ⟨c.blocks.length⟩)
    (h : Avoids c.Edge c.entry a s) :
    Avoids (c.splitted b index x jumps).Edge c.entry a s := by
  obtain ⟨hne, hpath⟩ := h
  induction hpath with
  | refl => exact ⟨hne, .refl⟩
  | @tail p s _ hstep ih =>
    obtain ⟨hedge, hs⟩ := hstep
    have hp : c.HasBlock p := by
      rcases hedge with ⟨y, -, -, hy, -⟩ | ⟨y, hy, -⟩ <;> exact hasBlock_of_block hy
    by_cases hpb : p = b
    · subst hpb
      rcases hedge with hjump | hhandle
      · refine (ih.tail ((edge_splitted hI hx hindex).2 (.inl ⟨rfl, rfl⟩)) ha.symm).tail ?_ hs
        exact (edge_splitted hI hx hindex).2 (.inr (.inl ⟨hp.ne_next.symm, by rwa [unsplit_next]⟩))
      · exact ih.tail ((edge_splitted hI hx hindex).2 (.inr (.inr (by rwa [hp.unsplit])))) hs
    · refine ih.tail ((edge_splitted hI hx hindex).2 (.inr ?_)) hs
      rw [hp.unsplit]
      exact hedge.imp_left fun hjump => ⟨hpb, hjump⟩

theorem resultFrom_of_splitted (hclosed : c.Closed) (hq : c.HasBlock q) (hne : q ≠ b)
    (h : (c.splitted b index x jumps).ResultFrom op q a) : c.ResultFrom op q a := by
  obtain ⟨y, hy⟩ := exists_block_iff.2 hq
  obtain ⟨y', hy', hcond⟩ := h
  obtain rfl := Except.ok.inj ((block_splitted_other hy hne).symm.trans hy')
  refine ⟨y, hy, ?_⟩
  rw [Block.isGuarded, handlers_relinked, ← Block.isGuarded] at hcond
  split
  · rename_i hif
    rw [if_pos hif] at hcond
    obtain ⟨hnext, z', hz', hpred⟩ := hcond
    obtain ⟨l, hl⟩ := hI.exists_normalSuccessors hy
    obtain rfl := Except.ok.inj ((SplitPoint.normalSuccessors_other hl hne).symm.trans hnext)
    obtain ⟨z, hz⟩ :=
      exists_block_iff.2 (hclosed q a (.inl ((mem_normalSuccessors hl).1 (by simp))))
    have hpred' : (relinked b ⟨c.blocks.length⟩ jumps x.handlers a z).predecessors = [q] := by
      obtain rfl := Except.ok.inj ((block_splitted_old hz).symm.trans hz')
      split at hpred <;> exact hpred
    -- had the split block led here, it or its tail would still do
    have hnotMem : b ∉ z.predecessors := by
      intro hmem
      have hmoved := fun r => @mem_predecessors_relinked b a jumps z ⟨c.blocks.length⟩ r x.handlers
        (hasBlock_of_block hx).ne_next.symm
      simp only [hpred', List.mem_singleton] at hmoved
      by_cases ha : a ∈ jumps
      · exact hq.ne_next ((hmoved _).2 (.inr ⟨rfl, hmem, .inl ha⟩)).symm
      · exact hne ((hmoved _).2 (.inl ⟨hmem, fun h => ha h.2⟩)).symm
    exact ⟨hl, z, hz, (SplitPoint.predecessors_relinked_of_notMem hnotMem).symm.trans hpred'⟩
  · rename_i hif
    rwa [if_neg hif] at hcond

theorem OutputReaches.of_splitted (hindex : index < x.instructions.length) (hclosed : c.Closed)
    (hk : c.Outputs k v) (hof : c.blockOf k = .ok q) (hne : q ≠ b) (hs : c.HasBlock s)
    (h : (c.splitted b index x jumps).OutputReaches v s) : c.OutputReaches v s := by
  obtain ⟨op, hop, hout⟩ := id hk
  obtain ⟨y, hy, -⟩ := hI.recorded hof
  have hq := hasBlock_of_block hy
  have hI' : (c.splitted b index x jumps).Intact := hI.splitted hx
  have hop' : (c.splitted b index x jumps).operation k = .ok op := operation_splitted.2 (.inl hop)
  have hof' : (c.splitted b index x jumps).blockOf k = .ok q :=
    blockOf_splitted_other hI hx hof hne
  rcases h with ⟨j, hj, hofj⟩ | ⟨a, ha, hdom⟩
  · obtain rfl := hI.eq_of_outputs hk (outputs_splitted.1 hj)
    obtain rfl := Except.ok.inj (hof'.symm.trans hofj)
    exact .inl ⟨k, hk, hof⟩
  · rw [AvailableFrom.of_operation hI' hop' hout hof'] at ha
    have ha := resultFrom_of_splitted hI hx hclosed hq hne ha
    refine .inr ⟨a, (AvailableFrom.of_operation hI hop hout hof).2 ha, hdom.imp_right ?_⟩
    rintro ⟨hreach, hdom⟩
    have hreach := reachable_unsplit hI hx hindex hclosed hreach
    rw [hs.unsplit] at hreach
    refine ⟨hreach, fun hav => hdom (avoids_splitted hI hx hindex ?_ hav)⟩
    exact (ha.hasBlock hclosed).ne_next

end Splitted

end Body

end Devirt
