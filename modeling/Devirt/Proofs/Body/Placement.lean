import Devirt.Proofs.Body.Shape

/-!
Placing a new instruction in front of another one. It leaves the control flow alone and moves the
instructions after it by one place, so a body stays consistent if the operands are there and a
guarded block does not get a second throwing instruction.
-/

namespace Devirt

section Lists

variable {α : Type} {l : List α} {a y : α} {index m n : Nat}

theorem getElem?_insertIdx_cases (hindex : index ≤ l.length) :
    (l.insertIdx index a)[m]? = some y ↔
      (m < index ∧ l[m]? = some y) ∨ (m = index ∧ y = a) ∨
        (index < m ∧ l[m - 1]? = some y) := by
  rw [List.getElem?_insertIdx]
  rcases Nat.lt_trichotomy m index with hm | rfl | hm
  · have h1 : m ≠ index := by omega
    have h2 : ¬ index < m := by omega
    simp [hm, h1, h2]
  · simp [hindex, @eq_comm α y]
  · have h1 : m ≠ index := by omega
    have h2 : ¬ m < index := by omega
    simp [hm, h1, h2]

theorem getLast?_insertIdx (hindex : index < l.length) :
    (l.insertIdx index a).getLast? = l.getLast? := by
  rw [List.getLast?_eq_getElem?, List.getLast?_eq_getElem?,
    List.length_insertIdx_of_le_length (Nat.le_of_lt hindex),
    List.getElem?_insertIdx_of_gt (by omega)]
  rfl

theorem getLast?_insertIdx_length (hindex : index = l.length) :
    (l.insertIdx index a).getLast? = some a := by
  rw [hindex, List.insertIdx_length_self, List.getLast?_concat]

theorem mem_dropLast_iff : a ∈ l.dropLast ↔ ∃ n, n + 1 < l.length ∧ l[n]? = some a := by
  rw [List.mem_iff_getElem?]
  refine exists_congr fun n => ?_
  rw [List.dropLast_eq_take, List.getElem?_take]
  constructor
  · intro h
    split at h
    · exact ⟨by omega, h⟩
    · simp at h
  · rintro ⟨hn, h⟩
    rw [if_pos (by omega), h]

end Lists

namespace Body

variable {c : Body} {a b p s : BlockId} {i j : InstrId} {v w : ValueId} {op : Operation}
  {index m n : Nat} {x : Block}

section Inserted

variable (hx : c.block b = .ok x) (hindex : index < x.instructions.length)

include hx hindex

private theorem getLast?_inserted {y : Block} (hy : c.block s = .ok y) :
    (if s = b then { y with instructions := y.instructions.insertIdx index ⟨c.instructions.length⟩ }
      else y).instructions.getLast? = y.instructions.getLast? := by
  split
  · rename_i hs
    subst hs
    obtain rfl : x = y := Except.ok.inj (hx.symm.trans hy)
    exact getLast?_insertIdx hindex
  · rfl

theorem jumps_inserted (hI : c.Arranged) :
    (c.inserted b index op).Jumps p s ↔ c.Jumps p s := by
  constructor
  · rintro ⟨z, i, op', hz, hl, hop', hs⟩
    obtain ⟨y, hy, rfl⟩ := block_inserted.1 hz
    rw [getLast?_inserted hx hindex hy] at hl
    rcases operation_inserted.1 hop' with hop' | ⟨rfl, -⟩
    · exact ⟨y, i, op', hy, hl, hop', hs⟩
    · exact absurd (hI.placed hy _ (List.mem_of_getLast? hl)) blockOf_next_ne_ok
  · rintro ⟨y, i, op', hy, hl, hop', hs⟩
    exact ⟨_, i, op', block_inserted.2 ⟨y, hy, rfl⟩, (getLast?_inserted hx hindex hy).trans hl,
      operation_inserted.2 (.inl hop'), hs⟩

omit hx hindex in
theorem handles_inserted : (c.inserted b index op).Handles p s ↔ c.Handles p s := by
  constructor
  · rintro ⟨z, hz, hmem⟩
    obtain ⟨y, hy, rfl⟩ := block_inserted.1 hz
    refine ⟨y, hy, ?_⟩
    split at hmem <;> exact hmem
  · rintro ⟨y, hy, hmem⟩
    refine ⟨_, block_inserted.2 ⟨y, hy, rfl⟩, ?_⟩
    split <;> exact hmem

theorem edge_inserted (hI : c.Arranged) : (c.inserted b index op).Edge = c.Edge := by
  funext p s
  exact propext (or_congr (jumps_inserted hx hindex hI) handles_inserted)

theorem reachable_inserted (hI : c.Arranged) :
    (c.inserted b index op).Reachable s ↔ c.Reachable s := by
  rw [Reachable, edge_inserted hx hindex hI, Reachable]
  rfl

theorem dominates_inserted (hI : c.Arranged) :
    (c.inserted b index op).Dominates a s ↔ c.Dominates a s := by
  rw [Dominates, edge_inserted hx hindex hI, Dominates]
  rfl

omit hx hindex in
theorem isDefined_inserted (h : c.IsDefined w) : (c.inserted b index op).IsDefined w := by
  rcases h with ⟨i, hi⟩ | ⟨s, phi, hphi, hout⟩
  · exact .inl ⟨i, outputs_inserted.2 (.inl hi)⟩
  · exact .inr ⟨s, phi, hasPhi_inserted.2 hphi, hout⟩

private theorem normalSuccessors_inserted {l : List BlockId}
    (hl : c.normalSuccessors s = .ok l) :
    (c.inserted b index op).normalSuccessors s = .ok l := by
  obtain ⟨y, hy, hcases⟩ := normalSuccessors_eq_ok.1 hl
  refine normalSuccessors_eq_ok.2 ⟨_, block_inserted.2 ⟨y, hy, rfl⟩, ?_⟩
  by_cases hs : s = b
  · subst hs
    obtain rfl : x = y := Except.ok.inj (hx.symm.trans hy)
    rcases hcases with ⟨hnil, -⟩ | ⟨i, op', hlast, hop', rfl⟩
    · simp [hnil] at hindex
    · refine .inr ⟨i, op', ?_, operation_inserted.2 (.inl hop'), rfl⟩
      rw [if_pos rfl]
      exact (getLast?_insertIdx hindex).trans hlast
  · rw [if_neg hs]
    rcases hcases with hnil | ⟨i, op', hlast, hop', rfl⟩
    · exact .inl hnil
    · exact .inr ⟨i, op', hlast, operation_inserted.2 (.inl hop'), rfl⟩

theorem successors_inserted (hI : c.Arranged) (hs : c.HasBlock s) :
    (c.inserted b index op).successors s = c.successors s := by
  obtain ⟨y, hy⟩ := exists_block_iff.2 hs
  obtain ⟨l, hl⟩ := hI.exists_normalSuccessors hy
  have hhandlers : ∃ z, (c.inserted b index op).block s = .ok z ∧ z.handlers = y.handlers := by
    refine ⟨_, block_inserted.2 ⟨y, hy, rfl⟩, ?_⟩
    split <;> rfl
  obtain ⟨z, hz, hzy⟩ := hhandlers
  simp only [successors, normalSuccessors_inserted hx hindex hl, hl, hy, hz, hzy, ok_bind]

theorem dominators_inserted (hI : c.Arranged) :
    (c.inserted b index op).dominators = c.dominators := by
  have hflow : (c.inserted b index op).flow = c.flow := by
    unfold flow
    refine congrArg (· >>= _) (mapM_congr fun s hs => ?_)
    rw [successors_inserted hx hindex hI ((hI.mem_order s).1 hs)]
    rfl
  unfold dominators
  rw [hflow]
  rfl

omit hx hindex in
private theorem isGuarded_inserted {r : BlockId} {y : Block} :
    (if r = b then
      { y with instructions := y.instructions.insertIdx index ⟨c.instructions.length⟩ }
      else y).isGuarded = y.isGuarded := by
  split <;> rfl

theorem resultFrom_inserted {op' : Operation} {r : BlockId}
    (h : c.ResultFrom op' r a) : (c.inserted b index op).ResultFrom op' r a := by
  obtain ⟨y, hy, hcond⟩ := h
  refine ⟨_, block_inserted.2 ⟨y, hy, rfl⟩, ?_⟩
  rw [isGuarded_inserted]
  split
  · rename_i hif
    rw [if_pos hif] at hcond
    obtain ⟨hnext, z, hz, hpred⟩ := hcond
    refine ⟨normalSuccessors_inserted hx hindex hnext, _, block_inserted.2 ⟨z, hz, rfl⟩, ?_⟩
    split <;> exact hpred
  · rename_i hif
    rwa [if_neg hif] at hcond

theorem availableFrom_inserted (h : c.AvailableFrom w a) :
    (c.inserted b index op).AvailableFrom w a := by
  rcases h with ⟨phi, hphi, hout⟩ | ⟨i, op', r, hop', hout, hr, h⟩
  · exact .inl ⟨phi, hasPhi_inserted.2 hphi, hout⟩
  · exact .inr ⟨i, op', r, operation_inserted.2 (.inl hop'), hout, blockOf_inserted.2 (.inl hr),
      resultFrom_inserted hx hindex h⟩

theorem resultFrom_of_inserted (hI : c.Arranged) {op' : Operation} {r : BlockId}
    (h : (c.inserted b index op).ResultFrom op' r a) : c.ResultFrom op' r a := by
  obtain ⟨z, hz, hcond⟩ := h
  obtain ⟨y, hy, rfl⟩ := block_inserted.1 hz
  refine ⟨y, hy, ?_⟩
  rw [isGuarded_inserted] at hcond
  split
  · rename_i hif
    rw [if_pos hif] at hcond
    obtain ⟨hnext, z', hz', hpred⟩ := hcond
    obtain ⟨l, hl⟩ := hI.exists_normalSuccessors hy
    obtain ⟨y', hy', rfl⟩ := block_inserted.1 hz'
    refine ⟨?_, y', hy', ?_⟩
    · rw [hl, ← normalSuccessors_inserted hx hindex hl, hnext]
    · split at hpred <;> exact hpred
  · rename_i hif
    rwa [if_neg hif] at hcond

theorem availableFrom_of_inserted (hI : c.Arranged) (hfresh : op.out? ≠ some w)
    (h : (c.inserted b index op).AvailableFrom w a) : c.AvailableFrom w a := by
  rcases h with ⟨phi, hphi, hout⟩ | ⟨i, op', r, hop', hout, hr, h⟩
  · exact .inl ⟨phi, hasPhi_inserted.1 hphi, hout⟩
  · rcases operation_inserted.1 hop' with hop' | ⟨-, rfl⟩
    · have hr : c.blockOf i = .ok r := (blockOf_inserted.1 hr).resolve_right fun ⟨hi, _⟩ =>
        operation_next_ne_ok (hi ▸ hop')
      exact .inr ⟨i, op', r, hop', hout, hr, resultFrom_of_inserted hx hindex hI h⟩
    · exact absurd hout hfresh

omit hx hindex in
/-- The new instruction defines no old value, so that an old value is still not defined in a block
where it was not. -/
theorem blockOf_ne_inserted (hfresh : op.out? ≠ some w)
    (hnot : ∀ i, c.Outputs i w → c.blockOf i ≠ .ok s) :
    ∀ i, (c.inserted b index op).Outputs i w → (c.inserted b index op).blockOf i ≠ .ok s := by
  intro i hi hof
  rcases outputs_inserted.1 hi with hi | ⟨-, hout⟩
  · rcases blockOf_inserted.1 hof with hof | ⟨rfl, -⟩
    · exact hnot i hi hof
    · obtain ⟨op', hop', -⟩ := hi
      exact operation_next_ne_ok hop'
  · exact hfresh hout

/-- What was there at a place is there at the place it has moved to. -/
theorem ready_inserted (hI : c.Intact) (hfresh : op.out? ≠ some w) (h : c.Ready w s n)
    (hle : n ≤ m) (hlt : s = b → index < n → n < m) : (c.inserted b index op).Ready w s m := by
  rcases h with ⟨i, y, k, hi, hy, hk, hkn⟩ | ⟨hnot, a, ha, hdom⟩
  · by_cases hs : s = b
    · subst hs
      obtain rfl : x = y := Except.ok.inj (hx.symm.trans hy)
      have hpos : ∃ k', (x.instructions.insertIdx index
          (⟨c.instructions.length⟩ : InstrId))[k']? = some i ∧ k' < m := by
        by_cases hki : k < index
        · exact ⟨k, (getElem?_insertIdx_cases (Nat.le_of_lt hindex)).2 (.inl ⟨hki, hk⟩), by omega⟩
        · have := hlt rfl (by omega)
          exact ⟨k + 1, (getElem?_insertIdx_cases (Nat.le_of_lt hindex)).2
            (.inr (.inr ⟨by omega, by simpa using hk⟩)), by omega⟩
      obtain ⟨k', hk', hlt'⟩ := hpos
      exact .inl ⟨i, _, k', outputs_inserted.2 (.inl hi), block_inserted.2 ⟨x, hx, rfl⟩,
        by simpa using hk', hlt'⟩
    · exact .inl ⟨i, _, k, outputs_inserted.2 (.inl hi), block_inserted.2 ⟨y, hy, rfl⟩,
        by simpa [hs] using hk, by omega⟩
  · exact .inr ⟨blockOf_ne_inserted hfresh hnot, a, availableFrom_inserted hx hindex ha,
      (dominates_inserted hx hindex hI.toArranged).2 hdom⟩

theorem onEdge_inserted (hI : c.Intact) (hfresh : op.out? ≠ some w) (h : c.OnEdge w p s) :
    (c.inserted b index op).OnEdge w p s := by
  rcases h with ⟨i, op', hop', hout, hof, hcond⟩ | ⟨hnot, a, ha, hdom⟩
  · refine .inl ⟨i, op', operation_inserted.2 (.inl hop'), hout, blockOf_inserted.2 (.inl hof),
      fun ht hh => ?_⟩
    exact (jumps_inserted hx hindex hI.toArranged).2 (hcond ht (handles_inserted.1 hh))
  · exact .inr ⟨blockOf_ne_inserted hfresh hnot, a, availableFrom_inserted hx hindex ha,
      (dominates_inserted hx hindex hI.toArranged).2 hdom⟩

/-! ### Consistency after the insertion -/

omit hx hindex in
/-- All of a block but its instructions stays. -/
theorem parts_inserted {z : Block} (hz : (c.inserted b index op).block s = .ok z) :
    ∃ y, c.block s = .ok y ∧ z.predecessors = y.predecessors ∧ z.handlers = y.handlers ∧
      z.phis = y.phis ∧ (s ≠ b → z = y) := by
  obtain ⟨y, hy, rfl⟩ := block_inserted.1 hz
  refine ⟨y, hy, ?_⟩
  split
  · rename_i hs
    exact ⟨rfl, rfl, rfl, fun hne => absurd hs hne⟩
  · exact ⟨rfl, rfl, rfl, fun _ => rfl⟩

/-- An instruction is the new one, or it stood before at the same place or at the place before. -/
theorem exists_place_inserted {z : Block} (hz : (c.inserted b index op).block s = .ok z)
    (hn : z.instructions[n]? = some i) :
    (s = b ∧ n = index ∧ i = ⟨c.instructions.length⟩) ∨
      ∃ y k, c.block s = .ok y ∧ y.instructions[k]? = some i ∧ k ≤ n ∧
        (s = b → index < k → k < n) ∧
        (n + 1 < z.instructions.length → k + 1 < y.instructions.length) := by
  have hle : index ≤ x.instructions.length := Nat.le_of_lt hindex
  obtain ⟨y, hy, rfl⟩ := block_inserted.1 hz
  by_cases hs : s = b
  · subst hs
    obtain rfl : x = y := Except.ok.inj (hx.symm.trans hy)
    rw [if_pos rfl] at hn
    rw [if_pos rfl, List.length_insertIdx_of_le_length hle]
    rcases (getElem?_insertIdx_cases hle).1 hn with ⟨hlt, hn⟩ | ⟨rfl, rfl⟩ | ⟨hgt, hn⟩
    · exact .inr ⟨x, n, hy, hn, Nat.le_refl n, by omega, by omega⟩
    · exact .inl ⟨rfl, rfl, rfl⟩
    · exact .inr ⟨x, n - 1, hy, hn, by omega, by omega, by omega⟩
  · rw [if_neg hs] at hn
    rw [if_neg hs]
    exact .inr ⟨y, n, hy, hn, Nat.le_refl n, fun h => absurd h hs, id⟩

omit hx hindex in
theorem operation_of_inserted {op' : Operation} {y : Block} (hI : c.Arranged)
    (hy : c.block s = .ok y) (hi : i ∈ y.instructions)
    (hop' : (c.inserted b index op).operation i = .ok op') : c.operation i = .ok op' := by
  rcases operation_inserted.1 hop' with hop' | ⟨rfl, -⟩
  · exact hop'
  · exact absurd (hI.placed hy _ hi) blockOf_next_ne_ok

omit hx hindex in
theorem operation_inserted_next {op' : Operation}
    (hop' : (c.inserted b index op).operation ⟨c.instructions.length⟩ = .ok op') : op' = op := by
  rcases operation_inserted.1 hop' with hop' | ⟨-, rfl⟩
  · exact absurd hop' operation_next_ne_ok
  · rfl

/-- The control flow stays in order, unless a guarded block would throw in two places. -/
theorem Controlled.inserted (hc : c.Controlled) (hI : c.Arranged) (hterm : op.isTerminator = false)
    (hthrows : x.isGuarded = true → op.canThrow = true → ∀ i ∈ x.instructions, ∀ op',
      c.operation i = .ok op' → op'.canThrow = false) :
    (c.inserted b index op).Controlled where
  terminated hz := by
    obtain ⟨y, hy, rfl⟩ := block_inserted.1 hz
    obtain ⟨i, op', hlast, hop', ht⟩ := hc.terminated hy
    exact ⟨i, op', (getLast?_inserted hx hindex hy).trans hlast, operation_inserted.2 (.inl hop'),
      ht⟩
  inner hz i hi op' hop' := by
    obtain ⟨n, hlt, hn⟩ := mem_dropLast_iff.1 hi
    rcases exists_place_inserted hx hindex hz hn with ⟨-, -, rfl⟩ | ⟨y, k, hy, hk, -, -, hlast⟩
    · rw [operation_inserted_next hop', hterm]
    · exact hc.inner hy i (mem_dropLast_iff.2 ⟨k, hlast hlt, hk⟩) op'
        (operation_of_inserted hI hy (List.mem_of_getElem? hk) hop')
  symmetric_out hedge := by
    rw [edge_inserted hx hindex hI] at hedge
    obtain ⟨y, hy, hmem⟩ := hc.symmetric_out hedge
    refine ⟨_, block_inserted.2 ⟨y, hy, rfl⟩, ?_⟩
    split <;> exact hmem
  symmetric_in hz p hp := by
    obtain ⟨y, hy, hpred, -⟩ := parts_inserted hz
    rw [edge_inserted hx hindex hI]
    exact hc.symmetric_in hy p (hpred ▸ hp)
  throws {s z} hz hguard i hi j hj o o' ho ho' ht ht' := by
    obtain ⟨y, hy, -, hhandlers, -⟩ := parts_inserted hz
    have hguard : y.isGuarded = true := by rwa [Block.isGuarded, ← hhandlers]
    -- an instruction of the block is an old one of it, or the new one, which has to stand alone
    have hcases : ∀ {k o}, k ∈ z.instructions → (c.inserted b index op).operation k = .ok o →
        (s = b ∧ k = ⟨c.instructions.length⟩ ∧ o = op) ∨
          k ∈ y.instructions ∧ c.operation k = .ok o := by
      intro k o hk ho
      obtain ⟨n, hn⟩ := List.mem_iff_getElem?.1 hk
      rcases exists_place_inserted hx hindex hz hn with ⟨hs, -, rfl⟩ | ⟨y', m, hy', hm, -⟩
      · exact .inl ⟨hs, rfl, operation_inserted_next ho⟩
      · obtain rfl : y = y' := Except.ok.inj (hy.symm.trans hy')
        have hk := List.mem_of_getElem? hm
        exact .inr ⟨hk, operation_of_inserted hI hy hk ho⟩
    have halone : ∀ {k o'}, s = b → op.canThrow = true → k ∈ y.instructions →
        c.operation k = .ok o' → o'.canThrow ≠ true := by
      rintro k o' rfl ht hk ho'
      obtain rfl : x = y := Except.ok.inj (hx.symm.trans hy)
      simp [hthrows hguard ht k hk o' ho']
    rcases hcases hi ho with ⟨hs, hi, heq⟩ | ⟨hi, ho⟩ <;>
      rcases hcases hj ho' with ⟨hs', hj, heq'⟩ | ⟨hj, ho'⟩
    · rw [hi, hj]
    · exact absurd ht' (halone hs (heq ▸ ht) hj ho')
    · exact absurd ht (halone hs' (heq' ▸ ht') hi ho)
    · exact hc.throws hy hguard i hi j hj o o' ho ho' ht ht'
  arity hz phi hphi := by
    obtain ⟨y, hy, hpred, -, hphis, -⟩ := parts_inserted hz
    rw [hpred]
    exact hc.arity hy phi (hphis ▸ hphi)

/-- A new instruction may stand where its operands are there. -/
theorem Consistent.inserted (hc : c.Consistent) (hI : c.Intact)
    (hterm : op.isTerminator = false) (hfresh : ∀ w, op.out? = some w → ¬ c.IsDefined w)
    (hoperands : ∀ w ∈ op.operands, c.IsDefined w ∧ (c.Reachable b → c.Ready w b index))
    (hthrows : x.isGuarded = true → op.canThrow = true → ∀ i ∈ x.instructions, ∀ op',
      c.operation i = .ok op' → op'.canThrow = false) :
    (c.inserted b index op).Consistent := by
  have hne : ∀ {w}, c.IsDefined w → op.out? ≠ some w := fun hw hout => hfresh _ hout hw
  refine (hc.controlled.inserted hx hindex hI.toArranged hterm hthrows).consistent ?_ ?_
  · intro s z n i op' hz hn hop' w hw
    rw [reachable_inserted hx hindex hI.toArranged]
    rcases exists_place_inserted hx hindex hz hn with
      ⟨rfl, rfl, rfl⟩ | ⟨y, k, hy, hk, hkn, hmoved, -⟩
    · rw [operation_inserted_next hop'] at hw
      obtain ⟨hdef, hready⟩ := hoperands w hw
      exact ⟨isDefined_inserted hdef, fun hr =>
        ready_inserted hx hindex hI (hne hdef) (hready hr) (Nat.le_refl n) (by omega)⟩
    · obtain ⟨hdef, hready⟩ := hc.operands hy hk
        (operation_of_inserted hI.toArranged hy (List.mem_of_getElem? hk) hop') w hw
      exact ⟨isDefined_inserted hdef, fun hr =>
        ready_inserted hx hindex hI (hne hdef) (hready hr) hkn hmoved⟩
  · intro s z phi hz hphi q hq
    rw [reachable_inserted hx hindex hI.toArranged]
    obtain ⟨y, hy, hpred, -, hphis, -⟩ := parts_inserted hz
    obtain ⟨hdef, hon⟩ := hc.inputs hy (hphis ▸ hphi) q (hpred ▸ hq)
    exact ⟨isDefined_inserted hdef, fun hr => onEdge_inserted hx hindex hI (hne hdef) (hon hr)⟩

end Inserted

end Body

end Devirt
