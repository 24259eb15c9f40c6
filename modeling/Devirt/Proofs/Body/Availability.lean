import Devirt.Body.Availability
import Devirt.Proofs.Body.Dominance

/-!
Where a value may be read, in terms of paths. A value is there at a place if it is defined earlier
in the same block, or if every path to the block passes a block from whose start on it is there.
-/

namespace Devirt

namespace Body

variable {c d : Body} {a b p s : BlockId} {i j : InstrId} {v : ValueId} {t : DominatorTree}
  {op : Operation} {n : Nat}

/-- An instruction or a phi outputs the value. -/
def IsDefined (c : Body) (v : ValueId) : Prop :=
  (∃ i, c.Outputs i v) ∨ ∃ b phi, c.HasPhi b phi ∧ phi.out = v

/-- From which block on the result of an instruction of the block `r` is there. The result of one
that may throw under a handler is there only if control goes on to one block that nothing else
leads to. -/
def ResultFrom (c : Body) (op : Operation) (r a : BlockId) : Prop :=
  ∃ x, c.block r = .ok x ∧
    if op.canThrow = true ∧ x.isGuarded = true then
      c.normalSuccessors r = .ok [a] ∧ ∃ y, c.block a = .ok y ∧ y.predecessors = [r]
    else a = r

/-- The value is there from the start of the block on, and in all blocks it dominates. -/
def AvailableFrom (c : Body) (v : ValueId) (a : BlockId) : Prop :=
  (∃ phi, c.HasPhi a phi ∧ phi.out = v) ∨
    ∃ i op r, c.operation i = .ok op ∧ op.out? = some v ∧ c.blockOf i = .ok r ∧
      c.ResultFrom op r a

/-- The value is there at the index of the block. -/
def Ready (c : Body) (v : ValueId) (b : BlockId) (n : Nat) : Prop :=
  (∃ i x k, c.Outputs i v ∧ c.block b = .ok x ∧ x.instructions[k]? = some i ∧ k < n) ∨
    ((∀ i, c.Outputs i v → c.blockOf i ≠ .ok b) ∧ ∃ a, c.AvailableFrom v a ∧ c.Dominates a b)

/-- The value is there when control passes from `p` to `b`. An instruction that throws has not
defined it yet when a handler takes over. -/
def OnEdge (c : Body) (v : ValueId) (p b : BlockId) : Prop :=
  (∃ i op, c.operation i = .ok op ∧ op.out? = some v ∧ c.blockOf i = .ok p ∧
      (op.canThrow = true → c.Handles p b → c.Jumps p b)) ∨
    ((∀ i, c.Outputs i v → c.blockOf i ≠ .ok p) ∧ ∃ a, c.AvailableFrom v a ∧ c.Dominates a p)

theorem dominates_self : c.Dominates b b := fun h => h.ne rfl

theorem Dominates.trans (hab : c.Dominates a b) (hbs : c.Dominates b s) : c.Dominates a s := by
  intro h
  rcases h.or_of b with h | h
  · exact hbs h
  · exact hab h

/-! ### The records of definitions -/

theorem Intact.value_of_outputs (hc : c.Intact) (hi : c.Outputs i v) :
    ∃ x, c.value v = .ok x ∧ x.definition = .instruction i := by
  obtain ⟨op, hop, hout⟩ := hi
  obtain ⟨x, hx⟩ := exists_value_iff.2 (hc.hasValue hop v (by simp [Operation.mentions, hout]))
  exact ⟨x, hx, (hc.definition_instruction hx i).2 ⟨op, hop, hout⟩⟩

theorem Intact.value_of_hasPhi (hc : c.Intact) {phi : Phi} (h : c.HasPhi b phi) :
    ∃ x, c.value phi.out = .ok x ∧ x.definition = .phi b := by
  obtain ⟨x, hx⟩ := exists_value_iff.2 (hc.phi_hasValue h phi.out (by simp))
  exact ⟨x, hx, (hc.definition_phi hx b).2 ⟨phi, h, rfl⟩⟩

/-- No value is the output of an instruction and of a phi. -/
theorem Intact.not_outputs_phi (hc : c.Intact) {phi : Phi} (h : c.HasPhi b phi) :
    ¬ c.Outputs i phi.out := by
  intro hi
  obtain ⟨x, hx, hdef⟩ := hc.value_of_hasPhi h
  obtain ⟨x', hx', hdef'⟩ := hc.value_of_outputs hi
  obtain rfl : x = x' := Except.ok.inj (hx.symm.trans hx')
  rw [hdef] at hdef'
  exact Definition.noConfusion hdef'

theorem Arranged.exists_place (hc : c.Arranged) (hop : c.operation i = .ok op) :
    ∃ r x, c.blockOf i = .ok r ∧ c.block r = .ok x ∧ i ∈ x.instructions := by
  obtain ⟨y, hy, -⟩ := operation_eq_ok.1 hop
  obtain ⟨x, hx, hmem⟩ := hc.recorded (blockOf_of_instruction hy)
  exact ⟨y.block, x, blockOf_of_instruction hy, hx, hmem⟩

/-- How the definition recorded on a value is to be read. -/
theorem Intact.definition_cases (hc : c.Intact) {x : Value} (hx : c.value v = .ok x) :
    (x.definition = .undefined ∧ ¬ c.IsDefined v) ∨
      (∃ b phi, x.definition = .phi b ∧ c.HasPhi b phi ∧ phi.out = v) ∨
        ∃ i y, x.definition = .instruction i ∧ c.instruction i = .ok y ∧ y.op.out? = some v := by
  cases hdef : x.definition with
  | undefined =>
    refine .inl ⟨rfl, ?_⟩
    rintro (⟨i, hi⟩ | ⟨b, phi, hphi, hout⟩)
    · rw [(hc.definition_instruction hx i).2 hi] at hdef
      exact Definition.noConfusion hdef
    · rw [(hc.definition_phi hx b).2 ⟨phi, hphi, hout⟩] at hdef
      exact Definition.noConfusion hdef
  | phi b =>
    obtain ⟨phi, hphi, hout⟩ := (hc.definition_phi hx b).1 hdef
    exact .inr (.inl ⟨b, phi, rfl, hphi, hout⟩)
  | instruction i =>
    obtain ⟨op, hop, hout⟩ := (hc.definition_instruction hx i).1 hdef
    obtain ⟨y, hy, rfl⟩ := operation_eq_ok.1 hop
    exact .inr (.inr ⟨i, y, rfl, hy, hout⟩)

/-! ### What the checks of availability answer -/

theorem AvailableFrom.of_phi (hc : c.Intact) {phi : Phi} (h : c.HasPhi b phi) :
    c.AvailableFrom phi.out a ↔ a = b := by
  constructor
  · rintro (⟨phi', h', hout⟩ | ⟨i, op, r, hop, hout, -⟩)
    · obtain ⟨x, hx, hdef⟩ := hc.value_of_hasPhi h
      have := (hc.definition_phi hx a).2 ⟨phi', h', hout⟩
      simpa using (hdef.symm.trans this).symm
    · exact absurd ⟨op, hop, hout⟩ (hc.not_outputs_phi h)
  · rintro rfl
    exact .inl ⟨phi, h, rfl⟩

theorem AvailableFrom.of_operation (hc : c.Intact) {r : BlockId} (hop : c.operation i = .ok op)
    (hout : op.out? = some v) (hr : c.blockOf i = .ok r) :
    c.AvailableFrom v a ↔ c.ResultFrom op r a := by
  constructor
  · rintro (⟨phi, hphi, rfl⟩ | ⟨i', op', r', hop', hout', hr', h⟩)
    · exact absurd ⟨op, hop, hout⟩ (hc.not_outputs_phi hphi)
    · obtain rfl := hc.eq_of_outputs ⟨op, hop, hout⟩ ⟨op', hop', hout'⟩
      obtain rfl : op = op' := Except.ok.inj (hop.symm.trans hop')
      obtain rfl : r = r' := Except.ok.inj (hr.symm.trans hr')
      exact h
  · intro h
    exact .inr ⟨i, op, r, hop, hout, hr, h⟩

theorem AvailableFrom.isDefined (h : c.AvailableFrom v a) : c.IsDefined v := by
  rcases h with ⟨phi, hphi, hout⟩ | ⟨i, op, _, hop, hout, -⟩
  · exact .inr ⟨a, phi, hphi, hout⟩
  · exact .inl ⟨i, op, hop, hout⟩

theorem exists_availableFrom? (hc : c.Intact) (hclosed : c.Closed) (hv : c.HasValue v) :
    ∃ o, c.availableFrom? v = .ok o ∧ ∀ a, o = some a ↔ c.AvailableFrom v a := by
  obtain ⟨x, hx⟩ := exists_value_iff.2 hv
  rcases hc.definition_cases hx with ⟨hdef, hnot⟩ | ⟨b, phi, hdef, hphi, rfl⟩ |
    ⟨i, y, hdef, hy, hout⟩
  · refine ⟨none, by simp [availableFrom?, hx, hdef], fun a => ?_⟩
    simpa using fun h => hnot (AvailableFrom.isDefined h)
  · refine ⟨some b, by simp [availableFrom?, hx, hdef], fun a => ?_⟩
    rw [AvailableFrom.of_phi hc hphi, Option.some_inj, eq_comm]
  · obtain ⟨r, z, hr, hz, -⟩ := hc.exists_place (operation_of_instruction hy)
    obtain rfl : r = y.block := Except.ok.inj (hr.symm.trans (blockOf_of_instruction hy))
    simp only [AvailableFrom.of_operation hc (operation_of_instruction hy) hout hr, ResultFrom, hz,
      Except.ok.injEq, exists_eq_left']
    by_cases hthrow : y.op.canThrow = true ∧ z.isGuarded = true
    · obtain ⟨l, hl⟩ := hc.exists_normalSuccessors hz
      simp only [hthrow, and_self, if_true, hl, Except.ok.injEq]
      match l, hl with
      | [], hl => exact ⟨none, by simp [availableFrom?, hx, hdef, hy, hz, hthrow, hl], by simp⟩
      | [next], hl =>
        have hjump : c.Jumps y.block next := (mem_normalSuccessors hl).1 (by simp)
        obtain ⟨w, hw⟩ := exists_block_iff.2 (hclosed _ _ (.inl hjump))
        refine ⟨if w.predecessors = [y.block] then some next else none,
          by simp [availableFrom?, hx, hdef, hy, hz, hthrow, hl, hw], fun a => ?_⟩
        constructor
        · intro h
          split at h
          · obtain rfl := Option.some.inj h
            exact ⟨rfl, w, hw, by assumption⟩
          · simp at h
        · rintro ⟨hnext, w', hw', hpred⟩
          obtain rfl : next = a := by simpa using hnext
          obtain rfl : w = w' := Except.ok.inj (hw.symm.trans hw')
          simp [hpred]
      | _ :: _ :: _, hl =>
        exact ⟨none, by simp [availableFrom?, hx, hdef, hy, hz, hthrow, hl], by simp⟩
    · refine ⟨some y.block, ?_, fun a => by simp [hthrow, @eq_comm BlockId a]⟩
      by_cases h1 : y.op.canThrow = true
      · have h2 : z.isGuarded = false := by simpa [h1] using hthrow
        simp [availableFrom?, hx, hdef, hy, hz, h1, h2]
      · simp [availableFrom?, hx, hdef, hy, hz, h1]

theorem exists_availableIn (hc : c.Intact) (hclosed : c.Closed) (hv : c.HasValue v) :
    ∃ r, c.availableIn t v b = .ok r ∧
      (r = true ↔ ∃ a, c.AvailableFrom v a ∧ t.dominates a b = true) := by
  obtain ⟨o, ho, hiff⟩ := exists_availableFrom? hc hclosed hv
  refine ⟨o.any (t.dominates · b), by simp [availableIn, ho], ?_⟩
  simp only [Option.any_eq_true_iff_get, ← hiff]
  cases o <;> simp

/-- The tree answers for the control flow of the body. -/
def Describes (t : DominatorTree) (c : Body) : Prop :=
  ∀ a b, c.Reachable b → (t.dominates a b = true ↔ c.Dominates a b)

theorem describes_of_dominators (hc : c.Arranged) (hclosed : c.Closed)
    (ht : c.dominators = .ok t) : Describes t c := by
  intro a b hb
  rw [dominates_iff hc hclosed ht]
  constructor
  · rintro (rfl | h)
    · exact dominates_self
    · exact h.2
  · intro h
    exact .inr ⟨hb, h⟩

theorem exists_leavesByHandler (hc : c.Arranged) (hp : c.HasBlock p) :
    ∃ r, c.leavesByHandler p b = .ok r ∧ (r = true ↔ c.Handles p b ∧ ¬ c.Jumps p b) := by
  obtain ⟨x, hx⟩ := exists_block_iff.2 hp
  obtain ⟨l, hl⟩ := hc.exists_normalSuccessors hx
  refine ⟨b ∉ l && x.handlesInto b, by simp [leavesByHandler, hl, hx], ?_⟩
  rw [← mem_normalSuccessors hl, Handles]
  simp [hx, Block.handlesInto, and_comm]

/-- What a phi may read on an edge that control can take. -/
theorem exists_availableOnEdge (hc : c.Intact) (hclosed : c.Closed) (ht : Describes t c)
    (hv : c.HasValue v) (hp : c.HasBlock p) :
    ∃ r, c.availableOnEdge t v p b = .ok r ∧ (c.Reachable p → (r = true ↔ c.OnEdge v p b)) := by
  obtain ⟨x, hx⟩ := exists_value_iff.2 hv
  obtain ⟨r, hr, hiff⟩ := exists_availableIn (t := t) (b := p) hc hclosed hv
  have helse : (∀ i, c.Outputs i v → c.blockOf i ≠ .ok p) → c.Reachable p →
      (r = true ↔ c.OnEdge v p b) := by
    intro hnot hreach
    simp only [hiff, ht _ _ hreach]
    constructor
    · intro h
      exact .inr ⟨hnot, h⟩
    · rintro (⟨i, op, hop, hout, hof, -⟩ | h)
      · exact absurd hof (hnot i ⟨op, hop, hout⟩)
      · exact h.2
  rcases hc.definition_cases hx with ⟨hdef, hnot⟩ | ⟨q, phi, hdef, hphi, rfl⟩ |
    ⟨i, y, hdef, hy, hout⟩
  · refine ⟨r, by simp [availableOnEdge, hx, hdef, hr], helse fun i hi => ?_⟩
    exact absurd (.inl ⟨i, hi⟩) hnot
  · refine ⟨r, by simp [availableOnEdge, hx, hdef, hr], helse fun i hi => ?_⟩
    exact absurd hi (hc.not_outputs_phi hphi)
  · have hop := operation_of_instruction hy
    by_cases hblock : y.block = p
    · obtain ⟨l, hl, hleaves⟩ := exists_leavesByHandler (b := b) hc.toArranged hp
      refine ⟨!(y.op.canThrow && l), by simp [availableOnEdge, hx, hdef, hy, hblock, hl],
        fun _ => ?_⟩
      have hof : c.blockOf i = .ok p := hblock ▸ blockOf_of_instruction hy
      constructor
      · intro h
        refine .inl ⟨i, y.op, hop, hout, hof, fun hthrow hhandles => ?_⟩
        by_contra hjumps
        simp [hthrow, hleaves.2 ⟨hhandles, hjumps⟩] at h
      · rintro (⟨i', op', hop', hout', -, himp⟩ | ⟨hnot, -⟩)
        · obtain rfl := hc.eq_of_outputs ⟨y.op, hop, hout⟩ ⟨op', hop', hout'⟩
          obtain rfl : y.op = op' := Except.ok.inj (hop.symm.trans hop')
          cases hthrow : y.op.canThrow with
          | false => rfl
          | true =>
            have : l = false := by
              rw [← Bool.not_eq_true, hleaves]
              exact fun h => h.2 (himp hthrow h.1)
            simp [this]
        · exact absurd hof (hnot i ⟨y.op, hop, hout⟩)
    · refine ⟨r, by simp [availableOnEdge, hx, hdef, hy, hblock, hr], helse fun i' hi' hof => ?_⟩
      obtain rfl := hc.eq_of_outputs ⟨y.op, hop, hout⟩ hi'
      exact hblock (Except.ok.inj ((blockOf_of_instruction hy).symm.trans hof))

theorem Arranged.index?_eq_ok (hc : c.Arranged) {x : Block} {k : Nat} (hx : c.block b = .ok x)
    (hk : x.instructions[k]? = some i) : c.index? i = .ok (some k) := by
  have hof : c.blockOf i = .ok b := hc.placed hx i (List.mem_of_getElem? hk)
  obtain ⟨hlt, hget⟩ := List.getElem?_eq_some_iff.1 hk
  have hidx : x.instructions.idxOf? i = some k := by
    refine List.idxOf?_eq_some_iff.2 ⟨hlt, hget, fun j hj heq => ?_⟩
    exact Nat.ne_of_lt hj ((hc.nodup hx).getElem_inj_iff.1 (heq.trans hget.symm))
  simp [index?, hof, hx, hidx]

/-- In the block that defines it a value is there after its definition. -/
theorem ready_iff_lt (hc : c.Intact) {x : Block} {k : Nat} (hi : c.Outputs i v)
    (hx : c.block b = .ok x) (hk : x.instructions[k]? = some i) : c.Ready v b n ↔ k < n := by
  constructor
  · rintro (⟨i', x', k', hi', hx', hk', hlt⟩ | ⟨hnot, -⟩)
    · obtain rfl := hc.eq_of_outputs hi hi'
      obtain rfl : x = x' := Except.ok.inj (hx.symm.trans hx')
      have hkk : k = k' :=
        (List.getElem?_inj (List.getElem?_eq_some_iff.1 hk).1 (hc.nodup hx)).1 (hk.trans hk'.symm)
      exact hkk ▸ hlt
    · exact absurd (hc.placed hx i (List.mem_of_getElem? hk)) (hnot i hi)
  · intro h
    exact .inl ⟨i, x, k, hi, hx, hk, h⟩

/-- In all other blocks it is there if it is available. -/
theorem ready_iff_available (hc : c.Intact) (hnot : ∀ i, c.Outputs i v → c.blockOf i ≠ .ok b) :
    c.Ready v b n ↔ ∃ a, c.AvailableFrom v a ∧ c.Dominates a b := by
  constructor
  · rintro (⟨i, x, k, hi, hx, hk, -⟩ | h)
    · exact absurd (hc.placed hx i (List.mem_of_getElem? hk)) (hnot i hi)
    · exact h.2
  · intro h
    exact .inr ⟨hnot, h⟩

/-- Which instructions may read what another one defines. -/
theorem exists_standsAfter (hc : c.Intact) (hclosed : c.Closed) (ht : Describes t c)
    (hi : c.Outputs i v) {x : Block} (hx : c.block b = .ok x) (hn : x.instructions[n]? = some j) :
    ∃ r, c.standsAfter t i v j = .ok r ∧ (c.Reachable b → (r = true ↔ c.Ready v b n)) := by
  obtain ⟨op, hop, hout⟩ := id hi
  obtain ⟨r, y, hr, hy, hmem⟩ := hc.exists_place hop
  have hj : c.blockOf j = .ok b := hc.placed hx j (List.mem_of_getElem? hn)
  by_cases hrb : r = b
  · subst hrb
    obtain rfl : x = y := Except.ok.inj (hx.symm.trans hy)
    obtain ⟨k, hk⟩ := List.mem_iff_getElem?.1 hmem
    refine ⟨k < n, ?_, fun _ => by rw [ready_iff_lt hc hi hx hk, decide_eq_true_eq]⟩
    simp [standsAfter, hr, hj, hc.index?_eq_ok hx hk, hc.index?_eq_ok hx hn]
  · obtain ⟨a, ha, hiff⟩ := exists_availableIn (t := t) (b := b) hc hclosed
      (hc.hasValue hop v (by simp [Operation.mentions, hout]))
    refine ⟨a, by simp [standsAfter, hr, hj, hrb, ha], fun hreach => ?_⟩
    rw [ready_iff_available hc, hiff]
    · simp only [ht _ _ hreach]
    · intro i' hi' hof
      obtain rfl := hc.eq_of_outputs hi hi'
      exact hrb (Except.ok.inj (hr.symm.trans hof))

end Body

end Devirt
