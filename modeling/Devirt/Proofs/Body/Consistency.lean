import Devirt.Body.Consistency
import Devirt.Proofs.Body.Availability

/-!
Consistent bodies. What the consistency check asks of a body is stated here block by block, and the
check finds no violation exactly in the bodies of which it holds. Duplicate definitions and stale
records do not occur in bodies whose records are in order.
-/

namespace Devirt

namespace Body

/-- The single-assignment form. -/
structure Consistent (c : Body) : Prop where
  terminated : ∀ {b x}, c.block b = .ok x →
    ∃ i op, x.instructions.getLast? = some i ∧ c.operation i = .ok op ∧ op.isTerminator = true
  inner : ∀ {b x}, c.block b = .ok x → ∀ i ∈ x.instructions.dropLast, ∀ op,
    c.operation i = .ok op → op.isTerminator = false
  symmetric_out : ∀ {b s}, c.Edge b s → ∃ y, c.block s = .ok y ∧ b ∈ y.predecessors
  symmetric_in : ∀ {b x}, c.block b = .ok x → ∀ p ∈ x.predecessors, c.Edge p b
  /-- A guarded block has one throwing instruction at most. -/
  throws : ∀ {b x}, c.block b = .ok x → x.isGuarded = true → ∀ i ∈ x.instructions,
    ∀ j ∈ x.instructions, ∀ op op', c.operation i = .ok op → c.operation j = .ok op' →
      op.canThrow = true → op'.canThrow = true → i = j
  arity : ∀ {b x}, c.block b = .ok x → ∀ phi ∈ x.phis,
    phi.operands.length = x.predecessors.length
  operands : ∀ {b x n i op}, c.block b = .ok x → x.instructions[n]? = some i →
    c.operation i = .ok op → ∀ v ∈ op.operands, c.IsDefined v ∧ (c.Reachable b → c.Ready v b n)
  inputs : ∀ {b x phi}, c.block b = .ok x → phi ∈ x.phis →
    ∀ q ∈ phi.operands.zip x.predecessors,
      c.IsDefined q.1 ∧ (c.Reachable q.2 → c.OnEdge q.1 q.2 b)

variable {c d : Body} {a b p s : BlockId} {i j : InstrId} {v : ValueId} {t : DominatorTree}
  {op : Operation} {n : Nat} {x : Block} {sites : List DefinitionSite}

/-- Blocks end with their only terminators, guarded ones throw in one place at most, and phis have an
operand for each of the edges, which are known on both ends. -/
structure Controlled (c : Body) : Prop where
  terminated : ∀ {b x}, c.block b = .ok x →
    ∃ i op, x.instructions.getLast? = some i ∧ c.operation i = .ok op ∧ op.isTerminator = true
  inner : ∀ {b x}, c.block b = .ok x → ∀ i ∈ x.instructions.dropLast, ∀ op,
    c.operation i = .ok op → op.isTerminator = false
  symmetric_out : ∀ {b s}, c.Edge b s → ∃ y, c.block s = .ok y ∧ b ∈ y.predecessors
  symmetric_in : ∀ {b x}, c.block b = .ok x → ∀ p ∈ x.predecessors, c.Edge p b
  throws : ∀ {b x}, c.block b = .ok x → x.isGuarded = true → ∀ i ∈ x.instructions,
    ∀ j ∈ x.instructions, ∀ op op', c.operation i = .ok op → c.operation j = .ok op' →
      op.canThrow = true → op'.canThrow = true → i = j
  arity : ∀ {b x}, c.block b = .ok x → ∀ phi ∈ x.phis,
    phi.operands.length = x.predecessors.length

theorem Consistent.controlled (hc : c.Consistent) : c.Controlled :=
  ⟨hc.terminated, hc.inner, hc.symmetric_out, hc.symmetric_in, hc.throws, hc.arity⟩

/-- A body whose control flow is in order is consistent if what is read is there. -/
theorem Controlled.consistent (hc : c.Controlled)
    (hoperands : ∀ {b x n i op}, c.block b = .ok x → x.instructions[n]? = some i →
      c.operation i = .ok op → ∀ v ∈ op.operands, c.IsDefined v ∧ (c.Reachable b → c.Ready v b n))
    (hinputs : ∀ {b x phi}, c.block b = .ok x → phi ∈ x.phis →
      ∀ q ∈ phi.operands.zip x.predecessors,
        c.IsDefined q.1 ∧ (c.Reachable q.2 → c.OnEdge q.1 q.2 b)) : c.Consistent :=
  ⟨hc.terminated, hc.inner, hc.symmetric_out, hc.symmetric_in, hc.throws, hc.arity, hoperands,
    hinputs⟩

theorem Consistent.closed (hc : c.Consistent) : c.Closed := by
  intro b s h
  obtain ⟨y, hy, -⟩ := hc.symmetric_out h
  exact hasBlock_of_block hy

/-! ### Blocks -/

theorem Arranged.exists_operations (hc : c.Arranged) (hx : c.block b = .ok x) :
    ∃ f : InstrId → Operation, ∀ i ∈ x.instructions, c.operation i = .ok (f i) := by
  have h : ∀ i, ∃ op, i ∈ x.instructions → c.operation i = .ok op := by
    intro i
    by_cases hi : i ∈ x.instructions
    · exact (hc.exists_operation hx hi).imp fun _ h _ => h
    · exact ⟨.goto b, fun h => absurd h hi⟩
  exact ⟨fun i => (h i).choose, fun i => (h i).choose_spec⟩

theorem mem_layout (hc : c.Arranged) {l : List (BlockId × Block)} (hl : c.layout = .ok l) :
    (b, x) ∈ l ↔ c.block b = .ok x := by
  rw [mem_of_mapM_eq_ok hl]
  constructor
  · rintro ⟨b', -, h⟩
    simp only [bind_eq_ok, pure_eq_ok, Except.ok.injEq, Prod.mk.injEq] at h
    obtain ⟨x', hx', rfl, rfl⟩ := h
    exact hx'
  · intro hx
    exact ⟨b, (hc.mem_order b).2 (hasBlock_of_block hx), by simp [hx]⟩

theorem map_fst_layout {l : List (BlockId × Block)} (hl : c.layout = .ok l) :
    l.map (·.1) = c.order := by
  rw [layout, mapM_eq_ok] at hl
  generalize c.order = order at hl
  induction hl with
  | nil => rfl
  | cons hq _ ih =>
    simp only [bind_eq_ok, pure_eq_ok, Except.ok.injEq] at hq
    obtain ⟨x, -, rfl⟩ := hq
    simp [ih]

theorem Arranged.exists_layout (hc : c.Arranged) : ∃ l, c.layout = .ok l := by
  refine exists_mapM_eq_ok.2 fun b hb => ?_
  obtain ⟨x, hx⟩ := exists_block_iff.2 ((hc.mem_order b).1 hb)
  exact ⟨(b, x), by simp [hx]⟩

theorem terminatorViolations_eq_nil (hc : c.Arranged) (hx : c.block b = .ok x) :
    c.terminatorViolations b x = .ok [] ↔
      (∃ i op, x.instructions.getLast? = some i ∧ c.operation i = .ok op ∧
        op.isTerminator = true) ∧
      ∀ i ∈ x.instructions.dropLast, ∀ op, c.operation i = .ok op → op.isTerminator = false := by
  obtain ⟨f, hf⟩ := hc.exists_operations hx
  have hmap : (x.instructions.mapM fun i => do return (i, ← c.operation i)) =
      .ok (x.instructions.map fun i => (i, f i)) :=
    mapM_eq_ok_map fun i hi => by simp [hf i hi]
  rw [terminatorViolations, hmap]
  simp only [ok_bind, pure_eq_ok, Except.ok.injEq, List.append_eq_nil_iff, List.map_eq_nil_iff,
    List.filter_eq_nil_iff, List.getLast?_map,
    ← List.map_dropLast, List.forall_mem_map]
  refine and_congr ?_ (forall₂_congr fun i hi => ?_)
  · cases hlast : x.instructions.getLast? with
    | none => simp
    | some i => simp [hf i (List.mem_of_getLast? hlast)]
  · simp [hf i (List.dropLast_subset _ hi)]

theorem edgeViolations_eq_nil (hc : c.Arranged) (hx : c.block b = .ok x) :
    c.edgeViolations b x = .ok [] ↔
      (∀ s, c.Edge b s → ∃ y, c.block s = .ok y ∧ b ∈ y.predecessors) ∧
      ∀ p ∈ x.predecessors, c.Edge p b := by
  obtain ⟨l, hl⟩ := hc.exists_successors hx
  have hsplit : c.edgeViolations b x = .ok [] ↔
      (l.filterM fun s => do return b ∉ (← c.block s).predecessors) = .ok [] ∧
      (x.predecessors.filterM fun p => do return b ∉ (← c.successors p)) = .ok [] := by
    simp [edgeViolations, hl, List.append_eq_nil_iff]
  rw [hsplit, filterM_eq_ok_nil, filterM_eq_ok_nil]
  refine and_congr (forall_congr' fun s => ?_) (forall₂_congr fun p _ => ?_)
  · rw [mem_successors hl]
    simp
  · constructor
    · intro h
      simp only [bind_eq_ok, pure_eq_ok, Except.ok.injEq, decide_eq_false_iff_not,
        Decidable.not_not] at h
      obtain ⟨l', hl', hb⟩ := h
      exact (mem_successors hl').1 hb
    · intro h
      obtain ⟨y, hy⟩ := h.exists_block
      obtain ⟨l', hl'⟩ := hc.exists_successors hy
      simp [hl', (mem_successors hl').2 h]

private theorem length_le_one_iff {α : Type} {l : List α} (hl : l.Nodup) :
    l.length ≤ 1 ↔ ∀ a ∈ l, ∀ b ∈ l, a = b := by
  match l, hl with
  | [], _ => simp
  | [a], _ => simp
  | a :: b :: l, hl =>
    have hne : a ≠ b := by
      rintro rfl
      simp at hl
    refine iff_of_false (by simp) fun h => hne (h a (by simp) b (by simp))

theorem guardViolations_eq_nil (hc : c.Arranged) (hx : c.block b = .ok x) :
    c.guardViolations b x = .ok [] ↔
      (x.isGuarded = true → ∀ i ∈ x.instructions, ∀ j ∈ x.instructions, ∀ op op',
        c.operation i = .ok op → c.operation j = .ok op' → op.canThrow = true →
          op'.canThrow = true → i = j) := by
  obtain ⟨f, hf⟩ := hc.exists_operations hx
  have hcount : ((x.instructions.map f).filter (·.canThrow)).length =
      (x.instructions.filter fun i => (f i).canThrow).length := by
    rw [List.filter_map, List.length_map]
    rfl
  simp only [guardViolations, mapM_eq_ok_map hf, ok_bind, hcount, pure_eq_ok, Except.ok.injEq]
  have hle := length_le_one_iff ((hc.nodup hx).filter fun i => (f i).canThrow)
  constructor
  · intro h hguard i hi j hj op op' hop hop' ht ht'
    have hone : (x.instructions.filter fun i => (f i).canThrow).length ≤ 1 := by
      simpa [hguard] using h
    obtain rfl : f i = op := Except.ok.inj ((hf i hi).symm.trans hop)
    obtain rfl : f j = op' := Except.ok.inj ((hf j hj).symm.trans hop')
    exact hle.1 hone i (List.mem_filter.2 ⟨hi, ht⟩) j (List.mem_filter.2 ⟨hj, ht'⟩)
  · intro h
    cases hguard : x.isGuarded with
    | false => rfl
    | true =>
      have hone := hle.2 fun i hi j hj =>
        h hguard i (List.mem_of_mem_filter hi) j (List.mem_of_mem_filter hj) _ _
          (hf i (List.mem_of_mem_filter hi)) (hf j (List.mem_of_mem_filter hj))
          (List.mem_filter.1 hi).2 (List.mem_filter.1 hj).2
      simp [Nat.not_lt.2 hone]

/-! ### Definition sites -/

/-- A place where the body defines a value. -/
def Sites (c : Body) (s : DefinitionSite) : Prop :=
  (∃ x phi, c.block s.block = .ok x ∧ phi ∈ x.phis ∧ phi.out = s.value ∧ s.index = none ∧
      s.arity = some (phi.operands.length, x.predecessors.length)) ∨
    ∃ x i n, c.block s.block = .ok x ∧ x.instructions[n]? = some i ∧ c.Outputs i s.value ∧
      s.index = some n ∧ s.arity = none

theorem exists_blockSites (hc : c.Arranged) (hx : c.block b = .ok x) :
    ∃ f : InstrId → Operation, (∀ i ∈ x.instructions, c.operation i = .ok (f i)) ∧
      c.blockSites b x = .ok
        ((x.phis.map fun phi => { value := phi.out, block := b, index := none
                                  arity := some (phi.operands.length, x.predecessors.length) }) ++
          (x.instructions.zipIdx.filterMap fun (i, n) =>
            (f i).out?.map fun v => { value := v, block := b, index := some n })) := by
  obtain ⟨f, hf⟩ := hc.exists_operations hx
  refine ⟨f, hf, ?_⟩
  simp only [blockSites, mapM_eq_ok_map hf, ok_bind, pure_eq_ok, List.zipIdx_map, List.filterMap_map]
  rfl

theorem mem_blockSites (hc : c.Arranged) (hx : c.block b = .ok x) {l : List DefinitionSite}
    (hl : c.blockSites b x = .ok l) {s : DefinitionSite} :
    s ∈ l ↔ s.block = b ∧ c.Sites s := by
  obtain ⟨f, hf, heq⟩ := exists_blockSites hc hx
  obtain rfl := Except.ok.inj (heq.symm.trans hl)
  simp only [List.mem_append, List.mem_map, List.mem_filterMap, Prod.exists, Sites,
    List.mem_zipIdx_iff_getElem?, Option.map_eq_some_iff]
  constructor
  · rintro (⟨phi, hphi, rfl⟩ | ⟨i, n, hn, v, hv, rfl⟩)
    · exact ⟨rfl, .inl ⟨x, phi, hx, hphi, rfl, rfl, rfl⟩⟩
    · exact ⟨rfl, .inr ⟨x, i, n, hx, hn, ⟨f i, hf i (List.mem_of_getElem? hn), hv⟩, rfl, rfl⟩⟩
  · rintro ⟨hblock, ⟨x', phi, hx', hphi, hout, hindex, harity⟩ |
      ⟨x', i, n, hx', hn, ⟨op, hop, hout⟩, hindex, harity⟩⟩ <;>
    obtain ⟨value, block, index, arity⟩ := s <;>
    obtain rfl : block = b := hblock <;>
    obtain rfl : x = x' := Except.ok.inj (hx.symm.trans hx')
    · exact .inl ⟨phi, hphi, by simp_all⟩
    · have hi := hf i (List.mem_of_getElem? hn)
      obtain rfl : f i = op := Except.ok.inj (hi.symm.trans hop)
      exact .inr ⟨i, n, hn, value, hout, by simp_all⟩

theorem exists_definitionSites (hc : c.Arranged) :
    ∃ sites, c.definitionSites = .ok sites ∧ ∀ s, s ∈ sites ↔ c.Sites s := by
  obtain ⟨l, hl⟩ := hc.exists_layout
  have hall : ∀ q ∈ l, ∃ r, c.blockSites q.1 q.2 = .ok r := by
    rintro ⟨b, x⟩ hq
    obtain ⟨f, -, h⟩ := exists_blockSites hc ((mem_layout hc hl).1 hq)
    exact ⟨_, h⟩
  obtain ⟨L, hL⟩ := exists_mapM_eq_ok.2 hall
  refine ⟨L.flatten, by simp only [definitionSites, hl, hL, ok_bind, pure_eq_ok], fun s => ?_⟩
  rw [List.mem_flatten]
  constructor
  · rintro ⟨r, hr, hs⟩
    obtain ⟨⟨b, x⟩, hq, hr⟩ := (mem_of_mapM_eq_ok hL).1 hr
    exact ((mem_blockSites hc ((mem_layout hc hl).1 hq) hr).1 hs).2
  · intro hs
    obtain ⟨x, hx⟩ : ∃ x, c.block s.block = .ok x := by
      rcases hs with ⟨x, _, hx, -⟩ | ⟨x, _, _, hx, -⟩ <;> exact ⟨x, hx⟩
    have hq := (mem_layout hc hl).2 hx
    obtain ⟨r, hr⟩ := hall _ hq
    exact ⟨r, (mem_of_mapM_eq_ok hL).2 ⟨_, hq, hr⟩, (mem_blockSites hc hx hr).2 ⟨rfl, hs⟩⟩

/-- A value has one site. -/
theorem Intact.block_eq_of_sites (hc : c.Intact) {s s' : DefinitionSite} (hs : c.Sites s)
    (hs' : c.Sites s') (hv : s.value = s'.value) : s.block = s'.block ∧ s.index = s'.index := by
  rcases hs with ⟨x, phi, hx, hphi, hout, hindex, -⟩ | ⟨x, i, n, hx, hn, hi, hindex, -⟩ <;>
  rcases hs' with ⟨x', phi', hx', hphi', hout', hindex', -⟩ |
    ⟨x', i', n', hx', hn', hi', hindex', -⟩
  · obtain ⟨y, hy, hdef⟩ := hc.value_of_hasPhi ⟨x, hx, hphi⟩
    have hdef' := (hc.definition_phi hy s'.block).2
      ⟨phi', ⟨x', hx', hphi'⟩, by rw [hout', ← hv, hout]⟩
    exact ⟨by simpa using hdef.symm.trans hdef', by rw [hindex, hindex']⟩
  · exact absurd (by rw [hout, hv]; exact hi') (hc.not_outputs_phi (i := i') ⟨x, hx, hphi⟩)
  · exact absurd (by rw [hout', ← hv]; exact hi) (hc.not_outputs_phi (i := i) ⟨x', hx', hphi'⟩)
  · obtain rfl := hc.eq_of_outputs hi (hv ▸ hi')
    have hblock := hc.block_unique hx hx' (List.mem_of_getElem? hn) (List.mem_of_getElem? hn')
    obtain rfl : x = x' := Except.ok.inj (hx.symm.trans (hblock ▸ hx'))
    have hnn : n = n' :=
      (List.getElem?_inj (List.getElem?_eq_some_iff.1 hn).1 (hc.nodup hx)).1 (hn.trans hn'.symm)
    exact ⟨hblock, by rw [hindex, hindex', hnn]⟩

private theorem nodup_blockSites (hc : c.Intact) (hx : c.block b = .ok x) {l : List DefinitionSite}
    (hl : c.blockSites b x = .ok l) : (l.map (·.value)).Nodup := by
  obtain ⟨f, hf, heq⟩ := exists_blockSites hc.toArranged hx
  obtain rfl := Except.ok.inj (heq.symm.trans hl)
  have hvalues : ((x.instructions.zipIdx.filterMap fun (i, n) => (f i).out?.map fun v =>
      ({ value := v, block := b, index := some n } : DefinitionSite)).map (·.value)) =
      x.instructions.filterMap fun i => (f i).out? := by
    conv_rhs => rw [← List.zipIdx_map_fst 0 x.instructions, List.filterMap_map]
    rw [List.map_filterMap]
    refine List.filterMap_congr fun ⟨i, n⟩ _ => ?_
    cases h : (f i).out? <;> simp [h]
  rw [List.map_append, hvalues, List.map_map, List.nodup_append]
  refine ⟨hc.phi_nodup hx, ?_, ?_⟩
  · refine List.pairwise_filterMap.2 ((hc.nodup hx).imp_of_mem fun hi hj hne v hv w hw => ?_)
    rintro rfl
    exact hne (hc.eq_of_outputs ⟨_, hf _ hi, hv⟩ ⟨_, hf _ hj, hw⟩)
  · rintro v hv w hw rfl
    obtain ⟨phi, hphi, rfl⟩ := List.mem_map.1 hv
    obtain ⟨i, hi, hout⟩ := List.mem_filterMap.1 hw
    exact hc.not_outputs_phi ⟨x, hx, hphi⟩ ⟨f i, hf i hi, hout⟩

theorem nodup_definitionSites (hc : c.Intact) (h : c.definitionSites = .ok sites) :
    (sites.map (·.value)).Nodup := by
  simp only [definitionSites, bind_eq_ok, pure_eq_ok, Except.ok.injEq] at h
  obtain ⟨l, hl, L, hL, rfl⟩ := h
  have hall : ∀ q ∈ l, c.blockSites q.1 q.2 = .ok ((c.blockSites q.1 q.2).toOption.getD []) := by
    rintro ⟨b, x⟩ hq
    obtain ⟨f, -, h⟩ := exists_blockSites hc.toArranged ((mem_layout hc.toArranged hl).1 hq)
    rw [h]
    rfl
  obtain rfl := Except.ok.inj ((mapM_eq_ok_map hall).symm.trans hL)
  rw [List.map_flatten, List.nodup_flatten, List.map_map]
  constructor
  · simp only [List.mem_map, Function.comp_apply]
    rintro _ ⟨⟨b, x⟩, hq, rfl⟩
    exact nodup_blockSites hc ((mem_layout hc.toArranged hl).1 hq) (hall _ hq)
  · have hfst : (l.map (·.1)).Nodup := map_fst_layout hl ▸ hc.order_nodup
    refine List.pairwise_map.2 ((List.pairwise_map.1 hfst).imp_of_mem ?_)
    intro q q' hq hq' hne v hv hv'
    obtain ⟨s, hs, rfl⟩ := List.mem_map.1 hv
    obtain ⟨s', hs', hval⟩ := List.mem_map.1 hv'
    have hq := (mem_layout hc.toArranged hl).1 hq
    have hq' := (mem_layout hc.toArranged hl).1 hq'
    obtain ⟨hb, hs⟩ := (mem_blockSites hc.toArranged hq (hall _ ‹_›)).1 hs
    obtain ⟨hb', hs'⟩ := (mem_blockSites hc.toArranged hq' (hall _ ‹_›)).1 hs'
    exact hne (by rw [← hb, ← hb']; exact (hc.block_eq_of_sites hs hs' hval.symm).1)

theorem DefinitionSite.violations_eq_nil {seen : List ValueId} :
    DefinitionSite.violations seen sites = [] ↔
      (sites.map (·.value)).Nodup ∧ (∀ s ∈ sites, s.value ∉ seen) ∧
        ∀ s ∈ sites, s.arityViolations = [] := by
  induction sites generalizing seen with
  | nil => simp [DefinitionSite.violations]
  | cons s sites ih =>
    simp only [DefinitionSite.violations, List.append_eq_nil_iff, ih, List.map_cons,
      List.nodup_cons, List.forall_mem_cons, ite_eq_right_iff, List.cons_ne_nil, imp_false,
      List.mem_map, not_exists, not_and]
    simp only [List.mem_cons, not_or]
    constructor
    · rintro ⟨⟨hs, harity⟩, hnodup, hseen, hall⟩
      exact ⟨⟨fun s' hs' => (hseen s' hs').1, hnodup⟩,
        ⟨hs, fun s' hs' => (hseen s' hs').2⟩, harity, hall⟩
    · rintro ⟨⟨hne, hnodup⟩, ⟨hs, hseen⟩, harity, hall⟩
      exact ⟨⟨hs, harity⟩, hnodup, fun s' hs' => ⟨hne s' hs', hseen s' hs'⟩, hall⟩

theorem siteViolations_eq_nil (hc : c.Intact) (h : c.definitionSites = .ok sites)
    (hsites : ∀ s, s ∈ sites ↔ c.Sites s) :
    DefinitionSite.violations [] sites = [] ↔
      ∀ b x, c.block b = .ok x → ∀ phi ∈ x.phis,
        phi.operands.length = x.predecessors.length := by
  rw [DefinitionSite.violations_eq_nil]
  simp only [nodup_definitionSites hc h, List.not_mem_nil, not_false_eq_true, implies_true,
    true_and, hsites]
  constructor
  · intro hall b x hx phi hphi
    have := hall ⟨phi.out, b, none, some (phi.operands.length, x.predecessors.length)⟩
      (.inl ⟨x, phi, hx, hphi, rfl, rfl, rfl⟩)
    simpa [DefinitionSite.arityViolations] using this
  · rintro hall s (⟨x, phi, hx, hphi, -, -, harity⟩ | ⟨-, -, -, -, -, -, -, harity⟩)
    · simp [DefinitionSite.arityViolations, harity, hall _ x hx phi hphi]
    · simp [DefinitionSite.arityViolations, harity]

/-- The check knows a site for each defined value. -/
theorem exists_last?_iff (hc : c.Arranged) (hsites : ∀ s, s ∈ sites ↔ c.Sites s) :
    (∃ s, DefinitionSite.last? sites v = some s) ↔ c.IsDefined v := by
  rw [← Option.isSome_iff_exists, DefinitionSite.last?, List.find?_isSome]
  simp only [List.mem_reverse, hsites, decide_eq_true_eq]
  constructor
  · rintro ⟨s, ⟨x, phi, hx, hphi, hout, -⟩ | ⟨x, i, n, -, -, hi, -⟩, rfl⟩
    · exact .inr ⟨s.block, phi, ⟨x, hx, hphi⟩, hout⟩
    · exact .inl ⟨i, hi⟩
  · rintro (⟨i, hi⟩ | ⟨b, phi, ⟨x, hx, hphi⟩, hout⟩)
    · obtain ⟨op, hop, -⟩ := id hi
      obtain ⟨r, x, -, hx, hmem⟩ := hc.exists_place hop
      obtain ⟨n, hn⟩ := List.mem_iff_getElem?.1 hmem
      exact ⟨⟨v, r, some n, none⟩, .inr ⟨x, i, n, hx, hn, hi, rfl, rfl⟩, rfl⟩
    · exact ⟨⟨v, b, none, some (phi.operands.length, x.predecessors.length)⟩,
        .inl ⟨x, phi, hx, hphi, hout, rfl, rfl⟩, rfl⟩

theorem sites_of_last? (hsites : ∀ s, s ∈ sites ↔ c.Sites s) {s : DefinitionSite}
    (hs : DefinitionSite.last? sites v = some s) : c.Sites s ∧ s.value = v := by
  have hmem := List.mem_of_find?_eq_some hs
  exact ⟨(hsites s).1 (List.mem_reverse.1 hmem), by simpa using List.find?_some hs⟩

/-! ### Operands -/

theorem exists_definedBefore (hc : c.Intact) (hclosed : c.Closed) (ht : Describes t c)
    {s : DefinitionSite} (hs : c.Sites s) (hv : c.HasValue s.value) :
    ∃ r, c.definedBefore t s b n = .ok r ∧
      (c.Reachable b → (r = true ↔ c.Ready s.value b n)) := by
  by_cases hb : s.block = b
  · refine ⟨s.index.all (· < n), by simp [definedBefore, hb], fun _ => ?_⟩
    rcases hs with ⟨x, phi, hx, hphi, hout, hindex, -⟩ | ⟨x, i, k, hx, hk, hi, hindex, -⟩
    · have hphi : c.HasPhi b phi := ⟨x, hb ▸ hx, hphi⟩
      rw [hindex, ready_iff_available hc fun i hi => absurd (hout ▸ hi) (hc.not_outputs_phi hphi)]
      simp only [Option.all_none, true_iff]
      exact ⟨b, .inl ⟨phi, hphi, hout⟩, dominates_self⟩
    · rw [hindex, ready_iff_lt hc hi (hb ▸ hx) hk]
      simp
  · obtain ⟨r, hr, hiff⟩ := exists_availableIn (t := t) (b := b) hc hclosed hv
    refine ⟨r, by simp [definedBefore, hb, hr], fun hreach => ?_⟩
    rw [ready_iff_available hc, hiff]
    · simp only [ht _ _ hreach]
    · intro i hi hof
      rcases hs with ⟨x, phi, hx, hphi, hout, -⟩ | ⟨x, i', k, hx, hk, hi', -⟩
      · exact hc.not_outputs_phi ⟨x, hx, hphi⟩ (hout ▸ hi)
      · obtain rfl := hc.eq_of_outputs hi hi'
        exact hb (Except.ok.inj ((hc.placed hx i (List.mem_of_getElem? hk)).symm.trans hof))

theorem operandViolations_eq_nil (hc : c.Intact) (hclosed : c.Closed) (ht : c.dominators = .ok t)
    (hsites : ∀ s, s ∈ sites ↔ c.Sites s) (hop : c.operation i = .ok op) (hv : v ∈ op.operands) :
    c.operandViolations t sites b i n v = .ok [] ↔
      c.IsDefined v ∧ (c.Reachable b → c.Ready v b n) := by
  obtain ⟨x, hx⟩ := hc.exists_value hop hv
  have huser : c.hasUser v i = .ok true := by
    simp [hasUser, hx, (hc.users hx i).2 ⟨op, hop, hv⟩]
  rw [← exists_last?_iff hc.toArranged hsites]
  cases hlast : DefinitionSite.last? sites v with
  | none => simp [operandViolations, hlast]
  | some s =>
    obtain ⟨hs, rfl⟩ := sites_of_last? hsites hlast
    obtain ⟨r, hr, hiff⟩ :=
      exists_definedBefore (b := b) (n := n) hc hclosed
        (describes_of_dominators hc.toArranged hclosed ht) hs (hasValue_of_value hx)
    simp only [operandViolations, hlast, huser, hr, ok_bind, pure_eq_ok, Except.ok.injEq,
      if_true, List.nil_append, ite_eq_right_iff, List.cons_ne_nil, imp_false, Bool.and_eq_true,
      Bool.not_eq_true', not_and, isReachable_iff hc.toArranged hclosed ht, Option.some.injEq,
      exists_eq', true_and, Bool.not_eq_false]
    exact forall_congr' fun hreach => hiff hreach

theorem inputViolations_eq_nil (hc : c.Intact) (hclosed : c.Closed) (ht : c.dominators = .ok t)
    (hsites : ∀ s, s ∈ sites ↔ c.Sites s) (hv : c.HasValue v) (hp : c.HasBlock p)
    {phi : ValueId} :
    c.inputViolations t sites b phi v p = .ok [] ↔
      c.IsDefined v ∧ (c.Reachable p → c.OnEdge v p b) := by
  rw [← exists_last?_iff hc.toArranged hsites, ← isReachable_iff hc.toArranged hclosed ht]
  cases hlast : DefinitionSite.last? sites v with
  | none => simp [inputViolations, hlast]
  | some s =>
    obtain ⟨r, hr, hiff⟩ := exists_availableOnEdge (b := b) hc hclosed
      (describes_of_dominators hc.toArranged hclosed ht) hv hp
    cases hreach : t.isReachable p with
    | false => simp [inputViolations, hlast, hreach]
    | true =>
      rw [isReachable_iff hc.toArranged hclosed ht] at hreach
      have := (isReachable_iff hc.toArranged hclosed ht).2 hreach
      simp [inputViolations, hlast, this, hr, ← hiff hreach]

/-- No operand is at fault. -/
theorem instructionViolations_eq_nil_iff (hc : c.Arranged) (hx : c.block b = .ok x) :
    c.instructionViolations t sites b x = .ok [] ↔
      ∀ n i op, x.instructions[n]? = some i → c.operation i = .ok op → ∀ v ∈ op.operands,
        c.operandViolations t sites b i n v = .ok [] := by
  have hflat : c.instructionViolations t sites b x = .ok [] ↔
      ∀ q ∈ x.instructions.zipIdx, (do
        return (← (← c.operation q.1).operands.mapM
          (c.operandViolations t sites b q.1 q.2)).flatten) = .ok [] := by
    rw [← mapM_flatten_eq_nil]
    simp [instructionViolations]
  rw [hflat]
  simp only [Prod.forall, List.mem_zipIdx_iff_getElem?]
  constructor
  · intro h n i op hn hop v hv
    have := h i n hn
    simp only [hop, ok_bind, bind_eq_ok, pure_eq_ok, Except.ok.injEq] at this
    exact mapM_flatten_eq_nil.1 this v hv
  · intro h i n hn
    obtain ⟨op, hop⟩ := hc.exists_operation hx (List.mem_of_getElem? hn)
    simp only [hop, ok_bind, bind_eq_ok, pure_eq_ok, Except.ok.injEq]
    exact mapM_flatten_eq_nil.2 fun v hv => h n i op hn hop v hv

theorem instructionViolations_eq_nil (hc : c.Intact) (hclosed : c.Closed)
    (ht : c.dominators = .ok t) (hsites : ∀ s, s ∈ sites ↔ c.Sites s) (hx : c.block b = .ok x) :
    c.instructionViolations t sites b x = .ok [] ↔
      ∀ n i op, x.instructions[n]? = some i → c.operation i = .ok op → ∀ v ∈ op.operands,
        c.IsDefined v ∧ (c.Reachable b → c.Ready v b n) := by
  rw [instructionViolations_eq_nil_iff hc.toArranged hx]
  constructor
  · intro h n i op hn hop v hv
    exact (operandViolations_eq_nil hc hclosed ht hsites hop hv).1 (h n i op hn hop v hv)
  · intro h n i op hn hop v hv
    exact (operandViolations_eq_nil hc hclosed ht hsites hop hv).2 (h n i op hn hop v hv)

/-- No operand of a phi is at fault. -/
theorem phiViolations_eq_nil_iff :
    c.phiViolations t sites b x = .ok [] ↔
      ∀ phi ∈ x.phis, ∀ q ∈ phi.operands.zip x.predecessors,
        c.inputViolations t sites b phi.out q.1 q.2 = .ok [] := by
  have hflat : c.phiViolations t sites b x = .ok [] ↔
      ∀ phi ∈ x.phis, (do
        return (← (phi.operands.zip x.predecessors).mapM fun (q : ValueId × BlockId) =>
          c.inputViolations t sites b phi.out q.1 q.2).flatten) = .ok [] := by
    rw [← mapM_flatten_eq_nil]
    simp [phiViolations]
  rw [hflat]
  refine forall₂_congr fun phi hphi => ?_
  rw [← mapM_flatten_eq_nil]
  simp

theorem phiViolations_eq_nil (hc : c.Intact) (hclosed : c.Closed) (ht : c.dominators = .ok t)
    (hsites : ∀ s, s ∈ sites ↔ c.Sites s) (hx : c.block b = .ok x)
    (hpred : ∀ p ∈ x.predecessors, c.HasBlock p) :
    c.phiViolations t sites b x = .ok [] ↔
      ∀ phi ∈ x.phis, ∀ q ∈ phi.operands.zip x.predecessors,
        c.IsDefined q.1 ∧ (c.Reachable q.2 → c.OnEdge q.1 q.2 b) := by
  rw [phiViolations_eq_nil_iff]
  refine forall₂_congr fun phi hphi => forall₂_congr fun q hq => ?_
  obtain ⟨hv, hp⟩ := List.of_mem_zip hq
  exact inputViolations_eq_nil hc hclosed ht hsites
    (hc.phi_hasValue ⟨x, hx, hphi⟩ q.1 (List.mem_cons_of_mem _ hv)) (hpred q.2 hp)

/-! ### Records -/

theorem recordViolations_eq_nil (hc : c.Intact) {placed : List InstrId}
    (hplaced : ∀ i, i ∈ placed ↔ c.HasInstruction i) {y : Value} (hy : c.value v = .ok y) :
    c.recordViolations placed v y = .ok [] := by
  have hstale : (y.users.toList.filterM fun i =>
      if i ∈ placed then (do return v ∉ (← c.operation i).operands) else return true) = .ok [] := by
    refine filterM_eq_ok_nil.2 fun i hi => ?_
    obtain ⟨op, hop, hv⟩ := (hc.users hy i).1 hi
    obtain ⟨z, hz, -⟩ := operation_eq_ok.1 hop
    simp [(hplaced i).2 (exists_instruction_iff.1 ⟨z, hz⟩), hop, hv]
  rcases hc.definition_cases hy with ⟨hdef, -⟩ | ⟨b, phi, hdef, -⟩ | ⟨i, z, hdef, hz, hout⟩
  · rw [recordViolations, hstale]
    simp [hdef]
  · rw [recordViolations, hstale]
    simp [hdef]
  · have hmem := (hplaced i).2 (exists_instruction_iff.1 ⟨z, hz⟩)
    rw [recordViolations, hstale]
    simp [hdef, hmem, operation_of_instruction hz, hout]

theorem Arranged.exists_placed (hc : c.Arranged) :
    ∃ l, c.placed = .ok l ∧ ∀ i, i ∈ l ↔ c.HasInstruction i := by
  obtain ⟨l, hl⟩ := hc.exists_layout
  refine ⟨l.flatMap fun q => q.2.instructions, by simp [Body.placed, hl], fun i => ?_⟩
  rw [List.mem_flatMap, ← exists_instruction_iff]
  constructor
  · rintro ⟨⟨b, x⟩, hq, hi⟩
    exact (hc.exists_instruction ((mem_layout hc hl).1 hq) hi).imp fun _ h => h.1
  · rintro ⟨y, hy⟩
    obtain ⟨x, hx, hi⟩ := hc.recorded (blockOf_of_instruction hy)
    exact ⟨(y.block, x), (mem_layout hc hl).2 hx, hi⟩

/-! ### The whole check -/

theorem blockViolations_eq_nil :
    c.blockViolations t sites b x = .ok [] ↔
      c.terminatorViolations b x = .ok [] ∧ c.edgeViolations b x = .ok [] ∧
        c.guardViolations b x = .ok [] ∧ c.instructionViolations t sites b x = .ok [] ∧
          c.phiViolations t sites b x = .ok [] := by
  simp only [blockViolations, bind_eq_ok, pure_eq_ok, Except.ok.injEq]
  constructor
  · rintro ⟨l₁, h₁, l₂, h₂, l₃, h₃, l₄, h₄, l₅, h₅, hnil⟩
    simp only [List.append_eq_nil_iff] at hnil
    obtain ⟨⟨⟨⟨rfl, rfl⟩, rfl⟩, rfl⟩, rfl⟩ := hnil
    exact ⟨h₁, h₂, h₃, h₄, h₅⟩
  · rintro ⟨h₁, h₂, h₃, h₄, h₅⟩
    exact ⟨[], h₁, [], h₂, [], h₃, [], h₄, [], h₅, rfl⟩

/-- The check finds nothing if none of its parts does. -/
theorem violations_eq_nil (hc : c.Arranged) (ht : c.dominators = .ok t)
    (hsites : c.definitionSites = .ok sites) {placed : List InstrId}
    (hplaced : c.placed = .ok placed) :
    c.violations = .ok [] ↔
      DefinitionSite.violations [] sites = [] ∧
        (∀ b x, c.block b = .ok x → c.blockViolations t sites b x = .ok []) ∧
        ∀ v y, c.value v = .ok y → c.recordViolations placed v y = .ok [] := by
  obtain ⟨l, hl⟩ := hc.exists_layout
  have hblocks : (∀ b x, c.block b = .ok x → c.blockViolations t sites b x = .ok []) ↔
      ∃ r, (l.mapM fun q => c.blockViolations t sites q.1 q.2) = .ok r ∧ r.flatten = [] := by
    rw [mapM_flatten_eq_nil, Prod.forall]
    simp only [mem_layout hc hl]
  have hrecords : (∀ v y, c.value v = .ok y → c.recordViolations placed v y = .ok []) ↔
      ∃ r, (c.values.zipIdx.mapM fun q => c.recordViolations placed ⟨q.2⟩ q.1) = .ok r ∧
        r.flatten = [] := by
    rw [mapM_flatten_eq_nil, Prod.forall]
    simp only [value_eq_ok, List.mem_zipIdx_iff_getElem?]
    exact ⟨fun h y n hy => h ⟨n⟩ y hy, fun h v y hy => h y v.index hy⟩
  rw [violations, ht, ok_bind, hsites, ok_bind, hplaced, ok_bind, hl, ok_bind, hblocks, hrecords]
  simp only [bind_eq_ok, pure_eq_ok, Except.ok.injEq, List.append_eq_nil_iff]
  constructor
  · rintro ⟨r, hr, r', hr', ⟨hs, hnil⟩, hnil'⟩
    exact ⟨hs, ⟨r, hr, hnil⟩, r', hr', hnil'⟩
  · rintro ⟨hs, ⟨r, hr, hnil⟩, r', hr', hnil'⟩
    exact ⟨r, hr, r', hr', ⟨hs, hnil⟩, hnil'⟩

/-- The check finds nothing exactly in consistent bodies. -/
theorem violations_eq_nil_iff (hc : c.Intact) : c.violations = .ok [] ↔ c.Consistent := by
  obtain ⟨t, ht⟩ := hc.exists_dominators
  obtain ⟨sites, hsites, hmem⟩ := exists_definitionSites hc.toArranged
  obtain ⟨placed, hplaced, hmemPlaced⟩ := hc.exists_placed
  have hsplit : c.violations = .ok [] ↔
      DefinitionSite.violations [] sites = [] ∧
        ∀ b x, c.block b = .ok x → c.blockViolations t sites b x = .ok [] := by
    rw [violations_eq_nil hc.toArranged ht hsites hplaced]
    refine and_congr_right fun _ => and_iff_left fun v y hy => ?_
    exact recordViolations_eq_nil hc hmemPlaced hy
  rw [hsplit, siteViolations_eq_nil hc hsites hmem]
  constructor
  · rintro ⟨harity, hall⟩
    have hparts := fun {b x} hx => blockViolations_eq_nil.1 (hall b x hx)
    have hout : ∀ {b s}, c.Edge b s → ∃ y, c.block s = .ok y ∧ b ∈ y.predecessors := by
      intro b s h
      obtain ⟨x, hx⟩ := h.exists_block
      exact ((edgeViolations_eq_nil hc.toArranged hx).1 (hparts hx).2.1).1 s h
    have hclosed : c.Closed := fun b s h => (hout h).elim fun y hy => hasBlock_of_block hy.1
    have hin : ∀ {b x}, c.block b = .ok x → ∀ p ∈ x.predecessors, c.Edge p b := fun hx =>
      ((edgeViolations_eq_nil hc.toArranged hx).1 (hparts hx).2.1).2
    have hpred : ∀ {b x}, c.block b = .ok x → ∀ p ∈ x.predecessors, c.HasBlock p := fun hx p hp =>
      (hin hx p hp).exists_block.elim fun _ h => hasBlock_of_block h
    exact
      { terminated := fun hx =>
          ((terminatorViolations_eq_nil hc.toArranged hx).1 (hparts hx).1).1
        inner := fun hx => ((terminatorViolations_eq_nil hc.toArranged hx).1 (hparts hx).1).2
        symmetric_out := hout
        symmetric_in := hin
        throws := fun hx => (guardViolations_eq_nil hc.toArranged hx).1 (hparts hx).2.2.1
        arity := fun hx => harity _ _ hx
        operands := fun hx => (instructionViolations_eq_nil hc hclosed ht hmem hx).1
          (hparts hx).2.2.2.1 _ _ _
        inputs := fun hx => (phiViolations_eq_nil hc hclosed ht hmem hx (hpred hx)).1
          (hparts hx).2.2.2.2 _ }
  · intro h
    refine ⟨fun b x hx => h.arity hx, fun b x hx => ?_⟩
    have hpred : ∀ p ∈ x.predecessors, c.HasBlock p := fun p hp =>
      (h.symmetric_in hx p hp).exists_block.elim fun _ h => hasBlock_of_block h
    refine blockViolations_eq_nil.2 ⟨?_, ?_, ?_, ?_, ?_⟩
    · exact (terminatorViolations_eq_nil hc.toArranged hx).2 ⟨h.terminated hx, h.inner hx⟩
    · exact (edgeViolations_eq_nil hc.toArranged hx).2
        ⟨fun s => h.symmetric_out, h.symmetric_in hx⟩
    · exact (guardViolations_eq_nil hc.toArranged hx).2 (h.throws hx)
    · exact (instructionViolations_eq_nil hc h.closed ht hmem hx).2
        fun n i op hn hop => h.operands hx hn hop
    · exact (phiViolations_eq_nil hc h.closed ht hmem hx hpred).2
        fun phi hphi => h.inputs hx hphi

/-! ### The check comes to its end -/

theorem exists_terminatorViolations (hc : c.Arranged) (hx : c.block b = .ok x) :
    ∃ l, c.terminatorViolations b x = .ok l := by
  obtain ⟨f, hf⟩ := hc.exists_operations hx
  have hmap : (x.instructions.mapM fun i => do return (i, ← c.operation i)) =
      .ok (x.instructions.map fun i => (i, f i)) :=
    mapM_eq_ok_map fun i hi => by simp [hf i hi]
  exact ⟨_, by rw [terminatorViolations, hmap]; rfl⟩

theorem exists_guardViolations (hc : c.Arranged) (hx : c.block b = .ok x) :
    ∃ l, c.guardViolations b x = .ok l := by
  obtain ⟨f, hf⟩ := hc.exists_operations hx
  exact ⟨_, by rw [guardViolations, mapM_eq_ok_map hf]; rfl⟩

theorem exists_edgeViolations (hc : c.Arranged) (hclosed : c.Closed) (hx : c.block b = .ok x)
    (hpred : ∀ p ∈ x.predecessors, c.HasBlock p) : ∃ l, c.edgeViolations b x = .ok l := by
  obtain ⟨l, hl⟩ := hc.exists_successors hx
  obtain ⟨forward, hforward⟩ : ∃ r,
      (l.filterM fun s => do return decide (b ∉ (← c.block s).predecessors)) = .ok r := by
    refine exists_filterM_eq_ok fun s hs => ?_
    obtain ⟨y, hy⟩ := exists_block_iff.2 (hclosed _ _ ((mem_successors hl).1 hs))
    exact ⟨decide (b ∉ y.predecessors), by simp [hy]⟩
  obtain ⟨backward, hbackward⟩ : ∃ r,
      (x.predecessors.filterM fun p => do return decide (b ∉ (← c.successors p))) = .ok r := by
    refine exists_filterM_eq_ok fun p hp => ?_
    obtain ⟨y, hy⟩ := exists_block_iff.2 (hpred p hp)
    obtain ⟨l', hl'⟩ := hc.exists_successors hy
    exact ⟨decide (b ∉ l'), by simp [hl']⟩
  exact ⟨_, by rw [edgeViolations, hl, ok_bind, hforward, ok_bind, hbackward]; rfl⟩

theorem exists_operandViolations (hc : c.Intact) (hclosed : c.Closed) (ht : c.dominators = .ok t)
    (hsites : ∀ s, s ∈ sites ↔ c.Sites s) (hop : c.operation i = .ok op) (hv : v ∈ op.operands) :
    ∃ l, c.operandViolations t sites b i n v = .ok l := by
  obtain ⟨x, hx⟩ := hc.exists_value hop hv
  cases hlast : DefinitionSite.last? sites v with
  | none => exact ⟨_, by simp [operandViolations, hlast]; rfl⟩
  | some s =>
    obtain ⟨hs, rfl⟩ := sites_of_last? hsites hlast
    obtain ⟨r, hr, -⟩ := exists_definedBefore (b := b) (n := n) hc hclosed
      (describes_of_dominators hc.toArranged hclosed ht) hs (hasValue_of_value hx)
    exact ⟨_, by simp [operandViolations, hlast, hasUser, hx, hr]; rfl⟩

theorem exists_inputViolations (hc : c.Intact) (hclosed : c.Closed) (ht : c.dominators = .ok t)
    (hv : c.HasValue v) (hp : c.HasBlock p) (phi : ValueId) :
    ∃ l, c.inputViolations t sites b phi v p = .ok l := by
  obtain ⟨r, hr, -⟩ := exists_availableOnEdge (b := b) hc hclosed
    (describes_of_dominators hc.toArranged hclosed ht) hv hp
  cases hlast : DefinitionSite.last? sites v with
  | none => exact ⟨_, by simp [inputViolations, hlast]; rfl⟩
  | some s =>
    cases hreach : t.isReachable p with
    | false => exact ⟨_, by simp [inputViolations, hlast, hreach]; rfl⟩
    | true => exact ⟨_, by simp [inputViolations, hlast, hreach, hr]; rfl⟩

theorem exists_instructionViolations (hc : c.Intact) (hclosed : c.Closed)
    (ht : c.dominators = .ok t) (hsites : ∀ s, s ∈ sites ↔ c.Sites s) (hx : c.block b = .ok x) :
    ∃ l, c.instructionViolations t sites b x = .ok l := by
  obtain ⟨r, hr⟩ : ∃ r, (x.instructions.zipIdx.mapM fun q => do
      return (← (← c.operation q.1).operands.mapM
        (c.operandViolations t sites b q.1 q.2)).flatten) = .ok r := by
    refine exists_mapM_eq_ok.2 fun q hq => ?_
    obtain ⟨op, hop⟩ :=
      hc.exists_operation hx (List.mem_of_getElem? (List.mem_zipIdx_iff_getElem?.1 hq))
    obtain ⟨l, hl⟩ := exists_mapM_eq_ok.2 fun v hv =>
      exists_operandViolations (b := b) (n := q.2) hc hclosed ht hsites hop hv
    exact ⟨_, by simp [hop, hl]; rfl⟩
  exact ⟨_, by rw [instructionViolations, hr]; rfl⟩

theorem exists_phiViolations (hc : c.Intact) (hclosed : c.Closed) (ht : c.dominators = .ok t)
    (hx : c.block b = .ok x) (hpred : ∀ p ∈ x.predecessors, c.HasBlock p) :
    ∃ l, c.phiViolations t sites b x = .ok l := by
  obtain ⟨r, hr⟩ : ∃ r, (x.phis.mapM fun p => do
      return (← (p.operands.zip x.predecessors).mapM fun (q : ValueId × BlockId) =>
        c.inputViolations t sites b p.out q.1 q.2).flatten) = .ok r := by
    refine exists_mapM_eq_ok.2 fun phi hphi => ?_
    obtain ⟨l, hl⟩ : ∃ l, (phi.operands.zip x.predecessors).mapM (fun q =>
        c.inputViolations t sites b phi.out q.1 q.2) = .ok l := by
      refine exists_mapM_eq_ok.2 fun q hq => ?_
      obtain ⟨hv, hp⟩ := List.of_mem_zip hq
      exact exists_inputViolations hc hclosed ht
        (hc.phi_hasValue ⟨x, hx, hphi⟩ q.1 (List.mem_cons_of_mem _ hv)) (hpred q.2 hp) phi.out
    exact ⟨_, by rw [hl]; rfl⟩
  exact ⟨_, by rw [phiViolations, hr]; rfl⟩

/-- A body whose edges stay inside it can be checked. -/
theorem exists_violations (hc : c.Intact) (hclosed : c.Closed)
    (hpred : ∀ {b x}, c.block b = .ok x → ∀ p ∈ x.predecessors, c.HasBlock p) :
    ∃ l, c.violations = .ok l := by
  obtain ⟨t, ht⟩ := hc.exists_dominators
  obtain ⟨sites, hsites, hmem⟩ := exists_definitionSites hc.toArranged
  obtain ⟨placed, hplaced, hmemPlaced⟩ := hc.exists_placed
  obtain ⟨l, hl⟩ := hc.exists_layout
  obtain ⟨blocks, hblocks⟩ : ∃ r, (l.mapM fun q => c.blockViolations t sites q.1 q.2) = .ok r := by
    refine exists_mapM_eq_ok.2 fun q hq => ?_
    have hx : c.block q.1 = .ok q.2 := (mem_layout hc.toArranged hl).1 hq
    obtain ⟨edges, hedges⟩ := exists_edgeViolations hc.toArranged hclosed hx (hpred hx)
    obtain ⟨operands, hoperands⟩ := exists_instructionViolations hc hclosed ht hmem hx
    obtain ⟨inputs, hinputs⟩ : ∃ l, c.phiViolations t sites q.1 q.2 = .ok l :=
      exists_phiViolations hc hclosed ht hx (hpred hx)
    obtain ⟨ends, hends⟩ := exists_terminatorViolations hc.toArranged hx
    obtain ⟨guards, hguards⟩ := exists_guardViolations hc.toArranged hx
    exact ⟨ends ++ edges ++ guards ++ operands ++ inputs, by
      simp [blockViolations, hends, hguards, hedges, hoperands, hinputs]⟩
  obtain ⟨records, hrecords⟩ : ∃ r,
      (c.values.zipIdx.mapM fun q => c.recordViolations placed ⟨q.2⟩ q.1) = .ok r :=
    exists_mapM_eq_ok.2 fun q hq => ⟨[], recordViolations_eq_nil hc hmemPlaced
      (value_eq_ok.2 (List.mem_zipIdx_iff_getElem?.1 hq))⟩
  exact ⟨_, by rw [violations, ht, ok_bind, hsites, ok_bind, hplaced, ok_bind, hl, ok_bind, hblocks,
    ok_bind, hrecords]; rfl⟩

end Body

end Devirt
