import Devirt.Proofs.Devirtualization.Rewriting

/-!
Which blocks may be cut. Whether a split is safe can be told from the body before the pass: if it is
safe there, it is safe at the moment of the split, and if the rewritten body is consistent, every
split that led to it was safe from the start.
-/

namespace Devirt

open Relation

namespace Body

variable {c₀ c : Body} {a b p q s t : BlockId} {i j k : InstrId} {u v w : ValueId}
  {op op₀ : Operation} {x x₀ y : Block} {n : Nat}

namespace Rewritten

variable (hr : Rewritten c₀ c) (hI₀ : c₀.Intact) (hc₀ : c₀.Consistent) (hI : c.Intact)
  (hc : c.Consistent)

/-! ### From the old body to the moment of the split -/

include hc in
/-- Casts are placed in guarded blocks only when they are cut. -/
theorem instructions_eq_of_guarded (hx : c.block b = .ok x)
    (hspells : Spells c₀ c x₀ x.instructions) (hguard : x.isGuarded = true) :
    x.instructions = x₀.instructions := by
  rw [← hspells.old, eq_comm, List.filter_eq_self]
  intro k hk
  refine decide_eq_true (by_contra fun hnew => ?_)
  obtain ⟨i, hi, u, r, name, call₀, w, hcast, hcall₀, -, -, call, hcall, -⟩ :=
    hspells.exists_anchors hk hnew
  have hiold : c₀.HasInstruction i := hasInstruction_of_operation hcall₀
  have := hc.throws hx hguard k hk i ((hspells.mem_iff hiold).2 hi) _ _ hcast hcall rfl rfl
  exact hnew (this ▸ hiold)

include hr hI₀ hc in
theorem definedAfterThrow_old (hx₀ : c₀.block b = .ok x₀) (hx : c.block b = .ok x)
    (hspells : Spells c₀ c x₀ x.instructions) (hguard : x.isGuarded = true)
    (h : c.DefinedAfterThrow b v) : c₀.DefinedAfterThrow b v := by
  obtain ⟨x', m, n, i, j, op, hx', hm, hn, hlt, hop, hthrow, op', hop', hout⟩ := h
  obtain rfl := Except.ok.inj (hx.symm.trans hx')
  rw [instructions_eq_of_guarded hc hx hspells hguard] at hm hn
  have hold : ∀ {k op}, k ∈ x₀.instructions → c.operation k = .ok op →
      ∃ op₀, c₀.operation k = .ok op₀ ∧ op₀.Renders (Stands c₀ c) op := by
    intro k op hk hop
    obtain ⟨op₀, hop₀⟩ := hI₀.exists_operation hx₀ hk
    obtain ⟨op', hop', hrender⟩ := hr.operation hop₀
    obtain rfl := Except.ok.inj (hop.symm.trans hop')
    exact ⟨op₀, hop₀, hrender⟩
  obtain ⟨op₀, hop₀, hrender⟩ := hold (List.mem_of_getElem? hm) hop
  obtain ⟨op₀', hop₀', hrender'⟩ := hold (List.mem_of_getElem? hn) hop'
  exact ⟨x₀, m, n, i, j, op₀, hx₀, hm, hn, hlt, hop₀, hrender.canThrow_eq ▸ hthrow, op₀', hop₀',
    hrender'.out?_eq ▸ hout⟩

include hr hI₀ hc₀ in
theorem handlerReaches_old (hb : c₀.HasBlock b) (hwhole : ∀ t, ¬ TailOf c₀ c b t)
    (h : c.HandlerReaches b q) (hq : Origin c₀ c q p) : c₀.HandlerReaches b p := by
  obtain ⟨s, hs, hav⟩ := h
  have hs := (hr.handles_iff hI₀.toArranged hc₀.closed (origin_self hb)).1 hs
  exact ⟨s, hs, hr.avoids_origin hI₀.toArranged hc₀.closed hwhole hav
    (origin_self (hc₀.closed _ _ (.inr hs))) hq⟩

include hr hI₀ hc₀ in
/-- A phi that reads an old value has read it before. -/
theorem exists_input_old {phi : Phi} (hold : c₀.HasValue v) (hy : c.block s = .ok y)
    (hphi : phi ∈ y.phis) (hmem : (v, q) ∈ phi.operands.zip y.predecessors) :
    ∃ y₀ phi₀ p, c₀.block s = .ok y₀ ∧ phi₀ ∈ y₀.phis ∧
      (v, p) ∈ phi₀.operands.zip y₀.predecessors ∧ Origin c₀ c q p := by
  by_cases hs : c₀.HasBlock s
  · obtain ⟨y₀, hy₀⟩ := exists_block_iff.2 hs
    obtain ⟨phi₀, w, p, hphi₀, hmem₀, hstands, horigin⟩ :=
      (hr.inflow hy₀ hy).exists_input_old hphi hmem
    obtain rfl := hstands.eq_of_old hr hold
    exact ⟨y₀, phi₀, p, hy₀, hphi₀, hmem₀, horigin⟩
  · -- tails have no phis
    obtain ⟨r, -, htail⟩ := hr.tail (hasBlock_of_block hy) hs
    rw [(hr.predecessors_tail hI₀.toArranged hc₀.closed htail hy).2] at hphi
    simp at hphi

include hr hI₀ hc₀ hI hc in
/-- A split that is safe in the old body is safe in a later one, if the block is still whole. -/
theorem splitSafe (hx₀ : c₀.block b = .ok x₀) (hx : c.block b = .ok x)
    (hspells : Spells c₀ c x₀ x.instructions) (hsafe : c₀.SplitSafe b) : c.SplitSafe b := by
  have hb := hasBlock_of_block hx₀
  have hjumps : ∀ {s}, c.Jumps b s ↔ c₀.Jumps b s :=
    hr.jumps_of_spells hI₀.toArranged hx₀ hx hspells
  have hwhole : ∀ t, ¬ TailOf c₀ c b t := fun t ht => ht.2 (hc₀.closed _ _ (.inl (hjumps.1 ht.1)))
  have hhandles : ∀ {s}, c.Handles b s ↔ c₀.Handles b s :=
    hr.handles_iff hI₀.toArranged hc₀.closed (origin_self hb)
  have hguarded : ∀ {s}, c.Handles b s → x.isGuarded = true := by
    rintro s ⟨x', hx', h, hmem, -⟩
    obtain rfl := Except.ok.inj (hx.symm.trans hx')
    simpa [Block.isGuarded] using List.ne_nil_of_mem hmem
  have hdefined : ∀ {s v}, c.Handles b s → c.DefinedAfterThrow b v →
      c₀.DefinedAfterThrow b v ∧ c₀.HasValue v := by
    intro s v hs hv
    have hv := hr.definedAfterThrow_old hI₀ hc hx₀ hx hspells (hguarded hs) hv
    obtain ⟨-, -, -, -, j, -, -, -, -, -, -, -, hout⟩ := id hv
    obtain ⟨y, hy, -⟩ := hI₀.value_of_outputs hout
    exact ⟨hv, hasValue_of_value hy⟩
  have hreach : c.Reachable b → c₀.Reachable b :=
    fun h => hr.reachable_origin hI₀.toArranged hc₀.closed h (origin_self hb)
  refine ⟨fun s hh hj => hsafe.apart s (hhandles.1 hh) (hjumps.1 hj), ?_, ?_⟩
  · intro hb' v hv i s hreads hof hreaches
    obtain ⟨h, hh, -⟩ := id hreaches
    obtain ⟨hv, hold⟩ := hdefined hh hv
    obtain ⟨j, p, hreads, hof, hp⟩ :=
      hr.exists_reads_old hI₀.toArranged hc₀.closed hI.toArranged hold hreads hof
    exact hsafe.unread (hreach hb') v hv j p hreads hof
      (hr.handlerReaches_old hI₀ hc₀ hb hwhole hreaches hp)
  · intro hb' v hv s y phi q hy hphi hmem
    have hback : ∀ {h}, c.Handles b h → ∃ y₀ phi₀ p, c₀.DefinedAfterThrow b v ∧
        c₀.block s = .ok y₀ ∧ phi₀ ∈ y₀.phis ∧ (v, p) ∈ phi₀.operands.zip y₀.predecessors ∧
        Origin c₀ c q p := by
      intro h hh
      obtain ⟨hv, hold⟩ := hdefined hh hv
      obtain ⟨y₀, phi₀, p, hinput⟩ := hr.exists_input_old hI₀ hc₀ hold hy hphi hmem
      exact ⟨y₀, phi₀, p, hv, hinput⟩
    constructor
    · intro hreaches
      obtain ⟨h, hh, -⟩ := id hreaches
      obtain ⟨y₀, phi₀, p, hv, hy₀, hphi₀, hmem₀, hp⟩ := hback hh
      exact (hsafe.unread_phi (hreach hb') v hv s y₀ phi₀ p hy₀ hphi₀ hmem₀).1
        (hr.handlerReaches_old hI₀ hc₀ hb hwhole hreaches hp)
    · rintro rfl hh
      obtain ⟨y₀, phi₀, p, hv, hy₀, hphi₀, hmem₀, hp⟩ := hback hh
      exact (hsafe.unread_phi (hreach hb') v hv s y₀ phi₀ p hy₀ hphi₀ hmem₀).2
        (eq_of_origin hp hb).symm (hhandles.1 hh)

/-! ### From a consistent outcome back to the old body -/

include hr hI₀ hc₀ hc in
/-- A head is reached without its tail. -/
theorem avoids_tail (ht : TailOf c₀ c b t) (hb : c.Reachable b) : Avoids c.Edge c.entry t b := by
  have hbold := hr.hasBlock_of_tailOf hI₀.toArranged hc₀.closed ht
  have hne : t ≠ b := fun h => ht.2 (h ▸ hbold)
  rcases avoids_or_avoids hb hne with h | h
  · exact h
  · exfalso
    rcases h.2.cases_tail with heq | ⟨p, hp, hedge, -⟩
    · exact ht.2 (heq ▸ hI₀.entry)
    · obtain ⟨y, hy, hmem⟩ := hc.symmetric_out hedge
      rw [(hr.predecessors_tail hI₀.toArranged hc₀.closed ht hy).1, List.mem_singleton] at hmem
      exact Avoids.ne ⟨h.1, hp⟩ hmem

include hr hI₀ hc₀ hc in
/-- What a handler of a cut block led to is reached without the tail. -/
theorem avoids_tail_of_handlerReaches (ht : TailOf c₀ c b t) (hb : c₀.Reachable b)
    (h : c₀.HandlerReaches b s) (hq : Origin c₀ c q s) : Avoids c.Edge c.entry t q := by
  obtain ⟨a, ha, hab, hpath⟩ := h
  have hbold := hr.hasBlock_of_tailOf hI₀.toArranged hc₀.closed ht
  have hother : ∀ {p t'}, p ≠ b → TailOf c₀ c p t' → t' ≠ t := by
    rintro p t' hp htail rfl
    exact hp (hr.tailOf_injective hI₀.toArranged hc₀.closed htail ht)
  have hold : ∀ {p}, c₀.HasBlock p → p ≠ t := fun hp h => ht.2 (h ▸ hp)
  have hstart : Avoids c.Edge c.entry t a := by
    have hreach := hr.reachable_lift hI₀.toArranged hc₀.closed hb
    exact (hr.avoids_tail hI₀ hc₀ hc ht hreach).tail
      (.inr ((hr.handles_iff hI₀.toArranged hc₀.closed (origin_self hbold)).2 ha))
      (hold (hc₀.closed _ _ (.inr ha)))
  have hlift := hr.path_lift hI₀.toArranged hc₀.closed (P := (· ≠ t)) (Avoids.sources ⟨hab, hpath⟩
    fun p q hp _ hedge => ⟨hedge, fun t' => hother hp, hold (hc₀.closed _ _ hedge)⟩)
  have hs := hstart.trans hlift
  rcases hq with ⟨-, rfl | htail⟩
  · exact hs
  · exact hs.tail (.inl htail.1) (hother (Avoids.ne ⟨hab, hpath⟩) htail)

include hr hI₀ hc₀ hI hc in
/-- A guarded block with a new cast has been cut after it. -/
theorem not_hasBlock_of_cast {r : ValueId} {name : TypeName} (hk : ¬ c₀.HasInstruction k)
    (hcast : c.operation k = .ok (.cast u r name)) (hof : c.blockOf k = .ok q)
    (hy : c.block q = .ok y) (hguard : y.isGuarded = true) (hjump : c.Jumps q a) :
    ¬ c₀.HasBlock a := by
  obtain ⟨y', hy', hmem⟩ := hI.recorded hof
  obtain rfl := Except.ok.inj (hy.symm.trans hy')
  obtain ⟨p, hp, rfl | htail⟩ := hr.exists_origin (hasBlock_of_block hy)
  · obtain ⟨x₀, hx₀⟩ := exists_block_iff.2 hp
    rcases hr.contents hx₀ hy with hspells | ⟨t, hcut⟩
    · rw [instructions_eq_of_guarded hc hy hspells hguard] at hmem
      exact absurd (exists_instruction_iff.1 ((hI₀.exists_instruction hx₀ hmem).imp fun _ h => h.1)) hk
    · obtain rfl := (hcut.jumps_head hy).1 hjump
      exact hcut.new
  · -- a tail begins with a call, beside which nothing throws
    obtain ⟨x₀, x, -, -, hcut⟩ := hr.exists_cut hI₀.toArranged hc₀.closed htail
    obtain ⟨-, -, z, i, rest, -, -, -, hz, hins, ⟨⟨call₀, hcall₀⟩, call, hcall, -⟩, -⟩ := hcut.parts
    obtain rfl := Except.ok.inj (hy.symm.trans hz)
    have := hc.throws hy hguard k hmem i (by simp [hins]) _ _ hcast hcall rfl rfl
    exact absurd (this ▸ hasInstruction_of_operation hcall₀) hk

section Dominated

/-- Wherever the value is defined and can be reached, the block `t` has been passed. -/
private def DefinedUnder (c : Body) (t : BlockId) (u : ValueId) : Prop :=
  (∀ i y, c.Outputs i u → c.blockOf i = .ok y → c.Reachable y → c.Dominates t y) ∧
    (∃ i, c.Outputs i u) ∧
    ∀ i op y x a, c.operation i = .ok op → op.out? = some u → c.blockOf i = .ok y →
      c.block y = .ok x → x.isGuarded = true → op.canThrow = true → c.Jumps y a → a ≠ c.entry

include hI hc in
private theorem DefinedUnder.availableFrom (h : DefinedUnder c t u) (ha : c.AvailableFrom u a)
    (hreach : c.Reachable a) : c.Dominates t a := by
  obtain ⟨hdef, ⟨i, hi⟩, hthrow⟩ := h
  rcases ha with ⟨phi, hphi, rfl⟩ | ⟨i, op, y, hop, hout, hof, x, hx, hcond⟩
  · exact absurd hi (hI.not_outputs_phi hphi)
  · split at hcond
    · rename_i hguard
      obtain ⟨hnext, z, hz, hpreds⟩ := hcond
      have hjump : c.Jumps y a := (mem_normalSuccessors hnext).1 (by simp)
      have hentry := hthrow i op y x a hop hout hof hx hguard.2 hguard.1 hjump
      have hsole : ∀ {p}, c.Edge p a → p = y := by
        intro p hedge
        obtain ⟨z', hz', hmem⟩ := hc.symmetric_out hedge
        obtain rfl := Except.ok.inj (hz.symm.trans hz')
        simpa [hpreds] using hmem
      have hy : c.Reachable y ∧ c.Dominates y a := by
        constructor
        · rcases hreach.cases_tail with heq | ⟨p, hp, hedge⟩
          · exact absurd heq hentry
          · exact hsole hedge ▸ hp
        · rintro ⟨hne, hpath⟩
          rcases hpath.cases_tail with heq | ⟨p, hp, hedge, -⟩
          · exact hentry heq
          · exact Avoids.ne ⟨hne, hp⟩ (hsole hedge)
      exact (hdef i y ⟨op, hop, hout⟩ hof hy.1).trans hy.2
    · subst hcond
      exact hdef i _ ⟨op, hop, hout⟩ hof hreach

private theorem reachable_of_dominates (h : c.Dominates a s) (hs : c.Reachable s) :
    c.Reachable a := by
  rcases avoids_or_reaches hs a with h' | h'
  · exact absurd h' h
  · exact h'

include hI hc in
private theorem DefinedUnder.ready (h : DefinedUnder c t u) (hu : c.Ready u s n)
    (hreach : c.Reachable s) : c.Dominates t s := by
  rcases hu with ⟨i, x, m, hi, hx, hm, -⟩ | ⟨-, a, ha, hdom⟩
  · exact h.1 i s hi (hI.placed hx i (List.mem_of_getElem? hm)) hreach
  · exact (h.availableFrom hI hc ha (reachable_of_dominates hdom hreach)).trans hdom

include hI hc in
private theorem DefinedUnder.onEdge (h : DefinedUnder c t u) (hu : c.OnEdge u q s)
    (hreach : c.Reachable q) : c.Dominates t q := by
  rcases hu with ⟨i, op, hop, hout, hof, -⟩ | ⟨-, a, ha, hdom⟩
  · exact h.1 i q ⟨op, hop, hout⟩ hof hreach
  · exact (h.availableFrom hI hc ha (reachable_of_dominates hdom hreach)).trans hdom

include hr hI₀ hc₀ hI hc in
/-- If the tail defines a value, it has been passed wherever a new cast of the value is made. -/
private theorem definedUnder_of_stands (hop : c.operation j = .ok op) (hout : op.out? = some v)
    (hnothrow : op.canThrow = false) (hof : c.blockOf j = .ok t) (h : Stands c₀ c u v) :
    DefinedUnder c t u := by
  induction h with
  | old hw =>
    refine ⟨fun i y hi hy _ => ?_, ⟨j, op, hop, hout⟩, ?_⟩
    · obtain rfl := hI.eq_of_outputs hi ⟨op, hop, hout⟩
      obtain rfl := Except.ok.inj (hof.symm.trans hy)
      exact dominates_self
    · intro i op' y x a hop' hout' _ _ _ hthrow _
      obtain rfl := hI.eq_of_outputs ⟨op', hop', hout'⟩ ⟨op, hop, hout⟩
      obtain rfl := Except.ok.inj (hop.symm.trans hop')
      rw [hnothrow] at hthrow
      exact Bool.noConfusion hthrow
  | @cast k u r w name hk hcast hst ih =>
    have ih := ih hout
    have hk' : c.Outputs k u := ⟨_, hcast, rfl⟩
    refine ⟨fun i y hi hy hreach => ?_, ⟨k, hk'⟩, ?_⟩
    · obtain rfl := hI.eq_of_outputs hi hk'
      obtain ⟨x, hx, hmem⟩ := hI.recorded hy
      obtain ⟨m, hm⟩ := List.mem_iff_getElem?.1 hmem
      have hready := (hc.operands hx hm hcast r (by simp [Operation.operands])).2 hreach
      exact ih.ready hI hc hready hreach
    · intro i op' y x a hop' hout' hof' hx hguard _ hjump heq
      obtain rfl := hI.eq_of_outputs ⟨op', hop', hout'⟩ hk'
      exact hr.not_hasBlock_of_cast hI₀ hc₀ hI hc hk hcast hof' hx hguard hjump (heq ▸ hI₀.entry)

end Dominated

include hr hI₀ hc₀ hI in
/-- What a cut block defined after its throwing instruction is defined in the tail. -/
theorem exists_definition_tail (ht : TailOf c₀ c b t) (hv : c₀.DefinedAfterThrow b v) :
    ∃ j op, c.operation j = .ok op ∧ op.out? = some v ∧ op.canThrow = false ∧
      c.blockOf j = .ok t := by
  obtain ⟨x₀, m, n, i, j, op, hx₀, hm, hn, hlt, hop, hthrow, op', hop', hout⟩ := hv
  obtain ⟨x₀', x, hx₀', -, hcut⟩ := hr.exists_cut hI₀.toArranged hc₀.closed ht
  obtain rfl := Except.ok.inj (hx₀.symm.trans hx₀')
  obtain ⟨l, -, y, i', rest, -, -, -, hy, hins, ⟨⟨call₀, hcall₀⟩, -⟩, hspells, -⟩ := hcut.parts
  have hold : c₀.HasInstruction i' := hasInstruction_of_operation hcall₀
  have hmem : i' ∈ x₀.instructions := (hspells.mem_iff hold).1 (by simp [hins])
  obtain rfl : i = i' := hc₀.throws hx₀ hcut.guarded i (List.mem_of_getElem? hm) i' hmem _ _ hop
    hcall₀ hthrow rfl
  have hnodup := hI₀.nodup hx₀
  -- the old block goes on after the call with the rest of the tail
  have hfilter : (i :: rest).filter (fun k => k.index < c₀.instructions.length) =
      i :: rest.filter (fun k => k.index < c₀.instructions.length) :=
    List.filter_cons_of_pos (decide_eq_true hold)
  have hparts := hspells.old
  rw [hins, List.filter_append, hfilter] at hparts
  generalize List.filter _ l = front at hparts
  have hfront : x₀.instructions[front.length]? = some i := by simp [← hparts]
  obtain rfl : m = front.length :=
    (List.getElem?_inj (List.getElem?_eq_some_iff.1 hm).1 hnodup).1 (hm.trans hfront.symm)
  have hjrest : j ∈ rest := by
    rw [← hparts, List.getElem?_append_right (Nat.le_of_lt hlt),
      List.getElem?_cons, if_neg (by omega)] at hn
    exact (List.mem_filter.1 (List.mem_of_getElem? hn)).1
  obtain ⟨op'', hop'', hrender⟩ := hr.operation hop'
  refine ⟨j, op'', hop'', hrender.out?_eq.trans hout, ?_, hI.placed hy j (by simp [hins, hjrest])⟩
  rw [hrender.canThrow_eq, ← Bool.not_eq_true]
  intro hthrow'
  obtain rfl := hc₀.throws hx₀ hcut.guarded i hmem j (List.mem_of_getElem? hn) _ _ hop hop' hthrow
    hthrow'
  have := (List.getElem?_inj (List.getElem?_eq_some_iff.1 hm).1 hnodup).1 (hm.trans hn.symm)
  omega

include hr hI₀ hc₀ hc in
/-- If a handler of a cut block were also jumped to, the tail would have taken over the only edge. -/
theorem not_jumps_of_tailOf (ht : TailOf c₀ c b t) (hh : c₀.Handles b s) : ¬ c₀.Jumps b s := by
  intro hj
  have hb := hr.hasBlock_of_tailOf hI₀.toArranged hc₀.closed ht
  obtain ⟨y, hy, hmem⟩ := hc.symmetric_out
    (.inr ((hr.handles_iff hI₀.toArranged hc₀.closed (origin_self hb)).2 hh))
  obtain ⟨y₀, hy₀⟩ := exists_block_iff.2 (hc₀.closed _ _ (.inr hh))
  obtain ⟨e, he⟩ := List.mem_iff_getElem?.1 hmem
  have hflow := hr.inflow hy₀ hy
  obtain ⟨e₀, q, p, hq, hp, horigin, hsame, hnew⟩ :=
    hflow.back e (List.getElem?_eq_some_iff.1 he).1
  obtain rfl := Option.some.inj (he.symm.trans hq)
  obtain rfl := eq_of_origin horigin hb
  by_cases hlt : e < y₀.predecessors.length
  · obtain rfl := hsame hlt
    obtain ⟨q, hq, ⟨-, hwhole⟩ | ⟨htail, -⟩⟩ := hflow.sources e₀ b hp
    · exact hwhole hj t ht
    · obtain rfl := Option.some.inj (he.symm.trans hq)
      exact htail.2 hb
  · exact hnew (Nat.le_of_not_lt hlt) hb

include hr hI₀ hc₀ hI hc in
/-- In a consistent outcome, every block that has been cut was safe to split. -/
theorem splitSafe_of_tailOf (ht : TailOf c₀ c b t) : c₀.SplitSafe b := by
  have hunder : ∀ {u v}, c₀.DefinedAfterThrow b v → Stands c₀ c u v → DefinedUnder c t u := by
    intro u v hv hstands
    obtain ⟨j, op, hop, hout, hnothrow, hof⟩ := hr.exists_definition_tail hI₀ hc₀ hI ht hv
    exact hr.definedUnder_of_stands hI₀ hc₀ hI hc hop hout hnothrow hof hstands
  refine ⟨fun s hh => hr.not_jumps_of_tailOf hI₀ hc₀ hc ht hh, ?_, ?_⟩
  · rintro hreach v hv i s ⟨op₀, hop₀, hmem⟩ hof hreaches
    obtain ⟨op, hop, hrender⟩ := hr.operation hop₀
    obtain ⟨u, hu, hstands⟩ := hrender.exists_mem hmem
    obtain ⟨q, hq, hof⟩ := hr.exists_blockOf hI₀.toArranged hI.toArranged hof
    obtain ⟨y, hy, hiy⟩ := hI.recorded hof
    obtain ⟨n, hn⟩ := List.mem_iff_getElem?.1 hiy
    have hav := hr.avoids_tail_of_handlerReaches hI₀ hc₀ hc ht hreach hreaches hq
    have hready := (hc.operands hy hn hop u hu).2 hav.reaches
    exact (hunder hv hstands).ready hI hc hready hav.reaches hav
  · intro hreach v hv s y₀ phi₀ p hy₀ hphi₀ hmem
    obtain ⟨y, hy⟩ := exists_block_iff.2 (hr.hasBlock (hasBlock_of_block hy₀))
    obtain ⟨phi, u, q, hphi, hinput, hstands, hsource⟩ :=
      (hr.inflow hy₀ hy).exists_input hphi₀ hmem
    -- the phi must not read on an edge that is reached without the tail
    have hcontra : Avoids c.Edge c.entry t q → False := fun hav =>
      (hunder hv hstands).onEdge hI hc ((hc.inputs hy hphi _ hinput).2 hav.reaches) hav.reaches hav
    constructor
    · intro hreaches
      refine hcontra (hr.avoids_tail_of_handlerReaches hI₀ hc₀ hc ht hreach hreaches ?_)
      obtain ⟨z, hz⟩ := (hc₀.symmetric_in hy₀ p (List.of_mem_zip hmem).2).exists_block
      exact ⟨hasBlock_of_block hz, hsource.imp And.left And.left⟩
    · rintro rfl hh
      rcases hsource with ⟨rfl, -⟩ | ⟨-, hj⟩
      · exact hcontra (hr.avoids_tail hI₀ hc₀ hc ht
          (hr.reachable_lift hI₀.toArranged hc₀.closed hreach))
      · exact hr.not_jumps_of_tailOf hI₀ hc₀ hc ht hh hj

end Rewritten

end Body

end Devirt
