import Devirt.Proofs.Devirtualization.Rewriting

/-!
Every edit of devirtualization leads from one stage of a rewriting to the next. A call gets another
target, an operand is replaced by a cast of it, a cast is placed before a call, and a block is cut
before a call.
-/

namespace Devirt

open Relation

namespace Body

variable {c₀ c d : Body} {b p q s t : BlockId} {i j k : InstrId} {u v w old new : ValueId}
  {op op₀ : Operation} {x x₀ y : Block} {index n : Nat} {jumps : List BlockId}

/-- A consistent body has been rewritten in no way yet. -/
theorem Rewritten.refl (hI : c.Intact) (hc : c.Consistent) : Rewritten c c where
  method_eq := rfl
  hasBlock h := h
  hasInstruction h := h
  hasValue h := h
  operation {i op} hop :=
    ⟨op, hop, .refl fun v hv => .old (hI.hasValue hop v (List.mem_append_right _ hv))⟩
  created hop hk := absurd (hasInstruction_of_operation hop) hk
  handlers hx₀ hx := by rw [Except.ok.inj (hx.symm.trans hx₀)]
  contents {b x₀ x} hx₀ hx := by
    obtain rfl : x₀ = x := Except.ok.inj (hx₀.symm.trans hx)
    have hall : ∀ i ∈ x₀.instructions, c.HasInstruction i := by
      intro i hi
      exact exists_instruction_iff.1 ((hI.exists_instruction hx hi).imp fun _ h => h.1)
    refine .inl ⟨List.filter_eq_self.2 fun i hi => decide_eq_true (hall i hi), rfl, ?_⟩
    refine List.isChain_iff_forall_rel_of_append_cons_cons.2 fun k i l l' heq hk => ?_
    exact absurd (hall k (by simp [heq])) hk
  inflow {b x₀ x} hx₀ hx := by
    obtain rfl : x₀ = x := Except.ok.inj (hx₀.symm.trans hx)
    have hback : ∀ e < x₀.predecessors.length, GoesBack c c x₀ x₀ e e := by
      intro e he
      have hget := List.getElem?_eq_getElem he
      obtain ⟨y, hy⟩ := (hc.symmetric_in hx _ (List.getElem_mem he)).exists_block
      exact ⟨_, _, hget, hget, ⟨hasBlock_of_block hy, .inl rfl⟩, fun _ => rfl,
        fun h => absurd he (Nat.not_lt.2 h)⟩
    refine ⟨fun e p hp => ⟨p, hp, .inl ⟨rfl, fun _ t ht => ht.2 (hc.closed _ _ (.inl ht.1))⟩⟩,
      fun e he => ⟨e, hback e he⟩, hc.arity hx, rfl, ?_⟩
    intro n phi₀ phi hphi₀ hphi e he
    obtain rfl : phi₀ = phi := Option.some.inj (hphi₀.symm.trans hphi)
    have hmem := List.mem_of_getElem? hphi
    have hlt : e < phi₀.operands.length := by
      rw [hc.arity hx _ hmem]
      exact he
    have hget := List.getElem?_eq_getElem hlt
    exact ⟨e, _, _, hback e he, hget, hget,
      .old (hI.phi_hasValue ⟨x₀, hx, hmem⟩ _ (List.mem_cons_of_mem _ (List.getElem_mem _)))⟩
  tail ht hnot := absurd ht hnot

/-! ### Edits that leave the shape of the body alone -/

/-- The value `u` takes the place of `r` in the new body. -/
def Succeeds (c₀ c d : Body) (u r : ValueId) : Prop := ∀ w, Stands c₀ c r w → Stands c₀ d u w

theorem SameShape.tailOf_iff (h : SameShape c d) : TailOf c₀ d b t ↔ TailOf c₀ c b t :=
  and_congr h.jumps_iff Iff.rfl

theorem SameShape.hasBlock_iff (h : SameShape c d) : d.HasBlock b ↔ c.HasBlock b := by
  rw [← exists_block_iff, ← exists_block_iff]
  constructor
  · rintro ⟨y, hy⟩
    exact (h.symm.exists_block hy).imp fun _ h => h.1
  · rintro ⟨x, hx⟩
    exact (h.exists_block hx).imp fun _ h => h.1

theorem SameShape.hasInstruction_iff (h : SameShape c d) :
    d.HasInstruction i ↔ c.HasInstruction i := by
  simp only [← exists_instruction_iff]
  constructor
  · rintro ⟨y, hy⟩
    obtain ⟨op, hop, -⟩ := h.symm.exists_operation (operation_of_instruction hy)
    exact (operation_eq_ok.1 hop).imp fun _ h => h.1
  · rintro ⟨y, hy⟩
    obtain ⟨op, hop, -⟩ := h.exists_operation (operation_of_instruction hy)
    exact (operation_eq_ok.1 hop).imp fun _ h => h.1

theorem Spells.mono {l : List InstrId} (h : Spells c₀ c x₀ l)
    (hanchors : ∀ k i, Anchors c₀ c k i → Anchors c₀ d k i) : Spells c₀ d x₀ l where
  old := h.old
  last := h.last
  anchored := h.anchored.imp fun k i hki hk => hanchors k i (hki hk)

/-- A block stays cut if its tail stays what it is. -/
theorem Cut.mono (hcut : Cut c₀ c b t x₀ x) (hins : y.instructions = x.instructions)
    (hgoto : ∀ k, c.operation k = .ok (.goto t) → d.operation k = .ok (.goto t))
    (hanchors : ∀ k i, Anchors c₀ c k i → Anchors c₀ d k i)
    (hdispatches : ∀ i, c.Dispatches i → d.Dispatches i)
    (htail : ∀ z, c.block t = .ok z → z.phis = [] → ∃ z', d.block t = .ok z' ∧
      z'.instructions = z.instructions ∧ z'.predecessors = z.predecessors ∧ z'.phis = [] ∧
      z'.handlers = z.handlers) : Cut c₀ d b t x₀ y := by
  obtain ⟨l, k, z, i, rest, hl, hk, hjump, hz, hzins, hcall, hspells, hpreds, hphis, hhandlers⟩ :=
    hcut.parts
  obtain ⟨z', hz', hins', hpreds', hphis', hhandlers'⟩ := htail z hz hphis
  exact ⟨hcut.guarded, hcut.new, l, k, z', i, rest, hins.trans hl, hk, hgoto k hjump, hz',
    hins'.trans hzins, ⟨hcall.1, hdispatches i hcall.2⟩, hins'.symm ▸ hspells.mono hanchors,
    hpreds'.trans hpreds, hphis', hhandlers'.trans hhandlers⟩

/-- The edges into a block stay as they are, and operands may be succeeded by others. -/
theorem Inflow.succeeded (hflow : Inflow c₀ c s x₀ x)
    (htailOf : ∀ {p t}, TailOf c₀ d p t ↔ TailOf c₀ c p t)
    (hpreds : y.predecessors = x.predecessors) (houts : y.phis.map (·.out) = x.phis.map (·.out))
    (hphis : ∀ (n : Nat) phi phi', x.phis[n]? = some phi → y.phis[n]? = some phi' →
      phi'.operands.length = phi.operands.length ∧ ∀ (e : Nat) u u', phi.operands[e]? = some u →
        phi'.operands[e]? = some u' → Succeeds c₀ c d u' u) : Inflow c₀ d s x₀ y := by
  have hback : ∀ {e e₀}, GoesBack c₀ c x₀ x e e₀ → GoesBack c₀ d x₀ y e e₀ := by
    rintro e e₀ ⟨q, p, hq, hp, ⟨hold, horigin⟩, hrest⟩
    exact ⟨q, p, hpreds ▸ hq, hp, ⟨hold, horigin.imp_right htailOf.2⟩, hrest⟩
  have hphi : ∀ {n : Nat} {phi'}, y.phis[n]? = some phi' → ∃ phi, x.phis[n]? = some phi := by
    intro n phi' h
    have : (x.phis.map (·.out))[n]? = (y.phis.map (·.out))[n]? := by rw [houts]
    rw [List.getElem?_map, List.getElem?_map, h] at this
    exact (Option.map_eq_some_iff.1 this).imp fun _ h => h.1
  refine ⟨fun e p hp => ?_, fun e he => ?_, fun phi' hphi' => ?_, houts.trans hflow.outs, ?_⟩
  · obtain ⟨q, hq, hcases⟩ := hflow.sources e p hp
    simp only [htailOf]
    exact ⟨q, hpreds ▸ hq, hcases⟩
  · exact (hflow.back e (hpreds ▸ he)).imp fun e₀ h => hback h
  · obtain ⟨n, hn⟩ := List.mem_iff_getElem?.1 hphi'
    obtain ⟨phi, hphi⟩ := hphi hn
    rw [(hphis n phi phi' hphi hn).1, hpreds]
    exact hflow.arity phi (List.mem_of_getElem? hphi)
  · intro n phi₀ phi' hphi₀ hn e he
    obtain ⟨phi, hphi⟩ := hphi hn
    obtain ⟨hlen, hsucc⟩ := hphis n phi phi' hphi hn
    obtain ⟨e₀, u, w, hgoes, hu, hw, hstands⟩ :=
      hflow.inputs n phi₀ phi hphi₀ hphi e (hpreds ▸ he)
    have hlt : e < phi'.operands.length := by
      rw [hlen]
      exact (List.getElem?_eq_some_iff.1 hu).1
    exact ⟨e₀, _, w, hback hgoes, List.getElem?_eq_getElem hlt, hw,
      hsucc e u _ hu (List.getElem?_eq_getElem hlt) w hstands⟩

/-- Old operands may be succeeded by new ones, and calls may name other methods. -/
theorem Rewritten.of_sameShape (hr : Rewritten c₀ c) (hshape : SameShape c d)
    (hmethod : d.method = c.method) (hvalue : ∀ v, c.HasValue v → d.HasValue v)
    (hops : ∀ {i op}, c.operation i = .ok op → ∃ op', d.operation i = .ok op' ∧
      op.Renders (Succeeds c₀ c d) op' ∧ ∀ call, op = .call call → call.kind = .virtual →
        ∃ call', op' = .call call' ∧ call'.kind = .virtual)
    (hphis : ∀ {b x y}, c.block b = .ok x → d.block b = .ok y →
      ∀ (n : Nat) phi phi', x.phis[n]? = some phi → y.phis[n]? = some phi' →
        phi'.operands.length = phi.operands.length ∧ ∀ (e : Nat) u u', phi.operands[e]? = some u →
          phi'.operands[e]? = some u' → Succeeds c₀ c d u' u) : Rewritten c₀ d := by
  have hdispatches : ∀ i, c.Dispatches i → d.Dispatches i := by
    rintro i ⟨call, hcall, hkind⟩
    obtain ⟨op', hop', -, hvirtual⟩ := hops hcall
    obtain ⟨call', rfl, hkind'⟩ := hvirtual call rfl hkind
    exact ⟨call', hop', hkind'⟩
  have hanchors : ∀ k i, Anchors c₀ c k i → Anchors c₀ d k i := by
    rintro k i ⟨u, r, name, call₀, w, hk, hi, hw, hstands, hcall⟩
    obtain ⟨op', hop', hrender, -⟩ := hops hk
    obtain ⟨r', rfl, hsucc⟩ := hrender.of_cast
    exact ⟨u, r', name, call₀, w, hop', hi, hw, hsucc w hstands, hdispatches i hcall⟩
  refine ⟨hmethod.trans hr.method_eq, fun h => hshape.hasBlock_iff.2 (hr.hasBlock h),
    fun h => hshape.hasInstruction_iff.2 (hr.hasInstruction h), fun h => hvalue _ (hr.hasValue h),
    ?_, ?_, ?_, ?_, ?_, ?_⟩
  · intro i op₀ hop₀
    obtain ⟨op, hop, hrender⟩ := hr.operation hop₀
    obtain ⟨op', hop', hrender', -⟩ := hops hop
    exact ⟨op', hop', hrender.trans hrender' fun u v w hsucc hstands => hsucc w hstands⟩
  · intro k op' hop' hk
    obtain ⟨op, hop, -⟩ := hshape.symm.exists_operation hop'
    obtain ⟨op'', hop'', hrender, -⟩ := hops hop
    obtain rfl := Except.ok.inj (hop'.symm.trans hop'')
    rcases hr.created hop hk with ⟨t, rfl, ht⟩ | ⟨u, r, name, rfl, hu⟩
    · exact .inl ⟨t, hrender.of_goto, ht⟩
    · obtain ⟨r', rfl, -⟩ := hrender.of_cast
      exact .inr ⟨u, r', name, rfl, hu⟩
  · intro b x₀ y hx₀ hy
    obtain ⟨x, hx, -, -, hhandlers, -⟩ := hshape.symm.exists_block hy
    exact hhandlers.symm.trans (hr.handlers hx₀ hx)
  · intro b x₀ y hx₀ hy
    obtain ⟨x, hx, hins, -⟩ := hshape.symm.exists_block hy
    rcases hr.contents hx₀ hx with hspells | ⟨t, hcut⟩
    · exact .inl (hins ▸ hspells.mono hanchors)
    · refine .inr ⟨t, hcut.mono hins.symm (fun k hgoto => ?_) hanchors hdispatches ?_⟩
      · obtain ⟨op', hop', hrender, -⟩ := hops hgoto
        rw [hop', hrender.of_goto]
      · intro z hz hnone
        obtain ⟨z', hz', hzins, hzpreds, hzhandlers, hzouts⟩ := hshape.exists_block hz
        exact ⟨z', hz', hzins, hzpreds, by simpa [hnone] using hzouts, hzhandlers⟩
  · intro b x₀ y hx₀ hy
    obtain ⟨x, hx, -, hpreds, -, houts⟩ := hshape.symm.exists_block hy
    exact (hr.inflow hx₀ hx).succeeded hshape.tailOf_iff hpreds.symm houts.symm (hphis hx hy)
  · intro t ht hnew
    obtain ⟨b, hb, htail⟩ := hr.tail (hshape.hasBlock_iff.1 ht) hnew
    exact ⟨b, hb, hshape.tailOf_iff.2 htail⟩

theorem Stands.congr (hop : ∀ {k op}, ¬ c₀.HasInstruction k → c.operation k = .ok op →
    d.operation k = .ok op) (h : Stands c₀ c u w) : Stands c₀ d u w := by
  induction h with
  | old hw => exact .old hw
  | cast hk hcast _ ih => exact .cast hk (hop hk hcast) ih

/-- The records of values have no part in a rewriting. -/
theorem Rewritten.of_eq (hr : Rewritten c₀ c) (hmethod : d.method = c.method)
    (hblock : ∀ b, d.block b = c.block b) (hoperation : ∀ i, d.operation i = c.operation i)
    (hof : ∀ i, d.blockOf i = c.blockOf i) (hvalue : ∀ v, c.HasValue v → d.HasValue v) :
    Rewritten c₀ d := by
  have hshape : SameShape c d :=
    ⟨fun b => by rw [hblock], fun i => by rw [hoperation], hof⟩
  have hstands : ∀ u, Succeeds c₀ c d u u := fun u w h => h.congr fun _ h => (hoperation _).trans h
  refine hr.of_sameShape hshape hmethod hvalue ?_ ?_
  · intro i op hop
    exact ⟨op, (hoperation i).trans hop, .refl fun v _ => hstands v, fun call h hk => ⟨call, h, hk⟩⟩
  · intro b x y hx hy n phi phi' hphi hphi'
    obtain rfl := Except.ok.inj (hx.symm.trans ((hblock b).symm.trans hy))
    obtain rfl := Option.some.inj (hphi.symm.trans hphi')
    refine ⟨rfl, fun e u u' hu hu' => ?_⟩
    obtain rfl := Option.some.inj (hu.symm.trans hu')
    exact hstands u

theorem Rewritten.updateValues (hr : Rewritten c₀ c) (g : ValueId → Value → Value) :
    Rewritten c₀ (c.updateValues g) :=
  hr.of_eq rfl (fun _ => rfl) (fun _ => rfl) (fun _ => rfl) fun _ => hasValue_updateValues.2

theorem Rewritten.createValue (hr : Rewritten c₀ c) (type : StaticType) :
    Rewritten c₀ (c.createValue type).2 :=
  hr.of_eq rfl (fun _ => rfl) (fun _ => rfl) (fun _ => rfl) fun _ h =>
    hasValue_createValue.2 (.inl h)

theorem Stands.retargeted {call : Call} {method : MethodRef} (h : Stands c₀ c u w)
    (hop : c.operation i = .ok (.call call)) : Stands c₀ (c.retargeted i call method) u w := by
  induction h with
  | old hw => exact .old hw
  | @cast k u r w name hk hcast _ ih =>
    have hne := (ne_of_call_of_cast hop hcast).symm
    exact .cast hk (operation_replaced.2 ⟨_, hcast, if_neg hne⟩) ih

/-- A call may be given another method to dispatch to. -/
theorem Rewritten.retargeted (hr : Rewritten c₀ c) {call : Call} {method : MethodRef}
    (hop : c.operation i = .ok (.call call)) : Rewritten c₀ (c.retargeted i call method) := by
  have hstands : ∀ u, Succeeds c₀ c (c.retargeted i call method) u u := fun _ _ h =>
    h.retargeted hop
  refine hr.of_sameShape (sameShape_replaced hop rfl) rfl (fun _ => hasValue_replaced.2) ?_ ?_
  · intro j op hj
    refine ⟨_, operation_replaced.2 ⟨op, hj, rfl⟩, ?_⟩
    split
    · rename_i hji
      subst hji
      obtain rfl := Except.ok.inj (hop.symm.trans hj)
      refine ⟨⟨fun v => v, some (.virtual, method), ?_, fun v _ => hstands v⟩,
        fun _ _ _ => ⟨_, rfl, rfl⟩⟩
      simp [Operation.mapOperands, Operation.withTarget]
    · exact ⟨.refl fun v _ => hstands v, fun call h hk => ⟨call, h, hk⟩⟩
  · intro b x y hx hy n phi phi' hphi hphi'
    obtain rfl := Except.ok.inj (hx.symm.trans hy)
    obtain rfl := Option.some.inj (hphi.symm.trans hphi')
    refine ⟨rfl, fun e u u' hu hu' => ?_⟩
    obtain rfl := Option.some.inj (hu.symm.trans hu')
    exact hstands u

/-- An instruction may read a value in the place of another one that it succeeds. -/
private theorem Rewritten.redirected_of (hr : Rewritten c₀ c)
    (hstands : ∀ u, Succeeds c₀ c (c.redirected i old new) u u)
    (hnew : Succeeds c₀ c (c.redirected i old new) new old) :
    Rewritten c₀ (c.redirected i old new) := by
  have hboth : ∀ v, Succeeds c₀ c (c.redirected i old new) (if v = old then new else v) v := by
    intro v
    split
    · rename_i hv
      exact hv ▸ hnew
    · exact hstands v
  refine hr.of_sameShape sameShape_redirected rfl (fun _ => hasValue_redirected.2) ?_ ?_
  · intro j op hj
    refine ⟨_, operation_redirected.2 ⟨op, hj, rfl⟩, ?_⟩
    split
    · refine ⟨⟨fun v => if v = old then new else v, none, Operation.withTarget_none.symm,
        fun v _ => hboth v⟩, ?_⟩
      rintro call rfl hk
      exact ⟨_, rfl, hk⟩
    · exact ⟨.refl fun v _ => hstands v, fun call h hk => ⟨call, h, hk⟩⟩
  · intro b x y hx hy n phi phi' hphi hphi'
    obtain rfl := Except.ok.inj (hx.symm.trans hy)
    obtain rfl := Option.some.inj (hphi.symm.trans hphi')
    refine ⟨rfl, fun e u u' hu hu' => ?_⟩
    obtain rfl := Option.some.inj (hu.symm.trans hu')
    exact hstands u

theorem Stands.redirected_old (h : Stands c₀ c u w) (hi : c₀.HasInstruction i) :
    Stands c₀ (c.redirected i old new) u w := by
  refine h.congr fun {k op} hk hop => operation_redirected.2 ⟨op, hop, if_neg ?_⟩
  rintro rfl
  exact hk hi

/-- A cast of the old value that is redirected to the new one still stands for the same. -/
theorem Stands.redirected_cast {name : TypeName} (h : Stands c₀ c u w)
    (hk : ¬ c₀.HasInstruction k) (hcast : c.operation k = .ok (.cast new old name)) (hik : i ≠ k) :
    Stands c₀ (c.redirected i old new) u w := by
  have hcast' : (c.redirected i old new).operation k = .ok (.cast new old name) :=
    operation_redirected.2 ⟨_, hcast, if_neg hik.symm⟩
  induction h with
  | old hw => exact .old hw
  | @cast j u r w name' hj hop _ ih =>
    by_cases hji : j = i
    · have hop' : (c.redirected i old new).operation j =
          .ok (.cast u (if r = old then new else r) name') :=
        operation_redirected.2 ⟨_, hop, by rw [if_pos hji]; rfl⟩
      refine .cast hj hop' ?_
      split
      · rename_i hrold
        exact .cast hk hcast' (hrold ▸ ih)
      · exact ih
    · exact .cast hj (operation_redirected.2 ⟨_, hop, if_neg hji⟩) ih

/-- An old instruction may read a cast made before. -/
theorem Rewritten.redirected_old (hr : Rewritten c₀ c) (hi : c₀.HasInstruction i)
    (hnew : ∀ w, Stands c₀ c old w → Stands c₀ c new w) :
    Rewritten c₀ (c.redirected i old new) := by
  have hstands : ∀ u, Succeeds c₀ c (c.redirected i old new) u u := fun _ _ h =>
    h.redirected_old hi
  exact hr.redirected_of hstands fun w h => hstands new w (hnew w h)

/-- Any instruction but the cast itself may read a new cast of what it has read. -/
theorem Rewritten.redirected_cast (hr : Rewritten c₀ c) (hk : ¬ c₀.HasInstruction k)
    {name : TypeName} (hcast : c.operation k = .ok (.cast new old name)) (hik : i ≠ k) :
    Rewritten c₀ (c.redirected i old new) := by
  have hcast' : (c.redirected i old new).operation k = .ok (.cast new old name) :=
    operation_redirected.2 ⟨_, hcast, if_neg hik.symm⟩
  have hstands : ∀ u, Succeeds c₀ c (c.redirected i old new) u u := fun _ _ h =>
    h.redirected_cast hk hcast hik
  exact hr.redirected_of hstands fun w h => .cast hk hcast' (hstands old w h)

/-- A phi may read a value in the place of another one that stands for the same. -/
theorem Rewritten.phiRedirected (hr : Rewritten c₀ c) (hc : c.TracksPhis) {phi : ValueId} {p : Phi}
    (hx : c.block b = .ok x) (hp : p ∈ x.phis) (hout : p.out = phi) {edges : List Bool}
    (hnew : ∀ w, Stands c₀ c old w → Stands c₀ c new w) :
    Rewritten c₀ (c.phiRedirected b old new phi (redirectInputs old new p.operands edges)) := by
  have hstands : ∀ u v, (∀ w, Stands c₀ c v w → Stands c₀ c u w) → Succeeds c₀ c
      (c.phiRedirected b old new phi (redirectInputs old new p.operands edges)) u v :=
    fun u v h w hw => @Stands.congr c₀ c _ u w (fun _ h => h) (h w hw)
  refine hr.of_sameShape sameShape_phiRedirected rfl (fun _ => hasValue_phiRedirected.2) ?_ ?_
  · intro i op hop
    exact ⟨op, hop, .refl fun v _ => hstands v v fun _ h => h, fun call h hk => ⟨call, h, hk⟩⟩
  · intro s y z hy hz n psi psi' hpsi hpsi'
    have hsame : psi' = psi → psi'.operands.length = psi.operands.length ∧
        ∀ (e : Nat) u u', psi.operands[e]? = some u → psi'.operands[e]? = some u' →
          Succeeds c₀ c (c.phiRedirected b old new phi
            (redirectInputs old new p.operands edges)) u' u := by
      rintro rfl
      refine ⟨rfl, fun e u u' hu hu' => ?_⟩
      obtain rfl := Option.some.inj (hu.symm.trans hu')
      exact hstands u u fun _ h => h
    obtain ⟨y', hy', rfl⟩ := block_phiRedirected.1 hz
    obtain rfl := Except.ok.inj (hy.symm.trans hy')
    split at hpsi'
    · rename_i hs
      subst hs
      obtain rfl := Except.ok.inj (hx.symm.trans hy)
      rw [Block.modifyPhi_phis (hc.phi_nodup hx), List.getElem?_map, hpsi, Option.map_some,
        Option.some.injEq] at hpsi'
      split at hpsi'
      · rename_i hpsiout
        obtain rfl : p = psi := List.inj_on_of_nodup_map (hc.phi_nodup hx) hp
          (List.mem_of_getElem? hpsi) (hout.trans hpsiout.symm)
        subst hpsi'
        refine ⟨length_redirectInputs, fun e u u' hu hu' => ?_⟩
        rw [getElem?_redirectInputs, hu, Option.map_some, Option.some.injEq] at hu'
        subst hu'
        split
        · rename_i hopen
          exact hstands _ _ (hopen.1 ▸ hnew)
        · exact hstands u u fun _ h => h
      · exact hsame hpsi'.symm
    · exact hsame (Option.some.inj (hpsi'.symm.trans hpsi))

/-! ### New casts -/

theorem Spells.insert {l l' : List InstrId} (h : Spells c₀ c x₀ (l ++ i :: l'))
    (hk : ¬ c₀.HasInstruction k) (hl : ∀ j ∈ l.getLast?, c₀.HasInstruction j)
    (hanchors : ∀ k i, Anchors c₀ c k i → Anchors c₀ d k i) (hki : Anchors c₀ d k i) :
    Spells c₀ d x₀ (l ++ k :: i :: l') := by
  have hchain := (h.mono hanchors).anchored
  refine ⟨?_, ?_, ?_⟩
  · rw [← h.old, List.filter_append, List.filter_append]
    exact congrArg _ (List.filter_cons_of_neg fun h => hk (of_decide_eq_true h))
  · rw [← h.last]
    simp only [List.getLast?_append_cons, List.getLast?_cons_cons]
  · rw [List.isChain_append] at hchain ⊢
    refine ⟨hchain.1, hchain.2.1.cons fun j hj _ => ?_, fun j hj _ _ hnot => absurd (hl j hj) hnot⟩
    obtain rfl : i = j := by simpa using hj
    exact hki

theorem Dispatches.inserted (h : c.Dispatches i) : (c.inserted b index op).Dispatches i := by
  obtain ⟨call, hcall, hkind⟩ := h
  exact ⟨call, operation_inserted.2 (.inl hcall), hkind⟩

theorem Dispatches.splitted (h : c.Dispatches i) : (c.splitted b index x jumps).Dispatches i := by
  obtain ⟨call, hcall, hkind⟩ := h
  exact ⟨call, operation_splitted.2 (.inl hcall), hkind⟩

theorem anchors_inserted {r : ValueId} {name : TypeName} (k i : InstrId)
    (h : Anchors c₀ c k i) : Anchors c₀ (c.inserted b index (.cast u r name)) k i := by
  obtain ⟨u', r', name', call₀, w, hk, hi, hw, hstands, hcall⟩ := h
  exact ⟨u', r', name', call₀, w, operation_inserted.2 (.inl hk), hi, hw,
    hstands.congr fun _ hop => operation_inserted.2 (.inl hop), hcall.inserted⟩

theorem tailOf_inserted (hI : c.Arranged) (hx : c.block b = .ok x)
    (hindex : index < x.instructions.length) :
    TailOf c₀ (c.inserted b index op) p t ↔ TailOf c₀ c p t :=
  and_congr (jumps_inserted hx hindex hI) Iff.rfl

/-- A new cast may be placed in an old block, as long as the block still spells the old one. -/
private theorem Rewritten.inserted_of (hr : Rewritten c₀ c) (hI : c.Arranged)
    (hx : c.block b = .ok x) (hb : c₀.HasBlock b) (hindex : index < x.instructions.length)
    {r : ValueId} {name : TypeName} (hu : ¬ c₀.HasValue u)
    (hcontents : ∀ {x₀ z}, c₀.block b = .ok x₀ →
      (c.inserted b index (.cast u r name)).block b = .ok z →
      Spells c₀ (c.inserted b index (.cast u r name)) x₀ z.instructions ∨
        ∃ t, Cut c₀ (c.inserted b index (.cast u r name)) b t x₀ z) :
    Rewritten c₀ (c.inserted b index (.cast u r name)) := by
  have htailOf : ∀ {p t}, TailOf c₀ (c.inserted b index (.cast u r name)) p t ↔ TailOf c₀ c p t :=
    tailOf_inserted hI hx hindex
  have hstands : ∀ {u' w}, Stands c₀ c u' w →
      Stands c₀ (c.inserted b index (.cast u r name)) u' w :=
    fun h => h.congr fun _ hop => operation_inserted.2 (.inl hop)
  refine ⟨hr.method_eq, fun h => hasBlock_inserted.2 (hr.hasBlock h), fun {i} hi => ?_,
    fun h => hasValue_inserted.2 (hr.hasValue h), ?_, ?_, ?_, ?_, ?_, ?_⟩
  · obtain ⟨y, hy⟩ := exists_instruction_iff.2 (hr.hasInstruction hi)
    exact exists_instruction_iff.1 ⟨y, instruction_inserted.2 (.inl hy)⟩
  · intro i op₀ hop₀
    obtain ⟨op, hop, hrender⟩ := hr.operation hop₀
    exact ⟨op, operation_inserted.2 (.inl hop), hrender.mono fun _ _ => hstands⟩
  · intro k op hop hk
    rcases operation_inserted.1 hop with hop | ⟨rfl, rfl⟩
    · exact hr.created hop hk
    · exact .inr ⟨u, r, name, rfl, hu⟩
  · intro s x₀ z hx₀ hz
    obtain ⟨y, hy, -, hhandlers, -⟩ := parts_inserted hz
    exact hhandlers.trans (hr.handlers hx₀ hy)
  · intro s x₀ z hx₀ hz
    by_cases hs : s = b
    · subst hs
      exact hcontents hx₀ hz
    · obtain ⟨y, hy, -, -, -, hsame⟩ := parts_inserted hz
      rw [hsame hs]
      rcases hr.contents hx₀ hy with hspells | ⟨t, hcut⟩
      · exact .inl (hspells.mono anchors_inserted)
      · refine .inr ⟨t, hcut.mono rfl (fun _ hgoto => operation_inserted.2 (.inl hgoto))
          anchors_inserted (fun _ hcall => hcall.inserted) fun y' hy' hnone => ?_⟩
        -- the cast is placed in an old block, and the tail is a new one
        have htb : t ≠ b := fun h => hcut.new (h ▸ hb)
        exact ⟨y', block_inserted.2 ⟨y', hy', if_neg htb⟩, rfl, rfl, hnone, rfl⟩
  · intro s x₀ z hx₀ hz
    obtain ⟨y, hy, hpreds, -, hphis, -⟩ := parts_inserted hz
    refine (hr.inflow hx₀ hy).succeeded htailOf hpreds (by rw [hphis]) ?_
    intro n phi phi' hphi hphi'
    obtain rfl := Option.some.inj (hphi.symm.trans (hphis ▸ hphi'))
    refine ⟨rfl, fun e u u' hu hu' => ?_⟩
    obtain rfl := Option.some.inj (hu.symm.trans hu')
    exact fun w => hstands
  · intro t ht hnew
    obtain ⟨p, hp, htail⟩ := hr.tail (hasBlock_inserted.1 ht) hnew
    exact ⟨p, hp, htailOf.2 htail⟩

/-- What it takes to place a cast for a call. -/
structure CastFor (c₀ c : Body) (i : InstrId) (u r : ValueId) : Prop where
  fresh : ¬ c₀.HasValue u
  call : ∃ call₀ w, c₀.operation i = .ok (.call call₀) ∧ call₀.receiver? = some w ∧ Stands c₀ c r w
  dispatches : c.Dispatches i

theorem CastFor.anchors {r : ValueId} {name : TypeName} (h : CastFor c₀ c i u r) :
    Anchors c₀ (c.inserted b index (.cast u r name)) ⟨c.instructions.length⟩ i := by
  obtain ⟨call₀, w, hcall₀, hw, hstands⟩ := h.call
  exact ⟨u, r, name, call₀, w, operation_inserted.2 (.inr ⟨rfl, rfl⟩), hcall₀, hw,
    hstands.congr fun _ hop => operation_inserted.2 (.inl hop), h.dispatches.inserted⟩

theorem Rewritten.not_hasInstruction_next (hr : Rewritten c₀ c) :
    ¬ c₀.HasInstruction ⟨c.instructions.length⟩ :=
  fun h => Nat.lt_irrefl _ (hr.hasInstruction h)

theorem Rewritten.not_hasBlock_next (hr : Rewritten c₀ c) : ¬ c₀.HasBlock ⟨c.blocks.length⟩ :=
  fun h => Nat.lt_irrefl _ (hr.hasBlock h)

private theorem insertIdx_length_append {l l' : List InstrId} {k : InstrId} :
    (l ++ l').insertIdx l.length k = l ++ k :: l' := by
  induction l with
  | nil => rfl
  | cons a l ih => simp [ih]

/-- A cast is placed inside a block that has not been cut. -/
theorem Rewritten.inserted (hr : Rewritten c₀ c) (hI : c.Arranged) (hx₀ : c₀.block b = .ok x₀)
    (hx : c.block b = .ok x) {l l' : List InstrId} (hins : x.instructions = l ++ i :: l')
    (hl : ∀ j ∈ l.getLast?, c₀.HasInstruction j) (hspells : Spells c₀ c x₀ x.instructions)
    {r : ValueId} {name : TypeName} (hcast : CastFor c₀ c i u r) :
    Rewritten c₀ (c.inserted b l.length (.cast u r name)) := by
  refine hr.inserted_of hI hx (hasBlock_of_block hx₀) (by simp [hins]) hcast.fresh ?_
  intro x₀' z hx₀' hz
  obtain rfl := Except.ok.inj (hx₀.symm.trans hx₀')
  obtain ⟨x', hx', rfl⟩ := block_inserted.1 hz
  obtain rfl := Except.ok.inj (hx.symm.trans hx')
  left
  rw [hins] at hspells
  rw [if_pos rfl, hins, insertIdx_length_append]
  exact hspells.insert hr.not_hasInstruction_next hl anchors_inserted hcast.anchors

/-- A cast is placed at the end of a head, before the call that its tail begins with. -/
theorem Rewritten.inserted_head (hr : Rewritten c₀ c) (hI : c.Arranged) (hx₀ : c₀.block b = .ok x₀)
    (hx : c.block b = .ok x) (hcut : Cut c₀ c b t x₀ x) {l : List InstrId}
    (hins : x.instructions = l ++ [k]) (hl : ∀ j ∈ l.getLast?, c₀.HasInstruction j)
    (hy : c.block t = .ok y) (hi : y.instructions.head? = some i)
    {r : ValueId} {name : TypeName} (hcast : CastFor c₀ c i u r) :
    Rewritten c₀ (c.inserted b l.length (.cast u r name)) := by
  have hb := hasBlock_of_block hx₀
  refine hr.inserted_of hI hx hb (by simp [hins]) hcast.fresh ?_
  intro x₀' z hx₀' hz
  obtain rfl := Except.ok.inj (hx₀.symm.trans hx₀')
  obtain ⟨x', hx', rfl⟩ := block_inserted.1 hz
  obtain rfl := Except.ok.inj (hx.symm.trans hx')
  obtain ⟨m, k', y', i', rest, hm, hk', hgoto, hy', hins', hcall, hspells, hrest⟩ :=
    hcut.parts
  obtain ⟨rfl, hk⟩ := List.append_inj' (hins.symm.trans hm) rfl
  obtain rfl : k = k' := by simpa using hk
  obtain rfl := Except.ok.inj (hy.symm.trans hy')
  obtain rfl : i' = i := by simpa [hins'] using hi
  have htb : t ≠ b := fun h => hcut.new (h ▸ hb)
  refine .inr ⟨t, hcut.guarded, hcut.new, l ++ [⟨c.instructions.length⟩], k, y, i', rest, ?_,
    hk', operation_inserted.2 (.inl hgoto), block_inserted.2 ⟨y, hy, if_neg htb⟩, hins',
    ⟨hcall.1, hcall.2.inserted⟩, ?_, hrest⟩
  · rw [if_pos rfl, hins, insertIdx_length_append, List.append_assoc]
    rfl
  · rw [hins'] at hspells
    rw [hins', List.append_assoc]
    exact hspells.insert hr.not_hasInstruction_next hl anchors_inserted hcast.anchors

/-! ### Cut blocks -/

/-- The edges into a block when `b` gets the tail `new`. -/
theorem Inflow.relinked (hflow : Inflow c₀ c s x₀ y) {new : BlockId} {handlers : List Handler}
    (hne : new ≠ b) (hb : c₀.HasBlock b) (hnew : ¬ c₀.HasBlock new)
    (htailOf : ∀ {p t}, TailOf c₀ d p t ↔ (p = b ∧ t = new) ∨ TailOf c₀ c p t)
    (hstands : ∀ u w, Stands c₀ c u w → Stands c₀ d u w) (hjumps : s ∈ jumps ↔ c₀.Jumps b s)
    (hpreds : x.predecessors = (Body.relinked b new jumps handlers s y).predecessors)
    (hphis : x.phis = (Body.relinked b new jumps handlers s y).phis) : Inflow c₀ d s x₀ x := by
  have hlen : ∀ {e}, e < x₀.predecessors.length → e < y.predecessors.length := by
    intro e he
    obtain ⟨q, hq, -⟩ := hflow.sources e _ (List.getElem?_eq_getElem he)
    exact (List.getElem?_eq_some_iff.1 hq).1
  have hback : ∀ e < x.predecessors.length, ∃ e₁ < y.predecessors.length,
      (∀ e₀, GoesBack c₀ c x₀ y e₁ e₀ → GoesBack c₀ d x₀ x e e₀) ∧
      ∀ (n : Nat) phi', x.phis[n]? = some phi' → ∃ phi, y.phis[n]? = some phi ∧
        phi'.operands[e]? = phi.operands[e₁]? := by
    intro e he
    have hq := List.getElem?_eq_getElem he
    generalize x.predecessors[e] = q at hq
    obtain ⟨e₁, p, hp, heq, hcases, hread⟩ :=
      edge_relinked hne hflow.arity (hpreds ▸ hq)
    refine ⟨e₁, (List.getElem?_eq_some_iff.1 hp).1, ?_, fun n phi' hn => ?_⟩
    · rintro e₀ ⟨q', p', hq', hp', horigin, hold, hextra⟩
      obtain rfl := Option.some.inj (hp.symm.trans hq')
      refine ⟨q, p', hq, hp', ?_, fun h => ?_, fun h => ?_⟩
      · rcases hcases with ⟨rfl, -⟩ | ⟨rfl, rfl, -⟩
        · exact ⟨horigin.1, horigin.2.imp_right fun h => htailOf.2 (.inr h)⟩
        · obtain rfl := Rewritten.eq_of_origin horigin hb
          exact ⟨hb, .inr (htailOf.2 (.inl ⟨rfl, rfl⟩))⟩
      · obtain rfl := heq (hlen h)
        exact hold h
      · rcases hcases with ⟨rfl, hlt, -⟩ | ⟨rfl, -⟩
        · obtain rfl := heq hlt
          exact hextra h
        · exact hnew
    · obtain ⟨phi, hphi, -, hsame⟩ := hread n phi' (hphis ▸ hn)
      exact ⟨phi, hphi, hsame⟩
  refine ⟨fun e p hp => ?_, fun e he => ?_, ?_, ?_, ?_⟩
  · obtain ⟨q, hq, hcases⟩ := hflow.sources e p hp
    refine ⟨_, hpreds ▸ getElem?_predecessors_relinked hne hq, ?_⟩
    simp only [htailOf]
    split
    · rename_i hqb
      rcases hcases with ⟨rfl, -⟩ | ⟨htail, -⟩
      · exact .inr ⟨.inl ⟨hqb.1, rfl⟩, hqb.1 ▸ hjumps.1 hqb.2⟩
      · exact absurd (hqb.1 ▸ hb) htail.2
    · rename_i hqb
      rcases hcases with ⟨rfl, hwhole⟩ | ⟨htail, hj⟩
      · refine .inl ⟨rfl, fun hj t ht => ?_⟩
        rcases ht with ⟨rfl, -⟩ | ht
        · exact hqb ⟨rfl, hjumps.2 hj⟩
        · exact hwhole hj t ht
      · exact .inr ⟨.inr htail, hj⟩
  · obtain ⟨e₁, he₁, hgoes, -⟩ := hback e he
    exact (hflow.back e₁ he₁).imp fun e₀ h => hgoes e₀ h
  · rw [hphis, hpreds]
    exact length_operands_relinked hne hflow.arity
  · obtain ⟨extra, -, hsame⟩ := @phis_relinked b s new jumps handlers y
    rw [hphis, hsame, ← hflow.outs]
    simp
  · intro n phi₀ phi' hphi₀ hphi' e he
    obtain ⟨e₁, he₁, hgoes, hread⟩ := hback e he
    obtain ⟨phi, hphi, hsame⟩ := hread n phi' hphi'
    obtain ⟨e₀, u, w, h, hu, hw, hst⟩ := hflow.inputs n phi₀ phi hphi₀ hphi e₁ he₁
    exact ⟨e₀, u, w, hgoes e₀ h, hsame.trans hu, hw, hstands u w hst⟩

/-- The tails after a split. -/
theorem Rewritten.tailOf_splitted (hr : Rewritten c₀ c) (h₀ : c₀.Arranged) (hclosed : c₀.Closed)
    (hI : c.Intact) (hx₀ : c₀.block b = .ok x₀) (hx : c.block b = .ok x)
    (hspells : Spells c₀ c x₀ x.instructions) (hindex : index < x.instructions.length) :
    TailOf c₀ (c.splitted b index x jumps) p t ↔
      (p = b ∧ t = ⟨c.blocks.length⟩) ∨ TailOf c₀ c p t := by
  have hwhole : ∀ {s}, c.Jumps b s ↔ c₀.Jumps b s := hr.jumps_of_spells h₀ hx₀ hx hspells
  constructor
  · rintro ⟨hj, ht⟩
    obtain ⟨z, -, -, hz, -⟩ := id hj
    by_cases hpb : p = b
    · subst hpb
      exact .inl ⟨rfl, (jumps_splitted_head hx).1 hj⟩
    · rcases hasBlock_splitted.1 (hasBlock_of_block hz) with hp | rfl
      · exact .inr ⟨(jumps_splitted_other hI hp hpb).1 hj, ht⟩
      · have := hwhole.1 ((jumps_splitted_tail hI hx hindex).1 hj)
        exact absurd (hclosed _ _ (.inl this)) ht
  · rintro (⟨rfl, rfl⟩ | ⟨hj, ht⟩)
    · exact ⟨(jumps_splitted_head hx).2 rfl, hr.not_hasBlock_next⟩
    · obtain ⟨z, -, -, hz, -⟩ := id hj
      refine ⟨(jumps_splitted_other hI (hasBlock_of_block hz) ?_).2 hj, ht⟩
      rintro rfl
      exact ht (hclosed _ _ (.inl (hwhole.1 hj)))

theorem anchors_splitted (k i : InstrId) (h : Anchors c₀ c k i) :
    Anchors c₀ (c.splitted b index x jumps) k i := by
  obtain ⟨u, r, name, call₀, w, hk, hi, hw, hstands, hcall⟩ := h
  exact ⟨u, r, name, call₀, w, operation_splitted.2 (.inl hk), hi, hw,
    hstands.congr fun _ hop => operation_splitted.2 (.inl hop), hcall.splitted⟩

/-- Before the call a split leaves the head of the block, and the tail begins with the call. -/
theorem Rewritten.cut_splitted (hr : Rewritten c₀ c) (hx₀ : c₀.block b = .ok x₀)
    (hx : c.block b = .ok x) (hspells : Spells c₀ c x₀ x.instructions)
    (hguard : x.isGuarded = true) (hi : x.instructions[index]? = some i) (hcall : c₀.IsCall i)
    (hdispatches : c.Dispatches i) (hy : (c.splitted b index x jumps).block b = .ok y) :
    Cut c₀ (c.splitted b index x jumps) b ⟨c.blocks.length⟩ x₀ y := by
  obtain ⟨hindex, hget⟩ := List.getElem?_eq_some_iff.1 hi
  rw [block_splitted_head hx] at hy
  obtain rfl := Except.ok.inj hy
  have hdrop : x.instructions.drop index = i :: x.instructions.drop (index + 1) := by
    rw [List.drop_eq_getElem_cons hindex, hget]
  have hsame := hr.handlers hx₀ hx
  refine ⟨by rw [Block.isGuarded, ← hsame]; exact hguard, hr.not_hasBlock_next,
    x.instructions.take index, ⟨c.instructions.length⟩, splitTail b index x, i,
    x.instructions.drop (index + 1), rfl, hr.not_hasInstruction_next,
    operation_splitted.2 (.inr ⟨rfl, rfl⟩), block_splitted_tail, hdrop,
    ⟨hcall, hdispatches.splitted⟩, ?_, rfl, rfl, hsame⟩
  simpa [splitTail] using hspells.mono anchors_splitted

/-- A block that has not been cut is cut before a call. -/
theorem Rewritten.splitted (hr : Rewritten c₀ c) (h₀ : c₀.Arranged) (hclosed : c₀.Closed)
    (hI : c.Intact) (hx₀ : c₀.block b = .ok x₀) (hx : c.block b = .ok x)
    (hspells : Spells c₀ c x₀ x.instructions) (hguard : x.isGuarded = true)
    (hi : x.instructions[index]? = some i) (hcall : c₀.IsCall i) (hdispatches : c.Dispatches i)
    (hjumps : c.normalSuccessors b = .ok jumps) : Rewritten c₀ (c.splitted b index x jumps) := by
  have hb := hasBlock_of_block hx₀
  have hindex : index < x.instructions.length := (List.getElem?_eq_some_iff.1 hi).1
  have hnew := hr.not_hasBlock_next
  have hwhole : ∀ {s}, c.Jumps b s ↔ c₀.Jumps b s := hr.jumps_of_spells h₀ hx₀ hx hspells
  have hstands : ∀ {u w}, Stands c₀ c u w → Stands c₀ (c.splitted b index x jumps) u w :=
    fun h => h.congr fun _ hop => operation_splitted.2 (.inl hop)
  have htailOf : ∀ {p t}, TailOf c₀ (c.splitted b index x jumps) p t ↔
      (p = b ∧ t = ⟨c.blocks.length⟩) ∨ TailOf c₀ c p t :=
    hr.tailOf_splitted h₀ hclosed hI hx₀ hx hspells hindex
  have hblock : ∀ {s x₀ z}, c₀.block s = .ok x₀ → (c.splitted b index x jumps).block s = .ok z →
      ∃ y, c.block s = .ok y ∧ (s ≠ b → z.instructions = y.instructions) ∧
        z.handlers = y.handlers ∧
        z.predecessors = (relinked b ⟨c.blocks.length⟩ jumps x.handlers s y).predecessors ∧
        z.phis = (relinked b ⟨c.blocks.length⟩ jumps x.handlers s y).phis := by
    intro s x₀ z hx₀ hz
    obtain ⟨y, hy, hins, hrest⟩ := (SplitPoint.block_cases hz).resolve_right
      fun h => hnew (h.1 ▸ hasBlock_of_block hx₀)
    exact ⟨y, hy, fun hs => hins.trans (if_neg hs), hrest⟩
  refine ⟨hr.method_eq, fun h => hasBlock_splitted.2 (.inl (hr.hasBlock h)), fun {i} hi => ?_,
    fun h => hasValue_splitted.2 (hr.hasValue h), ?_, ?_, ?_, ?_, ?_, ?_⟩
  · obtain ⟨y, hy⟩ := exists_instruction_iff.2 (hr.hasInstruction hi)
    exact exists_instruction_iff.1 ⟨_, instruction_splitted.2 (.inl ⟨y, hy, rfl⟩)⟩
  · intro i op₀ hop₀
    obtain ⟨op, hop, hrender⟩ := hr.operation hop₀
    exact ⟨op, operation_splitted.2 (.inl hop), hrender.mono fun _ _ => hstands⟩
  · intro k op hop hk
    rcases operation_splitted.1 hop with hop | ⟨rfl, rfl⟩
    · exact hr.created hop hk
    · exact .inl ⟨_, rfl, hnew⟩
  · intro s y₀ z hy₀ hz
    obtain ⟨y, hy, -, hhandlers, -⟩ := hblock hy₀ hz
    exact hhandlers.trans (hr.handlers hy₀ hy)
  · intro s y₀ z hy₀ hz
    by_cases hs : s = b
    · subst hs
      obtain rfl := Except.ok.inj (hx₀.symm.trans hy₀)
      exact .inr ⟨_, hr.cut_splitted hx₀ hx hspells hguard hi hcall hdispatches hz⟩
    · obtain ⟨y, hy, hins, -⟩ := hblock hy₀ hz
      rcases hr.contents hy₀ hy with hspells | ⟨t, hcut⟩
      · exact .inl (hins hs ▸ hspells.mono anchors_splitted)
      · refine .inr ⟨t, hcut.mono (hins hs) (fun _ hgoto => operation_splitted.2 (.inl hgoto))
          anchors_splitted (fun _ hcall => hcall.splitted) fun y' hy' hnone => ?_⟩
        -- the tail of another block is no jump target of this one
        have htail : relinked b ⟨c.blocks.length⟩ jumps x.handlers t y' = y' := by
          refine relinked_eq_self (fun ht => hcut.new ?_) fun h hh ht => hcut.new ?_
          · exact hclosed _ _ (.inl (hwhole.1 ((mem_normalSuccessors hjumps).1 ht)))
          · exact hclosed b t (.inr ⟨x₀, hx₀, h, hr.handlers hx₀ hx ▸ hh, ht⟩)
        have hother := @block_splitted_other c b t index x jumps y' hy' fun h => hcut.new (h ▸ hb)
        rw [htail] at hother
        exact ⟨y', hother, rfl, rfl, hnone, rfl⟩
  · intro s y₀ z hy₀ hz
    obtain ⟨y, hy, -, -, hpreds, hphis⟩ := hblock hy₀ hz
    exact (hr.inflow hy₀ hy).relinked (hr.hasBlock hb).ne_next.symm hb hnew htailOf
      (fun _ _ => hstands) ((mem_normalSuccessors hjumps).trans hwhole) hpreds hphis
  · intro t ht htnew
    rcases hasBlock_splitted.1 ht with ht | rfl
    · obtain ⟨p, hp, htail⟩ := hr.tail ht htnew
      exact ⟨p, hp, htailOf.2 (.inr htail)⟩
    · exact ⟨b, hb, htailOf.2 (.inl ⟨rfl, rfl⟩)⟩

end Body

end Devirt
