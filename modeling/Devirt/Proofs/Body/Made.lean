import Devirt.Proofs.Body.Draft
import Devirt.Proofs.Body.Uses

/-!
All bodies that can be made: those written step by step, and whatever edits turn them into. As an
edit may write anything into the record of a value, users and definitions need not be recorded
rightly, and nothing says that a value is defined once. Still every instruction stands in its place,
and every value that is named exists.
-/

namespace Devirt

namespace Body

/-- The layout is in order, and instructions and phis name values of the body. -/
structure Grounded (c : Body) : Prop extends c.Arranged where
  hasValue : ∀ {i op}, c.operation i = .ok op → ∀ v ∈ op.mentions, c.HasValue v
  phi_hasValue : ∀ {b phi}, c.HasPhi b phi → ∀ v ∈ phi.out :: phi.operands, c.HasValue v

/-- The body has been written and then edited. Appending an instruction and placing one before
another are insertions at an index. -/
inductive Made : Body → Prop
  | written {method : MethodRef} {steps : List DraftStep} {made : List Created} {c : Body}
      (h : Body.ofSteps method steps = .ok (made, c)) : Made c
  | createBlock {c : Body} (h : Made c) : Made c.createBlock.2
  | createValue {c : Body} (h : Made c) (type : StaticType) : Made (c.createValue type).2
  | modifyValue {c d : Body} {v : ValueId} {f : Value → Value} (h : Made c)
      (hd : c.modifyValue v f = .ok d) : Made d
  | insertAt {c d : Body} {b : BlockId} {index : Nat} {op : Operation} {i : InstrId} (h : Made c)
      (hd : c.insertAt b index op = .ok (i, d)) : Made d
  | replace {c d : Body} {i : InstrId} {op : Operation} (h : Made c)
      (hd : c.replace i op = .ok d) : Made d
  | addPhi {c d : Body} {b : BlockId} {type : StaticType} {operands : List ValueId} {v : ValueId}
      (h : Made c) (hd : c.addPhi b type operands = .ok (v, d)) : Made d
  | redirectOperand {c d : Body} {i : InstrId} {old new : ValueId} {changed : Bool} (h : Made c)
      (hd : c.redirectOperand i old new = .ok (changed, d)) : Made d
  | redirectUses {c d : Body} {t : DominatorTree} {old new : ValueId} {definer : InstrId}
      {excluded : List InstrId} {r : Redirected} (h : Made c)
      (hd : c.redirectUses t old new definer excluded = .ok (r, d)) : Made d
  | split {c d : Body} {b tail : BlockId} {index : Nat} (h : Made c)
      (hd : c.split b index = .ok (tail, d)) : Made d

variable {c d : Body} {b s : BlockId} {i : InstrId} {v old new : ValueId} {op : Operation}
  {x : Block} {index : Nat}

theorem Intact.grounded (hc : c.Intact) : c.Grounded := ⟨hc.toArranged, hc.hasValue, hc.phi_hasValue⟩

/-! ### The pieces that edits are made of -/

namespace Grounded

variable (hc : c.Grounded)
include hc

theorem updateValues (g : ValueId → Value → Value) : (c.updateValues g).Grounded :=
  ⟨hc.toArranged.congr rfl (fun _ => rfl) fun _ => rfl,
    fun hop v hv => hasValue_updateValues.2 (hc.hasValue hop v hv),
    fun hphi v hv => hasValue_updateValues.2 (hc.phi_hasValue hphi v hv)⟩

theorem withVersion (version : Nat) : { c with version }.Grounded :=
  ⟨hc.toArranged.congr rfl (fun _ => rfl) fun _ => rfl, hc.hasValue, hc.phi_hasValue⟩

/-- Instructions stay where they are. -/
theorem updateBlocks {g : BlockId → Block → Block}
    (hins : ∀ b x, (g b x).instructions = x.instructions)
    (hphis : ∀ b x, c.block b = .ok x → ∀ p ∈ (g b x).phis, ∀ v ∈ p.out :: p.operands,
      c.HasValue v) : (c.updateBlocks g).Grounded := by
  refine ⟨hc.toArranged.congr rfl (map_block_updateBlocks hins) fun _ => rfl, hc.hasValue, ?_⟩
  rintro b p ⟨y, hy, hp⟩ v hv
  obtain ⟨x, hx, rfl⟩ := block_updateBlocks.1 hy
  exact hphis b x hx p hp v hv

theorem movesEdges {g : BlockId → Block → Block} (hg : MovesEdges g) :
    (c.updateBlocks g).Grounded := by
  refine hc.updateBlocks (fun b x => (hg b x).1) fun b x hx p hp v hv => ?_
  obtain ⟨-, -, extra, hextra, hphis⟩ := hg b x
  rw [hphis, List.mem_map] at hp
  obtain ⟨q, hq, rfl⟩ := hp
  refine hc.phi_hasValue ⟨x, hx, hq⟩ v ?_
  simp only [List.mem_cons, List.mem_append] at hv ⊢
  rcases hv with hv | hv | hv
  · exact .inl hv
  · exact .inr hv
  · exact .inr (hextra q hv)

theorem updateOperation {f : Operation → Operation}
    (hmentions : ∀ op, c.operation i = .ok op → ∀ v ∈ (f op).mentions, c.HasValue v) :
    (c.updateOperation i f).Grounded := by
  refine ⟨hc.toArranged.congr rfl (fun _ => rfl) fun _ => blockOf_updateOperation, ?_,
    hc.phi_hasValue⟩
  intro j op' hj v hv
  obtain ⟨op, hop, rfl⟩ := operation_updateOperation.1 hj
  split at hv
  · rename_i hji
    exact hmentions op (hji ▸ hop) v hv
  · exact hc.hasValue hop v hv

theorem createValue (type : StaticType) : (c.createValue type).2.Grounded :=
  ⟨hc.toArranged.congr rfl (fun _ => rfl) fun _ => rfl,
    fun hop v hv => hasValue_createValue.2 (.inl (hc.hasValue hop v hv)),
    fun hphi v hv => hasValue_createValue.2 (.inl (hc.phi_hasValue hphi v hv))⟩

theorem createBlock : c.createBlock.2.Grounded :=
  ⟨hc.toArranged.createBlock, hc.hasValue, fun hphi => hc.phi_hasValue (hasPhi_createBlock.1 hphi)⟩

theorem inserted (hx : c.block b = .ok x) (hindex : index ≤ x.instructions.length)
    (hmentions : ∀ v ∈ op.mentions, c.HasValue v) : (c.inserted b index op).Grounded := by
  refine ⟨hc.toArranged.inserted hx hindex, fun hop v hv => ?_, ?_⟩
  · rw [hasValue_inserted]
    rcases operation_inserted.1 hop with hop | ⟨-, rfl⟩
    · exact hc.hasValue hop v hv
    · exact hmentions v hv
  · rintro s p ⟨z, hz, hp⟩ v hv
    rw [hasValue_inserted]
    obtain ⟨y, hy, rfl⟩ := block_inserted.1 hz
    refine hc.phi_hasValue ⟨y, hy, ?_⟩ v hv
    split at hp <;> exact hp

theorem cut (hx : c.block b = .ok x) : (c.cut b index x).Grounded := by
  refine ⟨hc.toArranged.cut hx, fun hop => hc.hasValue (operation_cut.symm.trans hop), ?_⟩
  rintro s p ⟨z, hz, hp⟩
  rcases block_cut.1 hz with ⟨y, hy, rfl⟩ | ⟨rfl, rfl⟩
  · refine hc.phi_hasValue ⟨y, hy, ?_⟩
    split at hp <;> exact hp
  · simp [splitTail] at hp

/-! ### Edits -/

theorem redirected (hnew : c.HasValue new) : (c.redirected i old new).Grounded := by
  refine (hc.updateOperation fun op hop v hv => ?_).updateValues _
  rw [Operation.mentions, Operation.out?_replaceOperand, List.mem_append] at hv
  rcases hv with hv | hv
  · exact hc.hasValue hop v (List.mem_append_left _ hv)
  · rcases Operation.mem_operands_replaceOperand.1 hv with ⟨rfl, -⟩ | ⟨-, hv⟩
    · exact hnew
    · exact hc.hasValue hop v (List.mem_append_right _ hv)

theorem redirectOperand {changed : Bool} (hd : c.redirectOperand i old new = .ok (changed, d)) :
    d.Grounded := by
  obtain ⟨op, -, hd⟩ := redirectOperand_eq_ok.1 hd
  split at hd
  · obtain ⟨-, -, hnew, rfl⟩ := hd
    exact hc.redirected hnew
  · rw [hd.2]
    exact hc

theorem redirectPhi {t : DominatorTree} {phi : ValueId} {changed : Bool}
    (hd : c.redirectPhi t old new phi = .ok (changed, d)) : d.Grounded := by
  rcases redirectPhi_eq_ok hd with ⟨-, rfl⟩ | ⟨b, x, p, edges, -, hx, hp, -, -, -, hnew, rfl⟩
  · exact hc
  · refine (hc.updateBlocks (fun s y => by split <;> rfl) fun s y hy q hq v hv => ?_).updateValues _
    split at hq
    · rename_i hs
      subst hs
      obtain rfl := Except.ok.inj (hx.symm.trans hy)
      have hphi : c.HasPhi s p := ⟨x, hx, List.mem_of_find?_eq_some hp⟩
      obtain ⟨n, hn⟩ := List.mem_iff_getElem?.1 hq
      obtain ⟨q₀, hq₀, rfl | ⟨rfl, rfl⟩⟩ := Block.getElem?_modifyPhi hp hn
      · exact hc.phi_hasValue ⟨x, hx, List.mem_of_getElem? hq₀⟩ v hv
      · rcases List.mem_cons.1 hv with rfl | hv
        · exact hc.phi_hasValue hphi _ List.mem_cons_self
        · rcases mem_redirectInputs hv with rfl | hv
          · exact hnew
          · exact hc.phi_hasValue hphi v (List.mem_cons_of_mem _ hv)
    · exact hc.phi_hasValue ⟨y, hy, hq⟩ v hv

theorem redirectUses {t : DominatorTree} {definer : InstrId} {excluded : List InstrId}
    {r : Redirected} (hd : c.redirectUses t old new definer excluded = .ok (r, d)) :
    d.Grounded :=
  redirectUses_invariant Grounded hd hc (fun _ _ _ _ _ he => he.redirectOperand)
    fun _ _ _ _ he => he.redirectPhi

theorem replaced {old' new' : Operation} (hmentions : ∀ v ∈ new'.mentions, c.HasValue v) :
    (c.replaced i old' new').Grounded :=
  (hc.updateOperation fun _ _ => hmentions).updateValues _

theorem withPhi {phi : Phi} (hphi : ∀ v ∈ phi.out :: phi.operands, c.HasValue v) :
    (c.withPhi b phi).Grounded := by
  refine (hc.updateValues _).updateBlocks (fun s y => by split <;> rfl) fun s y hy q hq v hv => ?_
  rw [hasValue_updateValues]
  split at hq
  · rcases List.mem_append.1 hq with hq | hq
    · exact hc.phi_hasValue ⟨y, hy, hq⟩ v hv
    · rw [List.mem_singleton.1 hq] at hv
      exact hphi v hv
  · exact hc.phi_hasValue ⟨y, hy, hq⟩ v hv

theorem split {tail : BlockId} (hd : c.split b index = .ok (tail, d)) : d.Grounded := by
  obtain ⟨x, g, version, hx, hindex, rfl, hg, rfl⟩ := split_cases hc.toArranged hd
  refine Grounded.withVersion (((hc.cut hx).movesEdges hg).inserted
    (block_updateBlocks.2 ⟨_, block_cut.2 (.inl ⟨x, hx, if_pos rfl⟩), rfl⟩) ?_ ?_) version
  · rw [(hg b _).1]
    exact Nat.le_of_eq (List.length_take_of_le hindex).symm
  · simp [Operation.mentions, Operation.out?, Operation.operands]

end Grounded

theorem Made.grounded (hc : Made c) : c.Grounded := by
  induction hc with
  | written h => exact (intact_of_ofSteps h).grounded
  | createBlock _ ih => exact ih.createBlock
  | createValue _ type ih => exact ih.createValue type
  | modifyValue _ hd ih =>
    obtain ⟨-, rfl⟩ := modifyValue_eq_ok.1 hd
    exact ih.updateValues _
  | insertAt _ hd ih =>
    obtain ⟨⟨x, hx, hindex⟩, hmentions, -, rfl⟩ := insertAt_eq_ok.1 hd
    exact ih.inserted hx hindex hmentions
  | replace _ hd ih =>
    obtain ⟨old, -, -, hmentions, rfl⟩ := replace_eq_ok.1 hd
    exact ih.replaced hmentions
  | @addPhi c d b type operands v _ hd ih =>
    simp only [Body.addPhi, bind_eq_ok, pure_eq_ok, Except.ok.injEq, Prod.mk.injEq] at hd
    obtain ⟨e, he, -, rfl⟩ := hd
    obtain ⟨-, hout, hoperands, rfl⟩ := placePhi_eq_ok.1 he
    exact (ih.createValue type).withPhi (List.forall_mem_cons.2 ⟨hout, hoperands⟩)
  | redirectOperand _ hd ih => exact ih.redirectOperand hd
  | redirectUses _ hd ih => exact ih.redirectUses hd
  | split _ hd ih => exact ih.split hd

end Body

end Devirt
