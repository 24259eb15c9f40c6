import Devirt.Body.Draft
import Devirt.Proofs.Body.Split

/-!
Bodies that have been written step by step keep their records in order. While a draft is written,
the outputs of its pending phis stay undefined; they are defined when it is sealed.
-/

namespace Devirt

namespace Body

variable {c d : Body} {b s : BlockId} {i : InstrId} {v : ValueId} {op : Operation}

/-! ### Edits that only drafts make -/

/-- Handlers and predecessors are no records. -/
theorem Intact.updateBlocks (hc : c.Intact) {g : BlockId → Block → Block}
    (hg : ∀ b x, (g b x).instructions = x.instructions ∧ (g b x).phis = x.phis) :
    (c.updateBlocks g).Intact :=
  ⟨hc.toArranged.congr rfl (map_block_updateBlocks fun b x => (hg b x).1) fun _ => rfl,
    hc.toTracksInstructions.congr (fun _ => rfl) (fun _ => id)
      fun {_ y} hy => ⟨y, hy, fun _ => Iff.rfl, fun _ => Iff.rfl⟩,
    hc.toTracksPhis.congr (map_block_updateBlocks fun b x => (hg b x).2) (fun _ => id)
      fun {_ y} hy => ⟨y, hy, fun _ => Iff.rfl, fun _ => Iff.rfl⟩⟩

theorem block_createBlock {x : Block} :
    c.createBlock.2.block b = .ok x ↔
      c.block b = .ok x ∨ (b = ⟨c.blocks.length⟩ ∧ x = {}) :=
  block_pushBlock

theorem Arranged.createBlock (hc : c.Arranged) : c.createBlock.2.Arranged := by
  have hhas : ∀ b, c.createBlock.2.HasBlock b ↔ c.HasBlock b ∨ b = ⟨c.blocks.length⟩ :=
    fun b => hasBlock_pushBlock
  refine ⟨(hhas _).2 (.inl hc.entry), ?_, fun b => ?_, ?_, ?_, ?_⟩
  · have hnew : (⟨c.blocks.length⟩ : BlockId) ∉ c.order := fun h =>
      Nat.lt_irrefl _ ((hc.mem_order _).1 h)
    exact List.nodup_append.2 ⟨hc.order_nodup, by simp, by rintro a ha b hb rfl; simp_all⟩
  · rw [hhas, ← hc.mem_order]
    simp [Body.createBlock]
  · intro b x hx i hi
    rcases block_createBlock.1 hx with hx | ⟨-, rfl⟩
    · exact hc.placed hx i hi
    · simp at hi
  · intro i b hi
    obtain ⟨x, hx, hmem⟩ := hc.recorded hi
    exact ⟨x, block_createBlock.2 (.inl hx), hmem⟩
  · intro b x hx
    rcases block_createBlock.1 hx with hx | ⟨-, rfl⟩
    · exact hc.nodup hx
    · simp

theorem hasPhi_createBlock {phi : Phi} : c.createBlock.2.HasPhi b phi ↔ c.HasPhi b phi := by
  constructor
  · rintro ⟨x, hx, hmem⟩
    rcases block_createBlock.1 hx with hx | ⟨-, rfl⟩
    · exact ⟨x, hx, hmem⟩
    · simp at hmem
  · rintro ⟨x, hx, hmem⟩
    exact ⟨x, block_createBlock.2 (.inl hx), hmem⟩

theorem Intact.createBlock (hc : c.Intact) : c.createBlock.2.Intact := by
  refine ⟨hc.toArranged.createBlock, ⟨hc.users, hc.hasValue, hc.definition_instruction⟩,
    ⟨?_, ?_, ?_, ?_⟩⟩
  · intro v y hy p
    simpa only [hasPhi_createBlock] using hc.phiUsers hy p
  · intro b phi h
    exact hc.phi_hasValue (hasPhi_createBlock.1 h)
  · intro v y hy b
    simpa only [hasPhi_createBlock] using hc.definition_phi hy b
  · intro b x hx
    rcases block_createBlock.1 hx with hx | ⟨-, rfl⟩
    · exact hc.phi_nodup hx
    · simp

theorem block_withPhi {phi : Phi} {y : Block} :
    (c.withPhi b phi).block s = .ok y ↔
      ∃ x, c.block s = .ok x ∧ (if s = b then { x with phis := x.phis ++ [phi] } else x) = y := by
  simp [withPhi]

theorem value_withPhi {phi : Phi} {y : Value} :
    (c.withPhi b phi).value v = .ok y ↔
      ∃ x, c.value v = .ok x ∧
        { x with
          definition := if v = phi.out then .phi b else x.definition
          phiUsers := if v ∈ phi.operands then x.phiUsers.insert phi.out else x.phiUsers } = y := by
  simp [withPhi]

theorem hasPhi_withPhi {phi q : Phi} (hb : c.HasBlock b) :
    (c.withPhi b phi).HasPhi s q ↔ c.HasPhi s q ∨ (s = b ∧ q = phi) := by
  constructor
  · rintro ⟨y, hy, hq⟩
    obtain ⟨x, hx, rfl⟩ := block_withPhi.1 hy
    split at hq
    · rcases List.mem_append.1 hq with hq | hq
      · exact .inl ⟨x, hx, hq⟩
      · exact .inr ⟨‹_›, by simpa using hq⟩
    · exact .inl ⟨x, hx, hq⟩
  · rintro (⟨x, hx, hq⟩ | ⟨rfl, rfl⟩)
    · refine ⟨_, block_withPhi.2 ⟨x, hx, rfl⟩, ?_⟩
      split
      · exact List.mem_append_left _ hq
      · exact hq
    · obtain ⟨x, hx⟩ := exists_block_iff.2 hb
      exact ⟨_, block_withPhi.2 ⟨x, hx, rfl⟩, by simp⟩

/-- The phi users stay right, with the new phi among them. -/
theorem mem_phiUsers_withPhi {phi : Phi} (hb : c.HasBlock b) {y : Value}
    (hy : ∀ p, p ∈ y.phiUsers ↔ ∃ s q, c.HasPhi s q ∧ q.out = p ∧ v ∈ q.operands) (p : ValueId) :
    p ∈ (if v ∈ phi.operands then y.phiUsers.insert phi.out else y.phiUsers) ↔
      ∃ s q, (c.withPhi b phi).HasPhi s q ∧ q.out = p ∧ v ∈ q.operands := by
  have hmem : p ∈ (if v ∈ phi.operands then y.phiUsers.insert phi.out else y.phiUsers) ↔
      p ∈ y.phiUsers ∨ (p = phi.out ∧ v ∈ phi.operands) := by
    split <;> simp [*]
  simp only [hmem, hasPhi_withPhi hb, hy]
  constructor
  · rintro (⟨s, q, hq, hout, hv⟩ | ⟨rfl, hv⟩)
    · exact ⟨s, q, .inl hq, hout, hv⟩
    · exact ⟨b, phi, .inr ⟨rfl, rfl⟩, rfl, hv⟩
  · rintro ⟨s, q, hq | ⟨rfl, rfl⟩, hout, hv⟩
    · exact .inl ⟨s, q, hq, hout, hv⟩
    · exact .inr ⟨hout.symm, hv⟩

theorem phi_nodup_withPhi {phi : Phi} {z : Block}
    (hnodup : ∀ {s y}, c.block s = .ok y → (y.phis.map (·.out)).Nodup)
    (hfresh : ∀ s q, c.HasPhi s q → q.out ≠ phi.out) (hz : (c.withPhi b phi).block s = .ok z) :
    (z.phis.map (·.out)).Nodup := by
  obtain ⟨y, hy, rfl⟩ := block_withPhi.1 hz
  split
  · rw [List.map_append, List.nodup_append]
    refine ⟨hnodup hy, by simp, ?_⟩
    rintro v hv w hw rfl
    obtain ⟨q, hq, rfl⟩ := List.mem_map.1 hv
    exact hfresh s q ⟨y, hy, hq⟩ (List.mem_singleton.1 hw)
  · exact hnodup hy

/-- A phi may define a value that nothing defines yet. -/
theorem Intact.withPhi (hc : c.Intact) {phi : Phi} (hb : c.HasBlock b)
    {x : Value} (hx : c.value phi.out = .ok x) (hfresh : x.definition = .undefined)
    (hoperands : ∀ v ∈ phi.operands, c.HasValue v) : (c.withPhi b phi).Intact := by
  have hhas : ∀ v, (c.withPhi b phi).HasValue v ↔ c.HasValue v := by
    intro v
    simp [Body.withPhi]
  have hnot : ∀ s q, c.HasPhi s q → q.out ≠ phi.out := by
    intro s q hq hout
    have := (hc.definition_phi hx s).2 ⟨q, hq, hout⟩
    rw [hfresh] at this
    exact Definition.noConfusion this
  refine ⟨hc.toArranged.congr rfl ?_ fun _ => rfl,
    hc.toTracksInstructions.congr (fun _ => rfl) (fun v => (hhas v).2) ?_, ⟨?_, ?_, ?_, ?_⟩⟩
  · intro s
    rw [Body.withPhi]
    exact map_block_updateBlocks (fun s y => by split <;> rfl) s
  · intro v y hy
    obtain ⟨z, hz, rfl⟩ := value_withPhi.1 hy
    refine ⟨z, hz, fun _ => Iff.rfl, fun i => ?_⟩
    by_cases hv : v = phi.out
    · subst hv
      obtain rfl : x = z := Except.ok.inj (hx.symm.trans hz)
      simp [hfresh]
    · simp [hv]
  · intro v y hy p
    obtain ⟨z, hz, rfl⟩ := value_withPhi.1 hy
    exact mem_phiUsers_withPhi hb (hc.phiUsers hz) p
  · intro s q hq v hv
    rw [hhas]
    rcases (hasPhi_withPhi hb).1 hq with hq | ⟨rfl, rfl⟩
    · exact hc.phi_hasValue hq v hv
    · rcases List.mem_cons.1 hv with rfl | hv
      · exact hasValue_of_value hx
      · exact hoperands v hv
  · intro v y hy s
    obtain ⟨z, hz, rfl⟩ := value_withPhi.1 hy
    simp only [hasPhi_withPhi hb]
    by_cases hv : v = phi.out
    · subst hv
      rw [if_pos rfl, Definition.phi.injEq]
      constructor
      · rintro rfl
        exact ⟨phi, .inr ⟨rfl, rfl⟩, rfl⟩
      · rintro ⟨q, hq | ⟨rfl, -⟩, hout⟩
        · exact absurd hout (hnot s q hq)
        · rfl
    · rw [if_neg hv, hc.definition_phi hz]
      constructor
      · rintro ⟨q, hq, hout⟩
        exact ⟨q, .inl hq, hout⟩
      · rintro ⟨q, hq | ⟨-, rfl⟩, hout⟩
        · exact ⟨q, hq, hout⟩
        · exact absurd hout.symm hv
  · intro s y hy
    exact phi_nodup_withPhi hc.phi_nodup hnot hy

end Body

/-! ### Drafts -/

/-- What holds of a draft at all times. -/
structure Draft.Sound (d : Draft) : Prop where
  intact : d.body.Intact
  blank : ∀ b x, d.body.block b = .ok x → x.phis = []
  pending : ∀ p ∈ d.phis, ∃ x, d.body.value p.out = .ok x ∧ x.definition = .undefined
  nodup : (d.phis.map (·.out)).Nodup

namespace Draft

variable {d : Draft}

theorem Sound.updateValues (hd : d.Sound) {g : ValueId → Value → Value}
    (hg : ∀ v x, (g v x).users = x.users ∧ (g v x).phiUsers = x.phiUsers ∧
      (g v x).definition = x.definition) :
    Sound { d with body := d.body.updateValues g } where
  intact := hd.intact.updateValues hg
  blank := hd.blank
  pending p hp := by
    obtain ⟨x, hx, hdef⟩ := hd.pending p hp
    exact ⟨_, Body.value_updateValues.2 ⟨x, hx, rfl⟩, (hg _ x).2.2.trans hdef⟩
  nodup := hd.nodup

theorem Sound.updateBlocks (hd : d.Sound) {g : BlockId → Block → Block}
    (hg : ∀ b x, (g b x).instructions = x.instructions ∧ (g b x).phis = x.phis) :
    Sound { d with body := d.body.updateBlocks g } where
  intact := hd.intact.updateBlocks hg
  blank b y hy := by
    obtain ⟨x, hx, rfl⟩ := Body.block_updateBlocks.1 hy
    rw [(hg b x).2, hd.blank b x hx]
  pending := hd.pending
  nodup := hd.nodup

theorem Sound.createBlock (hd : d.Sound) : Sound { d with body := d.body.createBlock.2 } where
  intact := hd.intact.createBlock
  blank b x hx := by
    rcases Body.block_createBlock.1 hx with hx | ⟨-, rfl⟩
    · exact hd.blank b x hx
    · rfl
  pending := hd.pending
  nodup := hd.nodup

theorem Sound.createValue (hd : d.Sound) (t : StaticType) :
    Sound { d with body := (d.body.createValue t).2 } where
  intact := hd.intact.createValue t
  blank := hd.blank
  pending p hp := by
    obtain ⟨x, hx, hdef⟩ := hd.pending p hp
    exact ⟨x, Body.value_createValue.2 (.inl hx), hdef⟩
  nodup := hd.nodup

/-- An instruction may be placed if nothing else is to define its output. -/
theorem Sound.inserted (hd : d.Sound) {b : BlockId} {x : Block} {op : Operation}
    (hx : d.body.block b = .ok x) (hmentions : ∀ v ∈ op.mentions, d.body.HasValue v)
    (hfresh : ∀ v y, op.out? = some v → d.body.value v = .ok y → y.definition = .undefined)
    (hpending : ∀ p ∈ d.phis, op.out? ≠ some p.out) :
    Sound { d with body := d.body.inserted b x.instructions.length op } where
  intact := hd.intact.inserted hx (Nat.le_refl _) hmentions hfresh
  blank s y hy := by
    obtain ⟨z, hz, rfl⟩ := Body.block_inserted.1 hy
    split <;> exact hd.blank s z hz
  pending p hp := by
    obtain ⟨y, hy, hdef⟩ := hd.pending p hp
    refine ⟨_, Body.value_inserted.2 ⟨y, hy, rfl⟩, ?_⟩
    simp [Body.attached, hpending p hp, hdef]
  nodup := hd.nodup

/-- Predecessors are settled without touching anything else. -/
theorem Sound.connect (hd : d.Sound) {c : Body} (h : d.body.connect = .ok c) :
    Sound { d with body := c } := by
  simp only [Body.connect, bind_eq_ok] at h
  obtain ⟨edges, -, h⟩ := h
  refine foldlM_invariant (fun c => Sound { d with body := c }) h ?_ ?_
  · have heq : (⟨d.body.method, d.body.blocks.map fun x => { x with predecessors := [] },
        d.body.order, d.body.instructions, d.body.values, d.body.version⟩ : Body) =
        d.body.updateBlocks fun _ x => { x with predecessors := [] } := by
      have hmap : d.body.blocks.map (fun x => { x with predecessors := [] }) =
          d.body.blocks.mapIdx fun _ x => { x with predecessors := [] } :=
        List.ext_getElem? (by simp)
      rw [hmap]
      rfl
    rw [heq]
    exact hd.updateBlocks fun _ _ => ⟨rfl, rfl⟩
  · rintro ⟨b, targets⟩ - x y hx hy
    refine foldlM_invariant (fun c => Sound { d with body := c }) hy hx ?_
    intro s _ x y hx hy
    obtain ⟨-, rfl⟩ := Body.modifyBlock_eq_ok.1 hy
    exact hx.updateBlocks fun b x => by split <;> exact ⟨rfl, rfl⟩

/-- Placing the pending phis one by one. -/
theorem intact_of_placePhis {phis : List PendingPhi} {c c' : Body} (hc : c.Intact)
    (hpending : ∀ p ∈ phis, ∃ x, c.value p.out = .ok x ∧ x.definition = .undefined)
    (hnodup : (phis.map (·.out)).Nodup)
    (h : phis.foldlM (fun c p => do
      let x ← c.block p.block
      c.placePhi p.block { out := p.out, operands := p.operands x.predecessors }) c = .ok c') :
    c'.Intact := by
  induction phis generalizing c with
  | nil =>
    obtain rfl := Except.ok.inj h
    exact hc
  | cons p phis ih =>
    simp only [List.foldlM_cons, bind_eq_ok, Body.placePhi_eq_ok] at h
    obtain ⟨e, ⟨y, -, hb, -, hoperands, rfl⟩, h⟩ := h
    obtain ⟨x, hx, hdef⟩ := hpending p (by simp)
    refine ih (hc.withPhi hb hx hdef hoperands) (fun q hq => ?_) (List.nodup_cons.1 hnodup).2 h
    obtain ⟨z, hz, hdef⟩ := hpending q (List.mem_cons_of_mem _ hq)
    refine ⟨_, Body.value_withPhi.2 ⟨z, hz, rfl⟩, ?_⟩
    have hne : q.out ≠ p.out := by
      intro heq
      exact (List.nodup_cons.1 hnodup).1 (List.mem_map.2 ⟨q, hq, heq⟩)
    simp [hne, hdef]

theorem Sound.intact_seal (hd : d.Sound) {c : Body} (h : d.seal = .ok c) : c.Intact := by
  simp only [Draft.seal, bind_eq_ok] at h
  obtain ⟨e, he, h⟩ := h
  have hs := hd.connect he
  exact intact_of_placePhis hs.intact hs.pending hs.nodup (by simpa using h)

end Draft

namespace Drafting

variable {α β : Type} {b : BlockId}

/-- The writing leaves a sound draft behind. -/
def Keeps (w : Drafting α) : Prop :=
  ∀ (d : Draft) (a : α) (d' : Draft), d.Sound → w.run d = .ok (a, d') → d'.Sound

theorem keeps_pure (a : α) : Keeps (pure a) := by
  intro d a' d' hd h
  obtain ⟨-, rfl⟩ := Prod.mk.inj (Except.ok.inj h)
  exact hd

theorem Keeps.bind {w : Drafting α} {f : α → Drafting β} (hw : Keeps w) (hf : ∀ a, Keeps (f a)) :
    Keeps (w >>= f) := by
  intro d b d' hd h
  rw [StateT.run_bind, bind_eq_ok] at h
  obtain ⟨⟨a, e⟩, ha, h⟩ := h
  exact hf a e b d' (hw d a e hd ha) h

theorem Keeps.map {w : Drafting α} (hw : Keeps w) (f : α → β) : Keeps (f <$> w) := by
  rw [map_eq_pure_bind]
  exact hw.bind fun a => keeps_pure (f a)

theorem Keeps.mapM {γ : Type} {f : γ → Drafting α} (hf : ∀ a, Keeps (f a)) (l : List γ) :
    Keeps (l.mapM f) := by
  induction l with
  | nil => exact keeps_pure []
  | cons a l ih =>
    rw [List.mapM_cons]
    exact (hf a).bind fun b => ih.bind fun bs => keeps_pure (b :: bs)

theorem keeps_edit {f : Body → Except Fault Body}
    (hf : ∀ (d : Draft) (c : Body), d.Sound → f d.body = .ok c → Draft.Sound { d with body := c }) :
    Keeps (edit f) := by
  intro d a d' hd h
  simp only [edit, StateT.run_bind, StateT.run_get, StateT.run_monadLift, StateT.run_set,
    bind_eq_ok, pure_eq_ok, ok_bind, Except.ok.injEq, Prod.mk.injEq] at h
  obtain ⟨_, ⟨c, hc, rfl⟩, -, rfl⟩ := h
  exact hf d c hd hc

theorem keeps_modifyValue {v : ValueId} {f : Value → Value}
    (hf : ∀ x, (f x).users = x.users ∧ (f x).phiUsers = x.phiUsers ∧
      (f x).definition = x.definition) : Keeps (edit (·.modifyValue v f)) := by
  refine keeps_edit fun d c hd h => ?_
  obtain ⟨-, rfl⟩ := Body.modifyValue_eq_ok.1 h
  refine hd.updateValues fun w x => ?_
  split
  · exact hf x
  · exact ⟨rfl, rfl, rfl⟩

theorem keeps_handler (guard : Option TypeName) (target : BlockId) :
    Keeps (handler b guard target) := by
  refine keeps_edit fun d c hd h => ?_
  obtain ⟨-, rfl⟩ := Body.modifyBlock_eq_ok.1 h
  exact hd.updateBlocks fun s x => by split <;> exact ⟨rfl, rfl⟩

theorem keeps_newBlock : Keeps newBlock := by
  intro d a d' hd h
  obtain ⟨-, rfl⟩ := Prod.mk.inj (Except.ok.inj h)
  exact hd.createBlock

theorem run_emit {op : Operation} {d d' : Draft} {i : InstrId}
    (h : (emit b op).run d = .ok (i, d')) :
    ∃ c, d.body.append b op = .ok (i, c) ∧ d' = { d with body := c } := by
  simp only [emit, StateT.run_bind, StateT.run_get, StateT.run_monadLift, StateT.run_set,
    StateT.run_pure, bind_eq_ok, pure_eq_ok, ok_bind, Except.ok.injEq, Prod.mk.injEq] at h
  obtain ⟨_, ⟨⟨j, c⟩, hc, rfl⟩, rfl, rfl⟩ := h
  exact ⟨c, hc, rfl⟩

theorem keeps_emit {op : Operation} (hout : op.out? = none) : Keeps (emit b op) := by
  intro d a d' hd h
  obtain ⟨c, hc, rfl⟩ := run_emit h
  obtain ⟨x, hx, hmentions, -, rfl⟩ := Body.append_eq_ok.1 hc
  exact hd.inserted hx hmentions (by simp [hout]) (by simp [hout])

theorem keeps_typeOf (v : ValueId) : Keeps (typeOf v) := by
  intro d a d' hd h
  simp only [typeOf, StateT.run_bind, StateT.run_get, StateT.run_monadLift, StateT.run_pure,
    bind_eq_ok, pure_eq_ok, ok_bind, Except.ok.injEq, Prod.mk.injEq] at h
  obtain ⟨_, ⟨x, -, rfl⟩, -, rfl⟩ := h
  exact hd

/-- The output of a defining instruction is new, so nothing else defines it. -/
theorem keeps_define {type : StaticType} {op : ValueId → Operation}
    (hout : ∀ v, (op v).out? = some v) : Keeps (define b type op) := by
  intro d a d' hd h
  simp only [define, StateT.run_bind, StateT.run_pure, bind_eq_ok, pure_eq_ok] at h
  obtain ⟨⟨v, e⟩, hv, ⟨i, e'⟩, hi, h⟩ := h
  obtain ⟨rfl, rfl⟩ := Prod.mk.inj (Except.ok.inj hv)
  obtain ⟨-, rfl⟩ := Prod.mk.inj (Except.ok.inj h)
  obtain ⟨c, hc, rfl⟩ := run_emit hi
  obtain ⟨x, hx, hmentions, -, rfl⟩ := Body.append_eq_ok.1 hc
  refine (hd.createValue type).inserted hx hmentions ?_ ?_
  · intro v y hv hy
    rw [hout, Option.some.injEq] at hv
    subst hv
    rcases Body.value_createValue.1 hy with hy | ⟨-, rfl⟩
    · exact absurd (Body.hasValue_of_value hy) Body.not_hasValue_next
    · rfl
  · intro p hp heq
    rw [hout, Option.some.injEq] at heq
    obtain ⟨y, hy, -⟩ := hd.pending p hp
    exact Body.not_hasValue_next (heq ▸ Body.hasValue_of_value hy)

theorem keeps_argument (type : StaticType) : Keeps (argument type) := by
  intro d a d' hd h
  have hdefine : Keeps (define d.body.entry type fun v => .argument v d.arguments) :=
    keeps_define fun _ => rfl
  exact hdefine
    { d with arguments := d.arguments + 1 } a d' ⟨hd.intact, hd.blank, hd.pending, hd.nodup⟩ h

theorem keeps_phi (type : StaticType) (incoming : List (BlockId × ValueId)) :
    Keeps (phi b type incoming) := by
  intro d a d' hd h
  obtain ⟨-, rfl⟩ := Prod.mk.inj (Except.ok.inj h)
  have hnew := hd.createValue type
  refine ⟨hnew.intact, hnew.blank, ?_, ?_⟩
  · intro p hp
    rcases List.mem_append.1 hp with hp | hp
    · exact hnew.pending p hp
    · obtain rfl := List.mem_singleton.1 hp
      exact ⟨_, Body.value_createValue.2 (.inr ⟨rfl, rfl⟩), rfl⟩
  · rw [List.map_append, List.nodup_append]
    refine ⟨hd.nodup, by simp, ?_⟩
    rintro v hv w hw rfl
    obtain ⟨p, hp, rfl⟩ := List.mem_map.1 hv
    obtain ⟨x, hx, -⟩ := hd.pending p hp
    have heq : p.out = ⟨d.body.values.length⟩ := by simpa using hw
    exact Body.not_hasValue_next (heq ▸ Body.hasValue_of_value hx)

end Drafting

theorem DraftStep.keeps_perform (step : DraftStep) : Drafting.Keeps step.perform := by
  cases step with
  | newBlock => exact Drafting.keeps_newBlock.map _
  | argument type => exact (Drafting.keeps_argument type).map _
  | localName v name =>
    have h : Drafting.Keeps (Drafting.localName v name) :=
      Drafting.keeps_modifyValue fun _ => ⟨rfl, rfl, rfl⟩
    exact h.bind fun _ => Drafting.keeps_pure _
  | dynamic v r =>
    have h : Drafting.Keeps (Drafting.dynamic v r) :=
      Drafting.keeps_modifyValue fun _ => ⟨rfl, rfl, rfl⟩
    exact h.bind fun _ => Drafting.keeps_pure _
  | create b name => exact (Drafting.keeps_define fun _ => rfl).map _
  | null b => exact (Drafting.keeps_define fun _ => rfl).map _
  | number b n => exact (Drafting.keeps_define fun _ => rfl).map _
  | call b kind method arguments => exact (Drafting.keeps_emit rfl).map _
  | callWithResult b kind method arguments type => exact (Drafting.keeps_define fun _ => rfl).map _
  | cast b object name =>
    exact ((Drafting.keeps_typeOf object).bind fun _ => Drafting.keeps_define fun _ => rfl).map _
  | assumeNonNull b source origin =>
    exact ((Drafting.keeps_typeOf source).bind fun _ => Drafting.keeps_define fun _ => rfl).map _
  | phi b type incoming => exact (Drafting.keeps_phi type incoming).map _
  | handler b guard target =>
    exact (Drafting.keeps_handler guard target).bind fun _ => Drafting.keeps_pure _
  | goto b target => exact (Drafting.keeps_emit rfl).map _
  | branch b condition whenTrue whenFalse => exact (Drafting.keeps_emit rfl).map _
  | ret b value => exact (Drafting.keeps_emit rfl).map _
  | raise b exception => exact (Drafting.keeps_emit rfl).map _

theorem Draft.sound_empty (method : MethodRef) : Draft.Sound { body := { method } } := by
  have hblock : ∀ {b x}, (Body.mk method [{}] [⟨0⟩] [] [] 0).block b = .ok x →
      b = ⟨0⟩ ∧ x = {} := by
    intro b x hx
    obtain ⟨n⟩ := b
    rw [Body.block_eq_ok, List.getElem?_singleton] at hx
    split at hx <;> simp_all
  have hvalue : ∀ {v x}, (Body.mk method [{}] [⟨0⟩] [] [] 0).value v ≠ .ok x := by
    simp [Body.value_eq_ok]
  have hoperation : ∀ {i op}, (Body.mk method [{}] [⟨0⟩] [] [] 0).operation i ≠ .ok op := by
    simp [Body.operation_eq_ok, Body.instruction_eq_ok]
  have hphi : ∀ {b phi}, ¬ (Body.mk method [{}] [⟨0⟩] [] [] 0).HasPhi b phi := by
    rintro b phi ⟨x, hx, hmem⟩
    simp [(hblock hx).2] at hmem
  refine ⟨⟨⟨Nat.one_pos, by simp, fun b => ?_, ?_, ?_, ?_⟩, ⟨?_, ?_, ?_⟩, ⟨?_, ?_, ?_, ?_⟩⟩, ?_,
    by simp, by simp⟩
  · obtain ⟨n⟩ := b
    simp [Body.HasBlock]
  · intro b x hx i hi
    simp [(hblock hx).2] at hi
  · intro i b hi
    simp [Body.blockOf_eq_ok, Body.instruction_eq_ok] at hi
  · intro b x hx
    simp [(hblock hx).2]
  · exact fun hx => absurd hx hvalue
  · exact fun hop => absurd hop hoperation
  · exact fun hx => absurd hx hvalue
  · exact fun hx => absurd hx hvalue
  · exact fun h => absurd h hphi
  · exact fun hx => absurd hx hvalue
  · intro b x hx
    simp [(hblock hx).2]
  · intro b x hx
    rw [(hblock hx).2]

/-- Every body that is written step by step has its records in order. -/
theorem Body.intact_of_ofSteps {method : MethodRef} {steps : List DraftStep}
    {made : List Created} {c : Body} (h : Body.ofSteps method steps = .ok (made, c)) :
    c.Intact := by
  simp only [Body.ofSteps, Body.write, bind_eq_ok, pure_eq_ok, Except.ok.injEq,
    Prod.mk.injEq] at h
  obtain ⟨⟨made', d⟩, hrun, c', hseal, -, rfl⟩ := h
  have hd := Drafting.Keeps.mapM DraftStep.keeps_perform steps _ _ _
    (Draft.sound_empty method) hrun
  exact hd.intact_seal hseal

end Devirt
