import Devirt.Proofs.Body.Made
import Devirt.Proofs.Devirtualization.Walk

/-!
Casts and jumps laid over a body. However odd the body is, the edits of devirtualization keep its
instructions in order, let operands be replaced only by casts of them, and make every new value by
one cast that has come from an old value.
-/

namespace Devirt

/-- The phi has kept its output, and begins with operands related to the ones it had. -/
def Phi.Extends (r : ValueId → ValueId → Prop) (p₀ p : Phi) : Prop :=
  p.out = p₀.out ∧
    ∀ (e : Nat) w, p₀.operands[e]? = some w → ∃ u, p.operands[e]? = some u ∧ r u w

/-- No phi is gone or new, and all extend what they were. -/
def Block.Extends (r : ValueId → ValueId → Prop) (x₀ x : Block) : Prop :=
  x.phis.length = x₀.phis.length ∧
    ∀ (n : Nat) p₀, x₀.phis[n]? = some p₀ → ∃ p, x.phis[n]? = some p ∧ p₀.Extends r p

section Extends

variable {r r' q : ValueId → ValueId → Prop} {x y z : Block} {p p' p'' : Phi}

theorem Phi.Extends.refl (h : ∀ v, r v v) (p : Phi) : p.Extends r p :=
  ⟨rfl, fun _ w hw => ⟨w, hw, h w⟩⟩

theorem Phi.Extends.trans (h : p.Extends r p') (h' : p'.Extends r' p'')
    (hq : ∀ u v w, r' u v → r v w → q u w) : p.Extends q p'' := by
  refine ⟨h'.1.trans h.1, fun e w hw => ?_⟩
  obtain ⟨v, hv, hvw⟩ := h.2 e w hw
  obtain ⟨u, hu, huv⟩ := h'.2 e v hv
  exact ⟨u, hu, hq u v w huv hvw⟩

namespace Block.Extends

theorem of_phis_eq (h : ∀ v, r v v) (hphis : y.phis = x.phis) : x.Extends r y :=
  ⟨congrArg _ hphis, fun _ p hp => ⟨p, hphis ▸ hp, .refl h p⟩⟩

theorem mono (h : x.Extends r y) (hq : ∀ u w, r u w → q u w) : x.Extends q y := by
  refine ⟨h.1, fun n p hp => ?_⟩
  obtain ⟨p', hp', hout, hoperands⟩ := h.2 n p hp
  refine ⟨p', hp', hout, fun e w hw => ?_⟩
  obtain ⟨u, hu, huw⟩ := hoperands e w hw
  exact ⟨u, hu, hq u w huw⟩

theorem trans (h : x.Extends r y) (h' : y.Extends r' z) (hq : ∀ u v w, r' u v → r v w → q u w) :
    x.Extends q z := by
  refine ⟨h'.1.trans h.1, fun n p hp => ?_⟩
  obtain ⟨p', hp', hextends⟩ := h.2 n p hp
  obtain ⟨p'', hp'', hextends'⟩ := h'.2 n p' hp'
  exact ⟨p'', hp'', hextends.trans hextends' hq⟩

theorem modifyPhi {phi : ValueId} {f : Phi → Phi} (h : ∀ v, r v v) (hp : x.phi? phi = some p)
    (hf : p.Extends r (f p)) : x.Extends r (x.modifyPhi phi f) := by
  have hlen : (x.modifyPhi phi f).phis.length = x.phis.length := by simp [Block.modifyPhi]
  refine ⟨hlen, fun n q hq => ?_⟩
  obtain ⟨hlt, -⟩ := List.getElem?_eq_some_iff.1 hq
  have hget := List.getElem?_eq_getElem (hlen.symm ▸ hlt)
  refine ⟨_, hget, ?_⟩
  obtain ⟨q₀, hq₀, hcases⟩ := Block.getElem?_modifyPhi hp hget
  obtain rfl := Option.some.inj (hq.symm.trans hq₀)
  rcases hcases with heq | ⟨rfl, heq⟩
  · rw [heq]
    exact .refl h q
  · rw [heq]
    exact hf

end Block.Extends

/-- Where the old value stands on an edge, the new one may be read. -/
theorem Phi.Extends.redirectInputs {old new : ValueId} {edges : List Bool} (h : ∀ v, r v v)
    (hnew : r new old) :
    p.Extends r { p with operands := redirectInputs old new p.operands edges } := by
  refine ⟨rfl, fun e w hw => ?_⟩
  simp only [getElem?_redirectInputs, hw, Option.map_some, Option.some.injEq, exists_eq_left']
  split
  · rename_i hopen
    rw [hopen.1]
    exact hnew
  · exact h w

end Extends

namespace Body

variable {h : Hierarchy} {c₀ c d e : Body} {b s t : BlockId} {i j k : InstrId}
  {u v w old new : ValueId} {op : Operation} {x : Block} {index : Nat} {name : TypeName}
  {bare : List ValueId}

/-! ### The instructions in layout order -/

/-- The instructions of all blocks in layout order. -/
def listed (c : Body) : List InstrId := c.order.flatMap c.row

theorem listed_eq {l : List InstrId} (hl : c.placed = .ok l) : c.listed = l := by
  obtain ⟨layout, hlayout, hflat⟩ := bind_eq_ok.1 hl
  rw [listed, flatMap_row hlayout]
  exact Except.ok.inj hflat

theorem own_insertIdx {l : List InstrId} (hk : ¬ c₀.HasInstruction k) :
    c₀.own (l.insertIdx index k) = c₀.own l := by
  induction l generalizing index with
  | nil =>
    cases index with
    | zero => exact own_cons_of_not hk
    | succ index => rfl
  | cons i l ih =>
    cases index with
    | zero => exact own_cons_of_not hk
    | succ index =>
      rw [List.insertIdx_succ_cons]
      by_cases hi : c₀.HasInstruction i
      · rw [own_cons hi, own_cons hi, ih]
      · rw [own_cons_of_not hi, own_cons_of_not hi, ih]

theorem own_listed_inserted (hx : c.block b = .ok x)
    (hk : ¬ c₀.HasInstruction ⟨c.instructions.length⟩) :
    c₀.own (c.inserted b index op).listed = c₀.own c.listed := by
  rw [own, own, listed, listed, order_inserted, List.filter_flatMap, List.filter_flatMap]
  refine congrArg c.order.flatMap (funext fun s => ?_)
  by_cases hs : s = b
  · subst hs
    rw [row_inserted hx]
    exact own_insertIdx hk
  · rw [row_inserted_of_ne hs]

theorem row_cut (hx : c.block b = .ok x) : (c.cut b index x).row b = (c.row b).take index := by
  rw [row_eq (block_cut.2 (.inl ⟨x, hx, if_pos rfl⟩)), row_eq hx]

theorem row_cut_tail (hx : c.block b = .ok x) :
    (c.cut b index x).row ⟨c.blocks.length⟩ = (c.row b).drop index := by
  rw [row_eq (block_cut.2 (.inr ⟨rfl, rfl⟩)), row_eq hx]
  rfl

theorem row_cut_of_ne (hs : s ≠ b) (hst : s ≠ ⟨c.blocks.length⟩) :
    (c.cut b index x).row s = c.row s :=
  row_congr (fun hy => ⟨_, block_cut.2 (.inl ⟨_, hy, if_neg hs⟩), rfl⟩)
    fun h => (hasBlock_cut.1 h).resolve_right hst

theorem row_movesEdges {g : BlockId → Block → Block} (hg : MovesEdges g) :
    (c.updateBlocks g).row s = c.row s :=
  row_congr (fun hx => ⟨_, block_updateBlocks.2 ⟨_, hx, rfl⟩, (hg s _).1⟩) hasBlock_updateBlocks.1

theorem row_phiRedirected {phi : ValueId} {operands : List ValueId} :
    (c.phiRedirected b old new phi operands).row s = c.row s :=
  row_congr (fun hy => ⟨_, block_phiRedirected.2 ⟨_, hy, rfl⟩, by split <;> rfl⟩)
    hasBlock_phiRedirected.1

/-- The tail follows the head in the layout, so no instruction moves past another one. -/
theorem listed_cut (hc : c.Arranged) (hx : c.block b = .ok x) :
    (c.cut b index x).listed = c.listed := by
  have hb := hasBlock_of_block hx
  obtain ⟨pre, rest, horder⟩ := List.append_of_mem ((hc.mem_order b).2 hb)
  have hnodup := hc.order_nodup
  rw [horder, List.nodup_append, List.nodup_cons] at hnodup
  obtain ⟨-, ⟨hrest, -⟩, hpre⟩ := hnodup
  have hbpre : b ∉ pre := fun hmem => hpre b hmem b List.mem_cons_self rfl
  have hsame : ∀ l : List BlockId, l ⊆ c.order → b ∉ l →
      l.flatMap (c.cut b index x).row = l.flatMap c.row := by
    intro l hl hbl
    refine List.flatMap_congr fun s hs => row_cut_of_ne ?_ ?_
    · rintro rfl
      exact hbl hs
    · rintro rfl
      exact ((hc.mem_order _).1 (hl hs)).ne_next rfl
  have hlayout : (c.cut b index x).order = pre ++ b :: ⟨c.blocks.length⟩ :: rest := by
    show layoutAfter c.order b ⟨c.blocks.length⟩ = _
    rw [horder, layoutAfter_append hbpre]
  rw [listed, listed, hlayout, horder]
  simp only [List.flatMap_append, List.flatMap_cons, row_cut hx, row_cut_tail hx]
  rw [hsame pre (by simp [horder]) hbpre, hsame rest (by simp [horder]) hrest,
    ← List.append_assoc ((c.row b).take index), List.take_append_drop]

/-! ### Phis that keep their operands -/

/-- No block is gone, and the phis of every block begin with the operands they had. -/
def KeepsPhis (c d : Body) : Prop :=
  ∀ b x, c.block b = .ok x → ∃ y, d.block b = .ok y ∧ x.Extends Eq y

namespace KeepsPhis

theorem of_block (hblock : ∀ {b x}, c.block b = .ok x → d.block b = .ok x) : KeepsPhis c d :=
  fun _ _ hx => ⟨_, hblock hx, .of_phis_eq (fun _ => rfl) rfl⟩

theorem trans (hcd : KeepsPhis c d) (hde : KeepsPhis d e) : KeepsPhis c e := by
  intro b x hx
  obtain ⟨y, hy, hextends⟩ := hcd b x hx
  obtain ⟨z, hz, hextends'⟩ := hde b y hy
  exact ⟨z, hz, hextends.trans hextends' fun _ _ _ h h' => h.trans h'⟩

theorem inserted : KeepsPhis c (c.inserted b index op) := by
  intro s y hy
  refine ⟨_, block_inserted.2 ⟨_, hy, rfl⟩, .of_phis_eq (fun _ => rfl) ?_⟩
  split <;> rfl

theorem cut : KeepsPhis c (c.cut b index x) := by
  intro s y hy
  refine ⟨_, block_cut.2 (.inl ⟨_, hy, rfl⟩), .of_phis_eq (fun _ => rfl) ?_⟩
  split <;> rfl

theorem movesEdges {g : BlockId → Block → Block} (hg : MovesEdges g) :
    KeepsPhis c (c.updateBlocks g) := by
  intro b x hx
  refine ⟨_, block_updateBlocks.2 ⟨x, hx, rfl⟩, ?_⟩
  obtain ⟨-, -, extra, -, hphis⟩ := hg b x
  refine ⟨(congrArg List.length hphis).trans (List.length_map _), fun n p hp => ?_⟩
  refine ⟨{ p with operands := p.operands ++ extra p }, ?_, rfl, fun m v hv => ⟨v, ?_, rfl⟩⟩
  · rw [hphis, List.getElem?_map, hp, Option.map_some]
  · exact (List.getElem?_append_left (List.getElem?_eq_some_iff.1 hv).1).trans hv

end KeepsPhis

/-! ### What every edit carries on -/

/-- The body `d` carries on `c`, a stage of the same devirtualization. Values go on standing for
what they stood for, and operands have been replaced only by others that stand for the same. -/
structure Carries (c₀ c d : Body) : Prop where
  stands : ∀ {u w}, Stands c₀ c u w → Stands c₀ d u w
  operation : ∀ {i op}, c.operation i = .ok op →
    ∃ op', d.operation i = .ok op' ∧ op.Renders (Succeeds c₀ c d) op'
  listed : c₀.own d.listed = c₀.own c.listed
  block : ∀ {b x}, c.block b = .ok x → ∃ y, d.block b = .ok y ∧ x.Extends (Succeeds c₀ c d) y
  value : ∀ {v y}, c₀.HasValue v → c.value v = .ok y →
    ∃ z, d.value v = .ok z ∧ z.dynamic = y.dynamic ∧ z.localName = y.localName

namespace Carries

theorem trans (hcd : Carries c₀ c d) (hde : Carries c₀ d e) : Carries c₀ c e where
  stands hu := hde.stands (hcd.stands hu)
  operation hop := by
    obtain ⟨op', hop', hrender⟩ := hcd.operation hop
    obtain ⟨op'', hop'', hrender'⟩ := hde.operation hop'
    exact ⟨op'', hop'', hrender.trans hrender' fun _ _ _ h h' w hw => h w (h' w hw)⟩
  listed := hde.listed.trans hcd.listed
  block hx := by
    obtain ⟨y, hy, hextends⟩ := hcd.block hx
    obtain ⟨z, hz, hextends'⟩ := hde.block hy
    exact ⟨z, hz, hextends.trans hextends' fun _ _ _ h h' w hw => h w (h' w hw)⟩
  value hv hy := by
    obtain ⟨y, hy, hdynamic, hname⟩ := hcd.value hv hy
    obtain ⟨z, hz, hdynamic', hname'⟩ := hde.value hv hy
    exact ⟨z, hz, hdynamic'.trans hdynamic, hname'.trans hname⟩

/-- Instructions stay what they are. -/
theorem of_operation (hop : ∀ {i op}, c.operation i = .ok op → d.operation i = .ok op)
    (hlisted : c₀.own d.listed = c₀.own c.listed)
    (hblock : KeepsPhis c d)
    (hvalue : ∀ {v y}, c₀.HasValue v → c.value v = .ok y →
      ∃ z, d.value v = .ok z ∧ z.dynamic = y.dynamic ∧ z.localName = y.localName) :
    Carries c₀ c d := by
  have hstands : ∀ {u w}, Stands c₀ c u w → Stands c₀ d u w := fun h => h.congr fun _ => hop
  refine ⟨hstands, fun h => ⟨_, hop h, .refl fun v _ _ => hstands⟩, hlisted, fun hx => ?_, hvalue⟩
  obtain ⟨y, hy, hextends⟩ := hblock _ _ hx
  exact ⟨y, hy, hextends.mono fun u w huw _ => huw ▸ hstands⟩

theorem refl (c₀ c : Body) : Carries c₀ c c :=
  of_operation id rfl (.of_block id) fun _ hy => ⟨_, hy, rfl, rfl⟩

theorem updateValues {g : ValueId → Value → Value} (hg : ∀ v y, c₀.HasValue v →
    (g v y).dynamic = y.dynamic ∧ (g v y).localName = y.localName) :
    Carries c₀ c (c.updateValues g) :=
  of_operation id rfl (.of_block id) fun hv hy => ⟨_, value_updateValues.2 ⟨_, hy, rfl⟩, hg _ _ hv⟩

theorem createValue (type : StaticType) : Carries c₀ c (c.createValue type).2 :=
  of_operation id rfl (.of_block id) fun _ hy => ⟨_, value_createValue.2 (.inl hy), rfl, rfl⟩

theorem withVersion (version : Nat) : Carries c₀ c { c with version } :=
  of_operation id rfl (.of_block id) fun _ hy => ⟨_, hy, rfl, rfl⟩

theorem inserted (hx : c.block b = .ok x) (hk : ¬ c₀.HasInstruction ⟨c.instructions.length⟩) :
    Carries c₀ c (c.inserted b index op) :=
  of_operation (fun hop => operation_inserted.2 (.inl hop)) (own_listed_inserted hx hk) .inserted
    fun _ hy => ⟨_, value_inserted.2 ⟨_, hy, rfl⟩, rfl, rfl⟩

theorem cut (hc : c.Arranged) (hx : c.block b = .ok x) : Carries c₀ c (c.cut b index x) :=
  of_operation (fun hop => operation_cut.trans hop) (congrArg c₀.own (listed_cut hc hx)) .cut
    fun _ hy => ⟨_, hy, rfl, rfl⟩

theorem movesEdges {g : BlockId → Block → Block} (hg : MovesEdges g) :
    Carries c₀ c (c.updateBlocks g) :=
  of_operation id (congrArg c₀.own (List.flatMap_congr fun _ _ => row_movesEdges hg))
    (.movesEdges hg) fun _ hy => ⟨_, hy, rfl, rfl⟩

/-- A call may be given another target. -/
theorem retargeted {call : Call} {method : MethodRef} (hop : c.operation i = .ok (.call call)) :
    Carries c₀ c (c.retargeted i call method) := by
  have hstands : ∀ {u w}, Stands c₀ c u w → Stands c₀ (c.retargeted i call method) u w :=
    fun h => h.retargeted hop
  refine ⟨hstands, fun {j op} hj => ⟨_, operation_replaced.2 ⟨op, hj, rfl⟩, ?_⟩, rfl,
    fun hx => ⟨_, hx, .of_phis_eq (fun _ _ => hstands) rfl⟩,
    fun _ hy => ⟨_, value_replaced.2 ⟨_, hy, rfl⟩, rfl, rfl⟩⟩
  split
  · rename_i hji
    subst hji
    obtain rfl := Except.ok.inj (hop.symm.trans hj)
    refine ⟨fun v => v, some (.virtual, method), ?_, fun v _ _ => hstands⟩
    simp [Operation.mapOperands, Operation.withTarget]
  · exact .refl fun v _ _ => hstands

/-- An instruction may read what stands for the same. -/
theorem redirected (hstands : ∀ {u w}, Stands c₀ c u w → Stands c₀ (c.redirected i old new) u w)
    (hnew : Succeeds c₀ c (c.redirected i old new) new old) :
    Carries c₀ c (c.redirected i old new) := by
  refine ⟨hstands, fun {j op} hj => ⟨_, operation_redirected.2 ⟨op, hj, rfl⟩, ?_⟩, rfl,
    fun hx => ⟨_, hx, .of_phis_eq (fun _ _ => hstands) rfl⟩,
    fun _ hy => ⟨_, value_redirected.2 ⟨_, hy, rfl⟩, rfl, rfl⟩⟩
  split
  · refine ⟨fun v => if v = old then new else v, none, Operation.withTarget_none.symm,
      fun v _ => ?_⟩
    dsimp only
    split
    · rename_i hv
      exact hv ▸ hnew
    · exact fun _ => hstands
  · exact .refl fun v _ _ => hstands

/-- So may a phi. -/
theorem phiRedirected {phi : ValueId} {p : Phi} {edges : List Bool} (hx : c.block b = .ok x)
    (hp : x.phi? phi = some p) (hnew : ∀ w, Stands c₀ c old w → Stands c₀ c new w) :
    Carries c₀ c (c.phiRedirected b old new phi (redirectInputs old new p.operands edges)) := by
  have hstands : ∀ {u w}, Stands c₀ c u w → Stands c₀
      (c.phiRedirected b old new phi (redirectInputs old new p.operands edges)) u w :=
    fun {u w} h => @Stands.congr c₀ c _ u w (fun _ h => h) h
  refine ⟨hstands, fun hop => ⟨_, hop, .refl fun v _ _ => hstands⟩,
    congrArg c₀.own (List.flatMap_congr fun _ _ => row_phiRedirected),
    fun hy => ⟨_, block_phiRedirected.2 ⟨_, hy, rfl⟩, ?_⟩,
    fun _ hy => ⟨_, value_phiRedirected.2 ⟨_, hy, rfl⟩, rfl, rfl⟩⟩
  split
  · rename_i hs
    subst hs
    obtain rfl := Except.ok.inj (hx.symm.trans hy)
    exact .modifyPhi (fun _ _ => hstands) hp
      (.redirectInputs (fun _ _ => hstands) fun w hw => hstands (hnew w hw))
  · exact .of_phis_eq (fun _ _ => hstands) rfl

end Carries

/-! ### Accounting for everything that is new -/

/-- Every kept cast has come from the same old value as what it is kept for. -/
def KeepsCasts (c₀ c : Body) (casts : List ((ValueId × TypeName) × ValueId)) : Prop :=
  ∀ a ∈ casts, ∃ w, Stands c₀ c a.1.1 w ∧ Stands c₀ c a.2 w

theorem KeepsCasts.carries {casts : List ((ValueId × TypeName) × ValueId)}
    (hcasts : KeepsCasts c₀ c casts) (hcd : Carries c₀ c d) : KeepsCasts c₀ d casts := by
  intro a ha
  obtain ⟨w, hold, hnew⟩ := hcasts a ha
  exact ⟨w, hcd.stands hold, hcd.stands hnew⟩

/-- The body is `c₀` with jumps and casts laid over it. Every new value has been made by one new
cast, and has come from an old value; only the bare ones are still to be made. -/
structure Overlaid (c₀ c : Body) (bare : List ValueId)
    (casts : List ((ValueId × TypeName) × ValueId)) : Prop where
  grounded : c.Grounded
  carries : Carries c₀ c₀ c
  created : ∀ {k op}, c.operation k = .ok op → ¬ c₀.HasInstruction k →
    (∃ t, op = .goto t) ∨ ∃ u r name, op = .cast u r name ∧ ¬ c₀.HasValue u
  once : ∀ {i j u}, ¬ c₀.HasValue u → c.Outputs i u → c.Outputs j u → i = j
  unmade : ∀ u ∈ bare, ¬ c₀.HasValue u ∧ ∀ i, ¬ c.Outputs i u
  stands : ∀ {u}, c.HasValue u → u ∉ bare → ∃ w, Stands c₀ c u w
  kept : KeepsCasts c₀ c casts

theorem Overlaid.start (hc : c.Grounded) : Overlaid c c [] [] where
  grounded := hc
  carries := .refl c c
  created hop hk := absurd (hasInstruction_of_operation hop) hk
  once hu hout _ := by
    obtain ⟨op, hop, hout⟩ := hout
    exact absurd (hc.hasValue hop _ (by simp [Operation.mentions, hout])) hu
  unmade := by simp
  stands hu _ := ⟨_, .old hu⟩
  kept := by simp [KeepsCasts]

namespace Overlaid

variable {casts : List ((ValueId × TypeName) × ValueId)} (ho : Overlaid c₀ c bare casts)

include ho

theorem castsAnew : CastsAnew c₀ c where
  fresh hk hop := by
    rcases ho.created hop hk with ⟨t, h⟩ | ⟨u, r, name, h, hu⟩
    · exact Operation.noConfusion h
    · obtain ⟨rfl, -, -⟩ := Operation.cast.inj h
      exact hu
  once := ho.once

theorem not_hasInstruction_next : ¬ c₀.HasInstruction ⟨c.instructions.length⟩ := by
  intro h
  obtain ⟨op₀, hop₀⟩ := h.exists_operation
  obtain ⟨op, hop, -⟩ := ho.carries.operation hop₀
  exact Nat.lt_irrefl _ (hasInstruction_of_operation hop)

theorem hasValue (hv : c₀.HasValue v) : c.HasValue v := by
  obtain ⟨y, hy⟩ := exists_value_iff.2 hv
  obtain ⟨z, hz, -⟩ := ho.carries.value hv hy
  exact hasValue_of_value hz

theorem hasInstruction_of_call {call : Call} (hop : c.operation i = .ok (.call call)) :
    c₀.HasInstruction i := by
  by_contra hi
  rcases ho.created hop hi with ⟨t, h⟩ | ⟨u, r, name, h, -⟩ <;> exact Operation.noConfusion h

/-- An edit that creates nothing. -/
theorem keep (hd : d.Grounded) (hcarries : Carries c₀ c d)
    (hback : ∀ {k op}, d.operation k = .ok op → ∃ op', c.operation k = .ok op')
    (hvalue : ∀ {v}, d.HasValue v → c.HasValue v) : Overlaid c₀ d bare casts := by
  have hout : ∀ {i u}, d.Outputs i u → c.Outputs i u := by
    rintro i u ⟨op, hop, hout⟩
    obtain ⟨op', hop'⟩ := hback hop
    obtain ⟨op'', hop'', hrender⟩ := hcarries.operation hop'
    obtain rfl := Except.ok.inj (hop.symm.trans hop'')
    exact ⟨op', hop', hrender.out?_eq ▸ hout⟩
  refine ⟨hd, ho.carries.trans hcarries, fun hop hk => ?_,
    fun hu hi hj => ho.once hu (hout hi) (hout hj),
    fun u hu => ⟨(ho.unmade u hu).1, fun i hi => (ho.unmade u hu).2 i (hout hi)⟩,
    fun hu hbare => (ho.stands (hvalue hu) hbare).imp fun _ => hcarries.stands,
    ho.kept.carries hcarries⟩
  obtain ⟨op', hop'⟩ := hback hop
  obtain ⟨op'', hop'', hrender⟩ := hcarries.operation hop'
  obtain rfl := Except.ok.inj (hop.symm.trans hop'')
  rcases ho.created hop' hk with ⟨t, rfl⟩ | ⟨u, r, name, rfl, hu⟩
  · exact .inl ⟨t, hrender.of_goto⟩
  · obtain ⟨r', rfl, -⟩ := hrender.of_cast
    exact .inr ⟨u, r', name, rfl, hu⟩

theorem updateValues {g : ValueId → Value → Value} (hg : ∀ v y, c₀.HasValue v →
    (g v y).dynamic = y.dynamic ∧ (g v y).localName = y.localName) :
    Overlaid c₀ (c.updateValues g) bare casts :=
  ho.keep (ho.grounded.updateValues g) (.updateValues hg) (fun hop => ⟨_, hop⟩)
    hasValue_updateValues.1

theorem retargeted {call : Call} {method : MethodRef} (hop : c.operation i = .ok (.call call)) :
    Overlaid c₀ (c.retargeted i call method) bare casts := by
  refine ho.keep (ho.grounded.replaced fun v hv => ho.grounded.hasValue hop v hv) (.retargeted hop)
    (fun hop' => ?_) hasValue_replaced.1
  exact (operation_replaced.1 hop').imp fun _ h => h.1

/-- The call reads a cast that has come from the same value. -/
theorem redirectOperand_call {changed : Bool} {call : Call} (hop : c.operation i = .ok (.call call))
    (hnew : ∀ w, Stands c₀ c old w → Stands c₀ c new w)
    (hd : c.redirectOperand i old new = .ok (changed, d)) : Overlaid c₀ d bare casts := by
  have hi := ho.hasInstruction_of_call hop
  have hgrounded := ho.grounded.redirectOperand hd
  obtain ⟨op, -, hd⟩ := redirectOperand_eq_ok.1 hd
  split at hd
  · obtain ⟨-, -, -, rfl⟩ := hd
    refine ho.keep hgrounded (.redirected (fun h => h.redirected_old hi) fun w hw =>
      (hnew w hw).redirected_old hi) (fun hop' => ?_) hasValue_redirected.1
    exact (operation_redirected.1 hop').imp fun _ h => h.1
  · rw [hd.2]
    exact ho

/-- An instruction other than the cast itself reads the cast. -/
theorem redirectOperand_cast {changed : Bool} (hk : ¬ c₀.HasInstruction k)
    (hcast : c.operation k = .ok (.cast new old name)) (hik : i ≠ k)
    (hd : c.redirectOperand i old new = .ok (changed, d)) :
    Overlaid c₀ d bare casts ∧ d.operation k = .ok (.cast new old name) := by
  have hgrounded := ho.grounded.redirectOperand hd
  obtain ⟨op, -, hd⟩ := redirectOperand_eq_ok.1 hd
  split at hd
  · obtain ⟨-, -, -, rfl⟩ := hd
    have hcast' : (c.redirected i old new).operation k = .ok (.cast new old name) :=
      operation_redirected.2 ⟨_, hcast, if_neg hik.symm⟩
    refine ⟨ho.keep hgrounded (.redirected (fun h => h.redirected_cast hk hcast hik) fun w hw =>
      .cast hk hcast' (hw.redirected_cast hk hcast hik)) (fun hop' => ?_) hasValue_redirected.1,
      hcast'⟩
    exact (operation_redirected.1 hop').imp fun _ h => h.1
  · rw [hd.2]
    exact ⟨ho, hcast⟩

theorem redirectPhi {tree : DominatorTree} {phi : ValueId} {changed : Bool}
    (hk : ¬ c₀.HasInstruction k) (hcast : c.operation k = .ok (.cast new old name))
    (hd : c.redirectPhi tree old new phi = .ok (changed, d)) :
    Overlaid c₀ d bare casts ∧ d.operation k = .ok (.cast new old name) := by
  have hgrounded := ho.grounded.redirectPhi hd
  rcases redirectPhi_eq_ok hd with ⟨-, rfl⟩ | ⟨b, x, p, edges, -, hx, hp, -, -, -, -, rfl⟩
  · exact ⟨ho, hcast⟩
  · exact ⟨ho.keep hgrounded (.phiRedirected hx hp fun w hw => .cast hk hcast hw)
      (fun hop => ⟨_, hop⟩) hasValue_phiRedirected.1, hcast⟩

theorem redirectUses {tree : DominatorTree} {excluded : List InstrId} {replaced : Redirected}
    (hk : ¬ c₀.HasInstruction k) (hcast : c.operation k = .ok (.cast new old name))
    (hd : c.redirectUses tree old new k excluded = .ok (replaced, d)) :
    Overlaid c₀ d bare casts :=
  (redirectUses_invariant
    (fun e => Overlaid c₀ e bare casts ∧ e.operation k = .ok (.cast new old name)) hd ⟨ho, hcast⟩
    (fun _ _ _ _ hik he hstep => he.1.redirectOperand_cast hk he.2 hik hstep)
    fun _ _ _ _ he hstep => he.1.redirectPhi hk he.2 hstep).1

theorem goto (hx : c.block b = .ok x) (hindex : index ≤ x.instructions.length) :
    Overlaid c₀ (c.inserted b index (.goto t)) bare casts := by
  have hcarries : Carries c₀ c (c.inserted b index (.goto t)) :=
    .inserted hx ho.not_hasInstruction_next
  have hout : ∀ {i u}, (c.inserted b index (.goto t)).Outputs i u → c.Outputs i u := fun h =>
    (outputs_inserted.1 h).resolve_right fun h => by simp [Operation.out?] at h
  refine ⟨ho.grounded.inserted hx hindex ?_, ho.carries.trans hcarries, fun hop hk => ?_,
    fun hu hi hj => ho.once hu (hout hi) (hout hj),
    fun u hu => ⟨(ho.unmade u hu).1, fun i hi => (ho.unmade u hu).2 i (hout hi)⟩,
    fun hu hbare => (ho.stands (hasValue_inserted.1 hu) hbare).imp fun _ => hcarries.stands,
    ho.kept.carries hcarries⟩
  · simp [Operation.mentions, Operation.out?, Operation.operands]
  · rcases operation_inserted.1 hop with hop | ⟨-, rfl⟩
    · exact ho.created hop hk
    · exact .inl ⟨t, rfl⟩

theorem split (hd : c.split b index = .ok (t, d)) : Overlaid c₀ d bare casts := by
  obtain ⟨x, g, version, hx, hindex, rfl, hg, rfl⟩ := split_cases ho.grounded.toArranged hd
  have hcut : Overlaid c₀ (c.cut b index x) bare casts :=
    ho.keep (ho.grounded.cut hx) (.cut ho.grounded.toArranged hx)
      (fun hop => ⟨_, operation_cut.symm.trans hop⟩) id
  have hmoved : Overlaid c₀ ((c.cut b index x).updateBlocks g) bare casts :=
    hcut.keep (hcut.grounded.movesEdges hg) (.movesEdges hg) (fun hop => ⟨_, hop⟩) id
  have hgoto := hmoved.goto (t := ⟨c.blocks.length⟩)
    (block_updateBlocks.2 ⟨_, block_cut.2 (.inl ⟨x, hx, if_pos rfl⟩), rfl⟩)
    (show index ≤ _ by rw [(hg b _).1]; exact Nat.le_of_eq (List.length_take_of_le hindex).symm)
  exact hgoto.keep (hgoto.grounded.withVersion version) (.withVersion version)
    (fun hop => ⟨_, hop⟩) id

end Overlaid

/-- A value that nobody knows is still to be made. -/
theorem Overlaid.createValue {casts : List ((ValueId × TypeName) × ValueId)}
    (ho : Overlaid c₀ c [] casts) (type : StaticType) :
    Overlaid c₀ (c.createValue type).2 [(c.createValue type).1] casts := by
  have hcarries : Carries c₀ c (c.createValue type).2 := .createValue type
  refine ⟨ho.grounded.createValue type, ho.carries.trans hcarries, ho.created, ho.once,
    fun u hu => ?_, fun hu hbare => ?_,
    ho.kept.carries hcarries⟩
  · rw [List.mem_singleton.1 hu]
    refine ⟨fun h => not_hasValue_next (ho.hasValue h), fun i hi => ?_⟩
    obtain ⟨op, hop, hout⟩ := hi
    exact not_hasValue_next
      (ho.grounded.hasValue hop (c.createValue type).1 (by simp [Operation.mentions, hout]))
  · have hold := (hasValue_createValue.1 hu).resolve_right fun h => hbare (List.mem_singleton.2 h)
    exact (ho.stands hold (by simp)).imp fun _ => hcarries.stands

/-- The cast that makes the value. -/
theorem Overlaid.cast {casts : List ((ValueId × TypeName) × ValueId)} {r : ValueId}
    (ho : Overlaid c₀ c [u] casts) (hx : c.block b = .ok x) (hindex : index ≤ x.instructions.length)
    (hu : c.HasValue u) (hr : c.HasValue r) (hru : r ≠ u) :
    Overlaid c₀ (c.inserted b index (.cast u r name)) [] casts := by
  have hcarries : Carries c₀ c (c.inserted b index (.cast u r name)) :=
    .inserted hx ho.not_hasInstruction_next
  obtain ⟨hnew, hbare⟩ := ho.unmade u List.mem_cons_self
  refine ⟨ho.grounded.inserted hx hindex ?_, ho.carries.trans hcarries, fun hop hk => ?_,
    fun {i j v} hv hi hj => ?_, by simp, fun {v} hv _ => ?_,
    ho.kept.carries hcarries⟩
  · simp [Operation.mentions, Operation.out?, Operation.operands, hu, hr]
  · rcases operation_inserted.1 hop with hop | ⟨-, rfl⟩
    · exact ho.created hop hk
    · exact .inr ⟨u, r, name, rfl, hnew⟩
  · rcases outputs_inserted.1 hi with hi | ⟨rfl, hout⟩
    · rcases outputs_inserted.1 hj with hj | ⟨rfl, hout⟩
      · exact ho.once hv hi hj
      · obtain rfl := Option.some.inj hout
        exact absurd hi (hbare i)
    · obtain rfl := Option.some.inj hout
      rcases outputs_inserted.1 hj with hj | ⟨rfl, -⟩
      · exact absurd hj (hbare j)
      · rfl
  · by_cases hvu : v = u
    · obtain ⟨w, hw⟩ := ho.stands hr (by simpa using hru)
      rw [hvu]
      exact ⟨w, .cast ho.not_hasInstruction_next (operation_inserted.2 (.inr ⟨rfl, rfl⟩))
        (hcarries.stands hw)⟩
    · exact (ho.stands (hasValue_inserted.1 hv) (by simpa using hvu)).imp fun _ => hcarries.stands

/-- The cast is kept for what it casts. -/
theorem Overlaid.keepCast {casts : List ((ValueId × TypeName) × ValueId)} {r : ValueId}
    (ho : Overlaid c₀ c [] casts) (hk : ¬ c₀.HasInstruction k)
    (hcast : c.operation k = .ok (.cast u r name)) :
    Overlaid c₀ c [] (((r, name), u) :: casts) := by
  have hr : c.HasValue r :=
    ho.grounded.hasValue hcast r (by simp [Operation.mentions, Operation.operands])
  refine { ho with kept := List.forall_mem_cons.2 ⟨?_, ho.kept⟩ }
  obtain ⟨w, hw⟩ := ho.stands hr (by simp)
  exact ⟨w, hw, .cast hk hcast hw⟩

end Body

end Devirt
