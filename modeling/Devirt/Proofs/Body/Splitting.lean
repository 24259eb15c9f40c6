import Devirt.Proofs.Body.Placement
import Devirt.Proofs.Body.Split

/-!
When a block may be split. The tail of a split block no longer dominates what its handlers lead to,
and a handler that is also a jump target loses the edge from the head. A split is safe if neither
matters, and then it keeps the body consistent.
-/

namespace Devirt

open Relation

namespace Body

/-- A handler of `b` leads to the block on a path that does not come back to `b`. -/
def HandlerReaches (c : Body) (b s : BlockId) : Prop :=
  ∃ h, c.Handles b h ∧ Avoids c.Edge h b s

/-- The block defines the value after an instruction that can throw. -/
def DefinedAfterThrow (c : Body) (b : BlockId) (v : ValueId) : Prop :=
  ∃ (x : Block) (m n : Nat) (i j : InstrId) (op : Operation), c.block b = .ok x ∧
    x.instructions[m]? = some i ∧ x.instructions[n]? = some j ∧ m < n ∧
    c.operation i = .ok op ∧ op.canThrow = true ∧ c.Outputs j v

/-- The handlers of the block are no jump targets of it, and where they lead nothing reads what the
block defines after its throwing instruction. -/
structure SplitSafe (c : Body) (b : BlockId) : Prop where
  apart : ∀ s, c.Handles b s → ¬ c.Jumps b s
  unread : c.Reachable b → ∀ v, c.DefinedAfterThrow b v → ∀ i s, c.Reads i v →
    c.blockOf i = .ok s → ¬ c.HandlerReaches b s
  unread_phi : c.Reachable b → ∀ v, c.DefinedAfterThrow b v → ∀ s x phi p, c.block s = .ok x →
    phi ∈ x.phis → (v, p) ∈ phi.operands.zip x.predecessors →
      ¬ c.HandlerReaches b p ∧ (p = b → ¬ c.Handles b s)

variable {c : Body} {a b p s : BlockId} {i j : InstrId} {v : ValueId} {op : Operation}
  {index m n : Nat} {x : Block} {jumps : List BlockId}

/-- The block of the body before the split that a block comes from. -/
def unsplit (c : Body) (b s : BlockId) : BlockId := if s = ⟨c.blocks.length⟩ then b else s

theorem unsplit_next : c.unsplit b ⟨c.blocks.length⟩ = b := if_pos rfl

theorem HasBlock.unsplit (hs : c.HasBlock s) : c.unsplit b s = s := if_neg hs.ne_next

theorem isDefined_splitted : (c.splitted b index x jumps).IsDefined v ↔ c.IsDefined v := by
  constructor
  · rintro (⟨i, hi⟩ | ⟨s, phi, hphi, hout⟩)
    · exact .inl ⟨i, outputs_splitted.1 hi⟩
    · obtain ⟨q, hq, hqout, -⟩ := hasPhi_of_splitted hphi
      exact .inr ⟨s, q, hq, hqout.symm.trans hout⟩
  · rintro (⟨i, hi⟩ | ⟨s, phi, hphi, hout⟩)
    · exact .inl ⟨i, outputs_splitted.2 hi⟩
    · obtain ⟨q, hq, hqout, -⟩ := exists_hasPhi_splitted hphi
      exact .inr ⟨s, q, hq, hqout.trans hout⟩

section Splitted

variable (hI : c.Intact) (hx : c.block b = .ok x) (hindex : index < x.instructions.length)
  (hjumps : c.normalSuccessors b = .ok jumps)

/-! ### Control flow -/

include hx in
theorem jumps_splitted_head : (c.splitted b index x jumps).Jumps b s ↔ s = ⟨c.blocks.length⟩ := by
  have hblock := @block_splitted_head c b index x jumps hx
  have hgoto : (c.splitted b index x jumps).operation ⟨c.instructions.length⟩ =
      .ok (.goto ⟨c.blocks.length⟩) := operation_splitted.2 (.inr ⟨rfl, rfl⟩)
  constructor
  · rintro ⟨z, i, op, hz, hlast, hop, hs⟩
    obtain rfl := Except.ok.inj (hblock.symm.trans hz)
    obtain rfl : ⟨c.instructions.length⟩ = i := by simpa using hlast
    obtain rfl := Except.ok.inj (hgoto.symm.trans hop)
    simpa [Operation.targets] using hs
  · rintro rfl
    exact ⟨_, ⟨c.instructions.length⟩, _, hblock, by simp, hgoto, by simp [Operation.targets]⟩

include hI hx hindex in
theorem jumps_splitted_tail :
    (c.splitted b index x jumps).Jumps ⟨c.blocks.length⟩ s ↔ c.Jumps b s := by
  have hlast : (splitTail b index x).instructions.getLast? = x.instructions.getLast? := by
    rw [splitTail, List.getLast?_drop, if_neg (by omega)]
  constructor
  · rintro ⟨z, i, op, hz, hl, hop, hs⟩
    obtain rfl := Except.ok.inj (block_splitted_tail.symm.trans hz)
    rw [hlast] at hl
    rcases operation_splitted.1 hop with hop | ⟨rfl, -⟩
    · exact ⟨x, i, op, hx, hl, hop, hs⟩
    · exact absurd (hI.placed hx _ (List.mem_of_getLast? hl)) blockOf_next_ne_ok
  · rintro ⟨y, i, op, hy, hl, hop, hs⟩
    obtain rfl : x = y := Except.ok.inj (hx.symm.trans hy)
    exact ⟨_, i, op, block_splitted_tail, hlast.trans hl, operation_splitted.2 (.inl hop), hs⟩

include hI in
theorem jumps_splitted_other (hp : c.HasBlock p) (hne : p ≠ b) :
    (c.splitted b index x jumps).Jumps p s ↔ c.Jumps p s := by
  obtain ⟨y, hy⟩ := exists_block_iff.2 hp
  have hblock := @block_splitted_other c b p index x jumps y hy hne
  constructor
  · rintro ⟨z, i, op, hz, hl, hop, hs⟩
    obtain rfl := Except.ok.inj (hblock.symm.trans hz)
    rw [instructions_relinked] at hl
    rcases operation_splitted.1 hop with hop | ⟨rfl, -⟩
    · exact ⟨y, i, op, hy, hl, hop, hs⟩
    · exact absurd (hI.placed hy _ (List.mem_of_getLast? hl)) blockOf_next_ne_ok
  · rintro ⟨y', i, op, hy', hl, hop, hs⟩
    obtain rfl : y = y' := Except.ok.inj (hy.symm.trans hy')
    exact ⟨_, i, op, hblock, by rwa [instructions_relinked], operation_splitted.2 (.inl hop), hs⟩

include hx in
theorem handles_splitted :
    (c.splitted b index x jumps).Handles p s ↔ c.Handles (c.unsplit b p) s := by
  constructor
  · rintro ⟨z, hz, hmem⟩
    rcases block_splitted.1 hz with ⟨y, hy, rfl⟩ | ⟨rfl, rfl⟩
    · rw [(hasBlock_of_block hy).unsplit]
      refine ⟨y, hy, ?_⟩
      split at hmem <;> simpa using hmem
    · rw [unsplit_next]
      exact ⟨x, hx, hmem⟩
  · rintro ⟨y, hy, hmem⟩
    by_cases hp : p = ⟨c.blocks.length⟩
    · subst hp
      rw [unsplit_next] at hy
      obtain rfl : x = y := Except.ok.inj (hx.symm.trans hy)
      exact ⟨_, block_splitted_tail, hmem⟩
    · rw [unsplit, if_neg hp] at hy
      refine ⟨_, block_splitted_old hy, ?_⟩
      split <;> simpa using hmem

include hI hx hindex in
/-- The edges after a split: the head jumps to the tail, and the tail takes over the jumps. -/
theorem edge_splitted :
    (c.splitted b index x jumps).Edge p s ↔
      (p = b ∧ s = ⟨c.blocks.length⟩) ∨ (p ≠ b ∧ c.Jumps (c.unsplit b p) s) ∨
        c.Handles (c.unsplit b p) s := by
  rw [Edge, handles_splitted hx, ← or_assoc]
  refine or_congr ?_ Iff.rfl
  have hb := hasBlock_of_block hx
  by_cases hp : p = ⟨c.blocks.length⟩
  · subst hp
    rw [jumps_splitted_tail hI hx hindex, unsplit_next]
    simp [hb.ne_next.symm]
  · by_cases hpb : p = b
    · subst hpb
      simp [jumps_splitted_head hx]
    · rw [unsplit, if_neg hp]
      simp only [hpb, false_and, false_or, ne_eq, not_false_eq_true, true_and]
      constructor
      · intro hj
        obtain ⟨z, -, -, hz, -⟩ := id hj
        rcases hasBlock_splitted.1 (hasBlock_of_block hz) with hp' | hp'
        · exact (jumps_splitted_other hI hp' hpb).1 hj
        · exact absurd hp' hp
      · intro hj
        obtain ⟨y, -, -, hy, -⟩ := id hj
        exact (jumps_splitted_other hI (hasBlock_of_block hy) hpb).2 hj

include hI hx hindex in
/-- An edge after the split is one before it, apart from the jump from the head to the tail. -/
theorem edge_unsplit (hclosed : c.Closed) (h : (c.splitted b index x jumps).Edge p s) :
    (p = b ∧ s = ⟨c.blocks.length⟩) ∨
      (c.HasBlock s ∧ c.Edge (c.unsplit b p) s) := by
  rcases (edge_splitted hI hx hindex).1 h with h | ⟨-, h⟩ | h
  · exact .inl h
  · exact .inr ⟨hclosed _ _ (.inl h), .inl h⟩
  · exact .inr ⟨hclosed _ _ (.inr h), .inr h⟩

include hI hx hindex in
/-- Paths after the split are paths before it. -/
theorem avoids_unsplit (hclosed : c.Closed)
    (h : Avoids (c.splitted b index x jumps).Edge c.entry a s) :
    Avoids c.Edge c.entry a (c.unsplit b s) := by
  obtain ⟨hne, hpath⟩ := h
  induction hpath with
  | refl =>
    rw [hI.entry.unsplit]
    exact ⟨hne, .refl⟩
  | @tail p s hp hstep ih =>
    rcases edge_unsplit hI hx hindex hclosed hstep.1 with ⟨rfl, rfl⟩ | ⟨hs, hedge⟩
    · rw [unsplit_next]
      rwa [(hasBlock_of_block hx).unsplit] at ih
    · rw [hs.unsplit]
      exact ih.tail hedge hstep.2

include hI hx hindex in
theorem reachable_unsplit (hclosed : c.Closed) (h : (c.splitted b index x jumps).Reachable s) :
    c.Reachable (c.unsplit b s) := by
  induction h with
  | refl =>
    rw [show (c.splitted b index x jumps).entry = c.entry from rfl, hI.entry.unsplit]
    exact .refl
  | @tail p s _ hstep ih =>
    rcases edge_unsplit hI hx hindex hclosed hstep with ⟨rfl, rfl⟩ | ⟨hs, hedge⟩
    · rw [unsplit_next]
      rwa [(hasBlock_of_block hx).unsplit] at ih
    · rw [hs.unsplit]
      exact ih.tail hedge

include hI hx hindex in
/-- What dominated a block still does. -/
theorem dominates_splitted (hclosed : c.Closed) (h : c.Dominates a (c.unsplit b s)) :
    (c.splitted b index x jumps).Dominates a s :=
  fun hav => h (avoids_unsplit hI hx hindex hclosed hav)

include hI hx hindex in
/-- Where the tail is not passed, a handler has led there from the head. -/
theorem handlerReaches_of_avoids (hclosed : c.Closed) (hs : s ≠ b) (hdom : c.Dominates b s)
    (h : Avoids (c.splitted b index x jumps).Edge c.entry ⟨c.blocks.length⟩ s) :
    c.HandlerReaches b s := by
  -- what is reached without the tail is reached by old edges, of which the head has its handlers
  have hall : ∀ {r}, ReflTransGen (fun p q => (c.splitted b index x jumps).Edge p q ∧
      q ≠ ⟨c.blocks.length⟩) c.entry r →
      r = b ∨ Avoids c.Edge c.entry b r ∨ c.HandlerReaches b r := by
    intro r hr
    induction hr with
    | refl =>
      by_cases he : c.entry = b
      · exact .inl he
      · exact .inr (.inl ⟨he, .refl⟩)
    | @tail p r hp hstep ih =>
      by_cases hrb : r = b
      · exact .inl hrb
      rcases edge_unsplit hI hx hindex hclosed hstep.1 with ⟨-, rfl⟩ | ⟨-, hedge⟩
      · exact absurd rfl hstep.2
      have hpnext : p ≠ ⟨c.blocks.length⟩ := by
        rcases hp.cases_tail with rfl | ⟨_, _, hq⟩
        · exact hI.entry.ne_next
        · exact hq.2
      rw [unsplit, if_neg hpnext] at hedge
      rcases ih with rfl | ih | ⟨h, hh, hav⟩
      · rcases (edge_splitted hI hx hindex).1 hstep.1 with ⟨-, rfl⟩ | ⟨hne, -⟩ | hh
        · exact absurd rfl hstep.2
        · exact absurd rfl hne
        · rw [(hasBlock_of_block hx).unsplit] at hh
          exact .inr (.inr ⟨r, hh, hrb, .refl⟩)
      · exact .inr (.inl (ih.tail hedge hrb))
      · exact .inr (.inr ⟨h, hh, hav.tail hedge hrb⟩)
  rcases hall h.2 with rfl | h | h
  · exact absurd rfl hs
  · exact absurd h hdom
  · exact h

include hI hx in
/-- What stands in another block stays there. -/
theorem blockOf_splitted_other (hof : c.blockOf i = .ok s) (hs : s ≠ b) :
    (c.splitted b index x jumps).blockOf i = .ok s := by
  refine blockOf_splitted.2 (.inl ⟨s, hof, if_neg fun hi => hs ?_⟩)
  exact Except.ok.inj (hof.symm.trans (hI.placed hx i (List.mem_of_mem_drop hi)))

/-! ### Phis -/

/-- How the edges into a block and what its phis read there come about. Renamed edges stay in their
places, shared ones are appended. -/
theorem edge_relinked {y : Block} {new : BlockId} {handlers : List Handler} (hnew : new ≠ b)
    (harity : ∀ phi ∈ y.phis, phi.operands.length = y.predecessors.length) {e : Nat} {q : BlockId}
    (hq : (relinked b new jumps handlers s y).predecessors[e]? = some q) :
    ∃ e₀ p, y.predecessors[e₀]? = some p ∧ (e < y.predecessors.length → e₀ = e) ∧
      ((q = p ∧ e < y.predecessors.length ∧ ¬ (p = b ∧ s ∈ jumps)) ∨
        (q = new ∧ p = b ∧ (s ∈ jumps ∨ ∃ h ∈ handlers, h.target = s))) ∧
      ∀ (k : Nat) (phi' : Phi), (relinked b new jumps handlers s y).phis[k]? = some phi' →
        ∃ phi, y.phis[k]? = some phi ∧ phi'.out = phi.out ∧
          phi'.operands[e]? = phi.operands[e₀]? := by
  by_cases hs : s ∈ jumps
  · rw [relinked_of_mem hnew hs] at hq ⊢
    simp only [List.getElem?_map, Option.map_eq_some_iff] at hq
    obtain ⟨p, hp, rfl⟩ := hq
    refine ⟨e, p, hp, fun _ => rfl, ?_, fun k phi' hk => ⟨phi', hk, rfl, rfl⟩⟩
    by_cases hpb : p = b
    · exact .inr ⟨if_pos hpb, hpb, .inl hs⟩
    · exact .inl ⟨if_neg hpb, (List.getElem?_eq_some_iff.1 hp).1, fun h => hpb h.1⟩
  · rw [relinked_of_notMem hs] at hq ⊢
    cases hidx : y.predecessors.idxOf? b with
    | none =>
      rw [iterate_shareEdge_of_notMem (List.idxOf?_eq_none_iff.1 hidx)] at hq ⊢
      exact ⟨e, q, hq, fun _ => rfl,
        .inl ⟨rfl, (List.getElem?_eq_some_iff.1 hq).1, fun h => hs h.2⟩,
        fun k phi' hk => ⟨phi', hk, rfl, rfl⟩⟩
    | some edge =>
      obtain ⟨hedge, hb, -⟩ := List.idxOf?_eq_some_iff.1 hidx
      rw [iterate_shareEdge_of_idxOf? hidx] at hq ⊢
      simp only [List.getElem?_map, Option.map_eq_some_iff, List.getElem?_append] at hq ⊢
      by_cases he : e < y.predecessors.length
      · rw [if_pos he] at hq
        refine ⟨e, q, hq, fun _ => rfl, .inl ⟨rfl, he, fun h => hs h.2⟩, ?_⟩
        rintro k _ ⟨phi, hphi, rfl⟩
        refine ⟨phi, hphi, rfl, ?_⟩
        rw [List.getElem?_append_left]
        rwa [harity phi (List.mem_of_getElem? hphi)]
      · rw [if_neg he, List.getElem?_replicate] at hq
        split at hq
        · rename_i hcount
          obtain rfl := Option.some.inj hq
          have hhandler : ∃ h ∈ handlers, h.target = s := by
            have : 0 < (handlers.map (·.target)).count s := by omega
            simpa using List.count_pos_iff.1 this
          refine ⟨edge, b, List.getElem?_eq_some_iff.2 ⟨hedge, hb⟩, fun h => absurd h he,
            .inr ⟨rfl, rfl, .inr hhandler⟩, ?_⟩
          rintro k _ ⟨phi, hphi, rfl⟩
          have hlen := harity phi (List.mem_of_getElem? hphi)
          refine ⟨phi, hphi, rfl, ?_⟩
          have hget : phi.operands[edge]? = some (phi.operands.get ⟨edge, by omega⟩) :=
            List.getElem?_eq_getElem _
          rw [List.getElem?_append_right (by omega), hget]
          simp only [Option.toList_some, List.flatten_replicate_singleton,
            List.getElem?_replicate]
          rw [if_pos (by omega)]
        · simp at hq

/-- The old edges into a block after the split. -/
theorem getElem?_predecessors_relinked {y : Block} {new q : BlockId} {handlers : List Handler}
    (hnew : new ≠ b) {e : Nat} (hq : y.predecessors[e]? = some q) :
    (relinked b new jumps handlers s y).predecessors[e]? =
      some (if q = b ∧ s ∈ jumps then new else q) := by
  by_cases hs : s ∈ jumps
  · rw [relinked_of_mem hnew hs, List.getElem?_map, hq]
    simp [hs]
  · rw [relinked_of_notMem hs, if_neg fun h => hs h.2]
    cases hidx : y.predecessors.idxOf? b with
    | none => rwa [iterate_shareEdge_of_notMem (List.idxOf?_eq_none_iff.1 hidx)]
    | some edge =>
      rw [iterate_shareEdge_of_idxOf? hidx]
      exact (List.getElem?_append_left (List.getElem?_eq_some_iff.1 hq).1).trans hq

/-- The blocks that lead to a block after the split. -/
theorem mem_predecessors_relinked {y : Block} {new q : BlockId} {handlers : List Handler}
    (hnew : new ≠ b) :
    q ∈ (relinked b new jumps handlers s y).predecessors ↔
      (q ∈ y.predecessors ∧ ¬ (q = b ∧ s ∈ jumps)) ∨
        (q = new ∧ b ∈ y.predecessors ∧ (s ∈ jumps ∨ ∃ h ∈ handlers, h.target = s)) := by
  by_cases hs : s ∈ jumps
  · rw [relinked_of_mem hnew hs]
    simp only [List.mem_map, hs, and_true, true_or]
    constructor
    · rintro ⟨p, hp, rfl⟩
      by_cases hpb : p = b
      · exact .inr ⟨if_pos hpb, hpb ▸ hp⟩
      · rw [if_neg hpb]
        exact .inl ⟨hp, hpb⟩
    · rintro (⟨hq, hqb⟩ | ⟨rfl, hb⟩)
      · exact ⟨q, hq, if_neg hqb⟩
      · exact ⟨b, hb, if_pos rfl⟩
  · rw [relinked_of_notMem hs]
    simp only [hs, and_false, not_false_eq_true, and_true, false_or]
    cases hidx : y.predecessors.idxOf? b with
    | none =>
      have hb := List.idxOf?_eq_none_iff.1 hidx
      simp [iterate_shareEdge_of_notMem hb, hb]
    | some edge =>
      obtain ⟨hedge, hget, -⟩ := List.idxOf?_eq_some_iff.1 hidx
      have hb : b ∈ y.predecessors := hget ▸ List.getElem_mem hedge
      rw [iterate_shareEdge_of_idxOf? hidx]
      simp only [List.mem_append, List.mem_replicate, hb, true_and, ne_eq, List.count_eq_zero,
        List.mem_map, Decidable.not_not]
      refine or_congr Iff.rfl ?_
      rw [and_comm]

theorem length_operands_relinked {y : Block} {new : BlockId} {handlers : List Handler}
    (hnew : new ≠ b)
    (harity : ∀ phi ∈ y.phis, phi.operands.length = y.predecessors.length) :
    ∀ phi ∈ (relinked b new jumps handlers s y).phis,
      phi.operands.length = (relinked b new jumps handlers s y).predecessors.length := by
  by_cases hs : s ∈ jumps
  · rw [relinked_of_mem hnew hs]
    simpa using harity
  · rw [relinked_of_notMem hs]
    cases hidx : y.predecessors.idxOf? b with
    | none => rwa [iterate_shareEdge_of_notMem (List.idxOf?_eq_none_iff.1 hidx)]
    | some edge =>
      obtain ⟨hedge, -, -⟩ := List.idxOf?_eq_some_iff.1 hidx
      rw [iterate_shareEdge_of_idxOf? hidx]
      simp only [List.mem_map]
      rintro _ ⟨phi, hphi, rfl⟩
      have hlen := harity phi hphi
      have hget : phi.operands[edge]? = some (phi.operands.get ⟨edge, by omega⟩) :=
        List.getElem?_eq_getElem _
      simp [hget, hlen]

end Splitted

/-! ### Availability after a split at the throwing instruction of a guarded block -/

/-- The place where a guarded block is split: before its throwing instruction. -/
structure SplitPoint (c : Body) (b : BlockId) (index : Nat) (x : Block) (jumps : List BlockId) :
    Prop where
  block : c.block b = .ok x
  guarded : x.isGuarded = true
  throwing : ∃ i op, x.instructions[index]? = some i ∧ c.operation i = .ok op ∧
    op.canThrow = true
  jumps : c.normalSuccessors b = .ok jumps

namespace SplitPoint

variable (h : c.SplitPoint b index x jumps) (hI : c.Intact) (hc : c.Consistent)

include h

theorem index_lt : index < x.instructions.length := by
  obtain ⟨i, -, hi, -⟩ := h.throwing
  exact (List.getElem?_eq_some_iff.1 hi).1

include hI hc in
/-- No other instruction of the block can throw. -/
theorem eq_index {k : Nat} (hk : x.instructions[k]? = some i) (hop : c.operation i = .ok op)
    (hthrow : op.canThrow = true) : k = index := by
  obtain ⟨j, op', hj, hop', hthrow'⟩ := h.throwing
  obtain rfl : i = j := hc.throws h.block h.guarded i (List.mem_of_getElem? hk) j
    (List.mem_of_getElem? hj) op op' hop hop' hthrow hthrow'
  exact (List.getElem?_inj (List.getElem?_eq_some_iff.1 hk).1 (hI.nodup h.block)).1
    (hk.trans hj.symm)

include hI in
theorem mem_drop_iff {k : Nat} (hk : x.instructions[k]? = some i) :
    i ∈ x.instructions.drop index ↔ index ≤ k := by
  constructor
  · intro hi
    obtain ⟨m, hm⟩ := List.mem_iff_getElem?.1 hi
    rw [List.getElem?_drop] at hm
    have : k = index + m :=
      (List.getElem?_inj (List.getElem?_eq_some_iff.1 hk).1 (hI.nodup h.block)).1
        (hk.trans hm.symm)
    omega
  · intro hle
    refine List.mem_iff_getElem?.2 ⟨k - index, ?_⟩
    rw [List.getElem?_drop, ← hk]
    congr
    omega

include hI in
theorem blockOf_head {k : Nat} (hk : x.instructions[k]? = some i) (hlt : k < index) :
    (c.splitted b index x jumps).blockOf i = .ok b := by
  refine blockOf_splitted.2 (.inl ⟨b, hI.placed h.block i (List.mem_of_getElem? hk), ?_⟩)
  rw [if_neg]
  rw [h.mem_drop_iff hI hk]
  omega

include hI in
theorem blockOf_tail {k : Nat} (hk : x.instructions[k]? = some i) (hle : index ≤ k) :
    (c.splitted b index x jumps).blockOf i = .ok ⟨c.blocks.length⟩ :=
  blockOf_splitted.2 (.inl ⟨b, hI.placed h.block i (List.mem_of_getElem? hk),
    if_pos ((h.mem_drop_iff hI hk).2 hle)⟩)

include hI in
/-- A value is defined where it was, with the tail in the place of the block. -/
theorem blockOf_ne {s' : BlockId}
    (hnot : ∀ i, c.Outputs i v → c.blockOf i ≠ .ok (c.unsplit b s')) :
    ∀ i, (c.splitted b index x jumps).Outputs i v →
      (c.splitted b index x jumps).blockOf i ≠ .ok s' := by
  intro i hi hof
  rw [outputs_splitted] at hi
  rcases blockOf_splitted.1 hof with ⟨r, hr, heq⟩ | ⟨rfl, -⟩
  · refine hnot i hi ?_
    split at heq
    · rename_i hdrop
      rw [← heq, unsplit_next]
      exact hI.placed h.block i (List.mem_of_mem_drop hdrop)
    · subst heq
      obtain ⟨y, hy, -⟩ := hI.recorded hr
      rw [(hasBlock_of_block hy).unsplit]
      exact hr
  · obtain ⟨op, hop, -⟩ := hi
    exact operation_next_ne_ok hop

theorem normalSuccessors_tail :
    (c.splitted b index x jumps).normalSuccessors ⟨c.blocks.length⟩ = .ok jumps := by
  refine normalSuccessors_eq_ok.2 ⟨_, block_splitted_tail, ?_⟩
  obtain ⟨y, hy, hcases⟩ := normalSuccessors_eq_ok.1 h.jumps
  obtain rfl : x = y := Except.ok.inj (h.block.symm.trans hy)
  have hlt := h.index_lt
  rcases hcases with ⟨hnil, -⟩ | ⟨i, op, hlast, hop, rfl⟩
  · simp [hnil] at hlt
  · refine .inr ⟨i, op, ?_, operation_splitted.2 (.inl hop), rfl⟩
    rw [splitTail, List.getLast?_drop, if_neg (by omega), hlast]

omit h in
theorem normalSuccessors_other {r : BlockId} {l : List BlockId}
    (hl : c.normalSuccessors r = .ok l) (hne : r ≠ b) :
    (c.splitted b index x jumps).normalSuccessors r = .ok l := by
  obtain ⟨y, hy, hcases⟩ := normalSuccessors_eq_ok.1 hl
  refine normalSuccessors_eq_ok.2 ⟨_, block_splitted_old hy, ?_⟩
  rw [if_neg hne, instructions_relinked]
  rcases hcases with hnil | ⟨i, op, hlast, hop, rfl⟩
  · exact .inl hnil
  · exact .inr ⟨i, op, hlast, operation_splitted.2 (.inl hop), rfl⟩

omit h in
theorem predecessors_relinked_of_notMem {y : Block} {new : BlockId} {handlers : List Handler}
    (hb : b ∉ y.predecessors) :
    (relinked b new jumps handlers s y).predecessors = y.predecessors := by
  have hmap : (y.predecessors.map fun p => if p = b then new else p) = y.predecessors := by
    refine (List.map_congr_left fun p hp => ?_).trans (List.map_id _)
    exact if_neg fun hpb : p = b => hb (hpb ▸ hp)
  rw [relinked]
  split
  · rw [hmap]
    exact congrArg Block.predecessors (iterate_shareEdge_of_notMem hb)
  · rw [iterate_shareEdge_of_notMem hb]

omit h in
theorem resultFrom_other {r : BlockId} (hr : c.ResultFrom op r a) (hne : r ≠ b) :
    (c.splitted b index x jumps).ResultFrom op r a := by
  obtain ⟨y, hy, hcond⟩ := hr
  refine ⟨_, block_splitted_old hy, ?_⟩
  have hguard : (relinked b ⟨c.blocks.length⟩ jumps x.handlers r y).isGuarded = y.isGuarded := by
    rw [Block.isGuarded, handlers_relinked, Block.isGuarded]
  rw [if_neg hne, hguard]
  split
  · rename_i hif
    rw [if_pos hif] at hcond
    obtain ⟨hnext, z, hz, hpred⟩ := hcond
    refine ⟨normalSuccessors_other hnext hne, _, block_splitted_old hz, ?_⟩
    have hnotMem : b ∉ z.predecessors := by
      rw [hpred, List.mem_singleton]
      exact hne.symm
    split <;> exact (predecessors_relinked_of_notMem hnotMem).trans hpred
  · rename_i hif
    rwa [if_neg hif] at hcond

/-- What the throwing instruction defines is there from the same block on. -/
theorem resultFrom_tail (hr : c.ResultFrom op b a) (hthrow : op.canThrow = true) :
    (c.splitted b index x jumps).ResultFrom op ⟨c.blocks.length⟩ a := by
  obtain ⟨y, hy, hcond⟩ := hr
  obtain rfl : x = y := Except.ok.inj (h.block.symm.trans hy)
  refine ⟨_, block_splitted_tail, ?_⟩
  rw [if_pos ⟨hthrow, h.guarded⟩] at hcond
  obtain ⟨hnext, z, hz, hpred⟩ := hcond
  obtain rfl : jumps = [a] := Except.ok.inj (h.jumps.symm.trans hnext)
  rw [if_pos ⟨hthrow, show (splitTail b index x).isGuarded = true from h.guarded⟩]
  refine ⟨h.normalSuccessors_tail, _, block_splitted_old hz, ?_⟩
  have hne : (⟨c.blocks.length⟩ : BlockId) ≠ b := (hasBlock_of_block hy).ne_next.symm
  have hpred' := congrArg Block.predecessors
    (@relinked_of_mem b a ⟨c.blocks.length⟩ [a] x.handlers z hne (by simp))
  rw [hpred] at hpred'
  split <;> simpa using hpred'

include hI hc in
/-- Availability passes to the split body, unless a handler leads around the tail. -/
theorem availableFrom {s' : BlockId} (hreach : c.Reachable (c.unsplit b s'))
    (hsafe : c.Reachable b → c.DefinedAfterThrow b v → ¬ c.HandlerReaches b (c.unsplit b s'))
    (hnot : ∀ i, c.Outputs i v → c.blockOf i ≠ .ok (c.unsplit b s'))
    (ha : c.AvailableFrom v a) (hdom : c.Dominates a (c.unsplit b s')) :
    ∃ a', (c.splitted b index x jumps).AvailableFrom v a' ∧
      (c.splitted b index x jumps).Dominates a' s' := by
  have hkeep := @dominates_splitted c a b s' index x jumps hI h.block h.index_lt hc.closed hdom
  rcases id ha with ⟨phi, hphi, rfl⟩ | ⟨i, op, r, hop, hout, hr, hres⟩
  · obtain ⟨q, hq, hqout, -⟩ := @exists_hasPhi_splitted c b a index x jumps phi hphi
    exact ⟨a, .inl ⟨q, hq, hqout⟩, hkeep⟩
  · have hop' : (c.splitted b index x jumps).operation i = .ok op :=
      operation_splitted.2 (.inl hop)
    by_cases hrb : r = b
    · subst hrb
      obtain ⟨y, hy, hmem⟩ := hI.recorded hr
      obtain rfl : x = y := Except.ok.inj (h.block.symm.trans hy)
      obtain ⟨k, hk⟩ := List.mem_iff_getElem?.1 hmem
      have hne : c.unsplit r s' ≠ r := fun heq =>
        hnot i ⟨op, hop, hout⟩ (hr.trans (congrArg Except.ok heq.symm))
      have hnext : s' ≠ ⟨c.blocks.length⟩ := by
        rintro rfl
        exact hne unsplit_next
      rw [unsplit, if_neg hnext] at hne hdom hreach hsafe
      by_cases hthrow : op.canThrow = true
      · obtain rfl := h.eq_index hI hc hk hop hthrow
        exact ⟨a, .inr ⟨i, op, _, hop', hout, h.blockOf_tail hI hk (Nat.le_refl _),
          h.resultFrom_tail hres hthrow⟩, hkeep⟩
      · obtain rfl : a = r := by
          obtain ⟨_, -, hres⟩ := hres
          rwa [if_neg fun hif => hthrow hif.1] at hres
        rcases Nat.lt_or_ge k index with hlt | hge
        · refine ⟨a, .inr ⟨i, op, a, hop', hout, h.blockOf_head hI hk hlt, _,
            block_splitted_old hy, ?_⟩, hkeep⟩
          rw [if_neg fun hif => hthrow hif.1]
        · refine ⟨⟨c.blocks.length⟩, .inr ⟨i, op, _, hop', hout, h.blockOf_tail hI hk hge, _,
            block_splitted_tail, ?_⟩, fun hav => ?_⟩
          · rw [if_neg fun hif => hthrow hif.1]
          · obtain ⟨j, o, hj, ho, ht⟩ := h.throwing
            have hlt : index < k := by
              rcases Nat.lt_or_eq_of_le hge with hlt | rfl
              · exact hlt
              · obtain rfl : i = j := Option.some.inj (hk.symm.trans hj)
                obtain rfl : op = o := Except.ok.inj (hop.symm.trans ho)
                exact absurd ht hthrow
            have hb : c.Reachable a := (avoids_or_reaches hreach a).resolve_left hdom
            refine hsafe hb ⟨x, index, k, j, i, o, hy, hj, hk, hlt, ho, ht, op, hop, hout⟩ ?_
            exact handlerReaches_of_avoids hI h.block h.index_lt hc.closed hne hdom hav
    · exact ⟨a, .inr ⟨i, op, r, hop', hout, blockOf_splitted_other hI h.block hr hrb,
        resultFrom_other hres hrb⟩, hkeep⟩

/-- Where a place of the body lies after the split. The end of the head and the start of the tail
are one place of the body. -/
def Moves (c : Body) (b : BlockId) (index : Nat) (s : BlockId) (n : Nat) (s' : BlockId)
    (n' : Nat) : Prop :=
  (s ≠ b ∧ c.HasBlock s ∧ s' = s ∧ n' = n) ∨ (s = b ∧ n ≤ index ∧ s' = b ∧ n' = n) ∨
    (s = b ∧ index ≤ n ∧ s' = ⟨c.blocks.length⟩ ∧ n' = n - index)

omit h in
theorem Moves.unsplit {s' : BlockId} {n' : Nat} (hb : c.HasBlock b)
    (hm : Moves c b index s n s' n') : c.unsplit b s' = s := by
  rcases hm with ⟨-, hs, rfl, -⟩ | ⟨rfl, -, rfl, -⟩ | ⟨rfl, -, rfl, -⟩
  · exact hs.unsplit
  · exact hb.unsplit
  · exact unsplit_next

include hI hc in
/-- What the head defines is there in the tail. -/
theorem available_head {k : Nat} (hk : x.instructions[k]? = some i)
    (hlt : k < index) (hi : c.Outputs i v) :
    (∀ j, (c.splitted b index x jumps).Outputs j v →
      (c.splitted b index x jumps).blockOf j ≠ .ok ⟨c.blocks.length⟩) ∧
      ∃ a, (c.splitted b index x jumps).AvailableFrom v a ∧
        (c.splitted b index x jumps).Dominates a ⟨c.blocks.length⟩ := by
  obtain ⟨op, hop, hout⟩ := id hi
  have hb := hasBlock_of_block h.block
  have hthrow : op.canThrow ≠ true := fun ht => by
    have := h.eq_index hI hc hk hop ht
    omega
  refine ⟨fun j hj hof => ?_, b, .inr ⟨i, op, b, operation_splitted.2 (.inl hop), hout,
    h.blockOf_head hI hk hlt, _, block_splitted_old h.block, ?_⟩, ?_⟩
  · obtain rfl := hI.eq_of_outputs hi (outputs_splitted.1 hj)
    exact hb.ne_next (Except.ok.inj ((h.blockOf_head hI hk hlt).symm.trans hof))
  · rw [if_neg fun hif => hthrow hif.1]
  · refine dominates_splitted hI h.block h.index_lt hc.closed ?_
    rw [unsplit_next]
    exact dominates_self

include hI hc in
/-- What was there at a place is there after the split, unless a handler leads around the tail. -/
theorem ready {s' : BlockId} {n' : Nat} (hm : Moves c b index s n s' n') (hreach : c.Reachable s)
    (hsafe : c.Reachable b → c.DefinedAfterThrow b v → ¬ c.HandlerReaches b s)
    (hready : c.Ready v s n) :
    (c.splitted b index x jumps).Ready v s' n' := by
  have hb := hasBlock_of_block h.block
  rcases hready with ⟨i, y, k, hi, hy, hk, hkn⟩ | ⟨hnot, a, ha, hdom⟩
  · rcases hm with ⟨hs, -, rfl, rfl⟩ | ⟨rfl, hn, rfl, rfl⟩ | ⟨rfl, hn, rfl, rfl⟩
    · refine .inl ⟨i, _, k, outputs_splitted.2 hi, block_splitted_old hy, ?_, hkn⟩
      rwa [if_neg hs, instructions_relinked]
    · refine .inl ⟨i, _, k, outputs_splitted.2 hi, block_splitted_old hy, ?_, hkn⟩
      obtain rfl : x = y := Except.ok.inj (h.block.symm.trans hy)
      have hlt := h.index_lt
      rw [if_pos rfl, List.getElem?_append_left (by simp; omega), List.getElem?_take,
        if_pos (by omega), hk]
    · obtain rfl : x = y := Except.ok.inj (h.block.symm.trans hy)
      rcases Nat.lt_or_ge k index with hlt | hge
      · exact .inr (h.available_head hI hc hk hlt hi)
      · refine .inl ⟨i, _, k - index, outputs_splitted.2 hi, block_splitted_tail, ?_, by omega⟩
        rw [splitTail, List.getElem?_drop, ← hk]
        congr
        omega
  · rw [← hm.unsplit hb] at hnot hdom hreach hsafe
    exact .inr ⟨h.blockOf_ne hI hnot,
      h.availableFrom hI hc hreach hsafe hnot ha hdom⟩

include hI hc in
/-- What phis read on an edge is there after the split. The edge is kept, or it comes from the tail
instead of the block. -/
theorem onEdge {q : BlockId} (hedge : c.Edge p s)
    (hq : (q = p ∧ ¬ (p = b ∧ s ∈ jumps)) ∨ (q = ⟨c.blocks.length⟩ ∧ p = b))
    (hreach : c.Reachable p)
    (hsafe : c.Reachable b → c.DefinedAfterThrow b v →
      ¬ c.HandlerReaches b p ∧ (p = b → ¬ c.Handles b s))
    (hon : c.OnEdge v p s) : (c.splitted b index x jumps).OnEdge v q s := by
  have hb := hasBlock_of_block h.block
  obtain ⟨y, hy⟩ := hedge.exists_block
  have hp := hasBlock_of_block hy
  have hunsplit : c.unsplit b q = p := by
    rcases hq with ⟨rfl, -⟩ | ⟨rfl, rfl⟩
    · exact hp.unsplit
    · exact unsplit_next
  rcases hon with ⟨i, op, hop, hout, hof, hcond⟩ | ⟨hnot, a, ha, hdom⟩
  · have hop' : (c.splitted b index x jumps).operation i = .ok op :=
      operation_splitted.2 (.inl hop)
    by_cases hpb : p = b
    · subst hpb
      obtain ⟨z, hz, hmem⟩ := hI.recorded hof
      obtain rfl : x = z := Except.ok.inj (h.block.symm.trans hz)
      obtain ⟨k, hk⟩ := List.mem_iff_getElem?.1 hmem
      rcases hq with ⟨rfl, hs⟩ | ⟨rfl, -⟩
      · have hjump : ¬ c.Jumps q s := fun hj => hs ⟨rfl, (mem_normalSuccessors h.jumps).2 hj⟩
        have hhandles : c.Handles q s := hedge.resolve_left hjump
        have hthrow : op.canThrow ≠ true := fun ht => hjump (hcond ht hhandles)
        rcases Nat.lt_or_ge k index with hlt | hge
        · exact .inl ⟨i, op, hop', hout, h.blockOf_head hI hk hlt, fun ht => absurd ht hthrow⟩
        · obtain ⟨j, o, hj, ho, ht⟩ := h.throwing
          have hlt : index < k := by
            rcases Nat.lt_or_eq_of_le hge with hlt | rfl
            · exact hlt
            · obtain rfl : i = j := Option.some.inj (hk.symm.trans hj)
              obtain rfl : op = o := Except.ok.inj (hop.symm.trans ho)
              exact absurd ht hthrow
          exact absurd hhandles ((hsafe hreach ⟨x, index, k, j, i, o, hz, hj, hk, hlt, ho, ht, op,
            hop, hout⟩).2 rfl)
      · rcases Nat.lt_or_ge k index with hlt | hge
        · exact .inr (h.available_head hI hc hk hlt ⟨op, hop, hout⟩)
        · refine .inl ⟨i, op, hop', hout, h.blockOf_tail hI hk hge, fun ht hh => ?_⟩
          rw [handles_splitted hz, unsplit_next] at hh
          exact (jumps_splitted_tail hI hz h.index_lt).2 (hcond ht hh)
    · obtain ⟨rfl, -⟩ : q = p ∧ ¬ (p = b ∧ s ∈ jumps) := by
        rcases hq with hq | ⟨-, heq⟩
        · exact hq
        · exact absurd heq hpb
      refine .inl ⟨i, op, hop', hout, blockOf_splitted_other hI h.block hof hpb, fun ht hh => ?_⟩
      rw [handles_splitted h.block, hunsplit] at hh
      exact (jumps_splitted_other hI hp hpb).2 (hcond ht hh)
  · rw [← hunsplit] at hnot hdom hreach
    refine .inr ⟨h.blockOf_ne hI hnot, h.availableFrom hI hc hreach (fun hr hd => ?_) hnot ha hdom⟩
    rw [hunsplit]
    exact (hsafe hr hd).1

/-! ### Consistency after the split -/

omit h in
/-- An old block after the split, part by part. -/
theorem block_cases {z : Block} (hz : (c.splitted b index x jumps).block s = .ok z) :
    (∃ y, c.block s = .ok y ∧
        z.instructions = (if s = b then y.instructions.take index ++ [⟨c.instructions.length⟩]
          else y.instructions) ∧
        z.handlers = y.handlers ∧
        z.predecessors = (relinked b ⟨c.blocks.length⟩ jumps x.handlers s y).predecessors ∧
        z.phis = (relinked b ⟨c.blocks.length⟩ jumps x.handlers s y).phis) ∨
      (s = ⟨c.blocks.length⟩ ∧ z = splitTail b index x) := by
  rcases block_splitted.1 hz with ⟨y, hy, rfl⟩ | htail
  · refine .inl ⟨y, hy, ?_⟩
    split <;> simp
  · exact .inr htail

/-- The place before the split of an instruction, which is not the jump to the tail. -/
theorem exists_place {z : Block} (hz : (c.splitted b index x jumps).block s = .ok z)
    (hn : z.instructions[n]? = some i) (hi : i ≠ ⟨c.instructions.length⟩) :
    ∃ s₀ y n₀, c.block s₀ = .ok y ∧ y.instructions[n₀]? = some i ∧
      Moves c b index s₀ n₀ s n := by
  have hlt := h.index_lt
  rcases block_cases hz with ⟨y, hy, hins, -⟩ | ⟨rfl, rfl⟩
  · rw [hins] at hn
    by_cases hs : s = b
    · subst hs
      obtain rfl : x = y := Except.ok.inj (h.block.symm.trans hy)
      rw [if_pos rfl, List.getElem?_append] at hn
      split at hn
      · rename_i hlen
        rw [List.length_take] at hlen
        rw [List.getElem?_take, if_pos (by omega)] at hn
        exact ⟨s, x, n, hy, hn, .inr (.inl ⟨rfl, by omega, rfl, rfl⟩)⟩
      · obtain rfl := List.mem_singleton.1 (List.mem_of_getElem? hn)
        exact absurd rfl hi
    · rw [if_neg hs] at hn
      exact ⟨s, y, n, hy, hn, .inl ⟨hs, hasBlock_of_block hy, rfl, rfl⟩⟩
  · rw [splitTail, List.getElem?_drop] at hn
    exact ⟨b, x, index + n, h.block, hn, .inr (.inr ⟨rfl, by omega, rfl, by omega⟩)⟩

omit h in
include hI in
theorem operation_of_place {y : Block} {s₀ : BlockId} (hy : c.block s₀ = .ok y)
    (hi : i ∈ y.instructions) (hop : (c.splitted b index x jumps).operation i = .ok op) :
    c.operation i = .ok op := by
  rcases operation_splitted.1 hop with hop | ⟨rfl, -⟩
  · exact hop
  · exact absurd (hI.placed hy _ hi) blockOf_next_ne_ok

omit h in
theorem operation_jump (hop : (c.splitted b index x jumps).operation ⟨c.instructions.length⟩ = .ok op) :
    op = .goto ⟨c.blocks.length⟩ := by
  rcases operation_splitted.1 hop with hop | ⟨-, rfl⟩
  · exact absurd hop operation_next_ne_ok
  · rfl

include hI hc in
/-- The head keeps nothing that throws. -/
theorem canThrow_head (hj : j ∈ x.instructions.take index ++ [⟨c.instructions.length⟩])
    (hop : (c.splitted b index x jumps).operation j = .ok op) : op.canThrow = false := by
  rw [List.mem_append, List.mem_singleton] at hj
  rcases hj with hj | rfl
  · obtain ⟨m, hm⟩ := List.mem_iff_getElem?.1 hj
    rw [List.getElem?_take] at hm
    split at hm
    · rw [← Bool.not_eq_true]
      intro hthrow
      have := h.eq_index hI hc hm
        (operation_of_place hI h.block (List.mem_of_getElem? hm) hop) hthrow
      omega
    · simp at hm
  · rw [operation_jump hop]
    rfl

include hc in
/-- The head ends with the jump to the tail, and the tail as the block has ended. -/
theorem terminated {z : Block} (hz : (c.splitted b index x jumps).block s = .ok z) :
    ∃ i op, z.instructions.getLast? = some i ∧
      (c.splitted b index x jumps).operation i = .ok op ∧ op.isTerminator = true := by
  have hlt := h.index_lt
  rcases block_cases hz with ⟨y, hy, hins, -⟩ | ⟨rfl, rfl⟩
  · by_cases hs : s = b
    · refine ⟨_, _, ?_, operation_splitted.2 (.inr ⟨rfl, rfl⟩), rfl⟩
      rw [hins, if_pos hs, List.getLast?_concat]
    · obtain ⟨i, op, hlast, hop, hterm⟩ := hc.terminated hy
      exact ⟨i, op, by rw [hins, if_neg hs, hlast], operation_splitted.2 (.inl hop), hterm⟩
  · obtain ⟨i, op, hlast, hop, hterm⟩ := hc.terminated h.block
    refine ⟨i, op, ?_, operation_splitted.2 (.inl hop), hterm⟩
    rw [splitTail, List.getLast?_drop, if_neg (by omega), hlast]

include hI hc in
theorem inner {z : Block} (hz : (c.splitted b index x jumps).block s = .ok z)
    (hi : i ∈ z.instructions.dropLast) (hop : (c.splitted b index x jumps).operation i = .ok op) :
    op.isTerminator = false := by
  have hlt := h.index_lt
  rcases block_cases hz with ⟨y, hy, hins, -⟩ | ⟨rfl, rfl⟩
  · rw [hins] at hi
    have hmem : i ∈ y.instructions.dropLast := by
      by_cases hs : s = b
      · subst hs
        obtain rfl : x = y := Except.ok.inj (h.block.symm.trans hy)
        rw [if_pos rfl, List.dropLast_concat] at hi
        obtain ⟨n, hn⟩ := List.mem_iff_getElem?.1 hi
        rw [List.getElem?_take] at hn
        split at hn
        · exact mem_dropLast_iff.2 ⟨n, by omega, hn⟩
        · simp at hn
      · rwa [if_neg hs] at hi
    exact hc.inner hy i hmem op
      (operation_of_place hI hy (List.dropLast_subset _ hmem) hop)
  · obtain ⟨n, hn, hget⟩ := mem_dropLast_iff.1 hi
    simp only [splitTail, List.length_drop, List.getElem?_drop] at hn hget
    exact hc.inner h.block i (mem_dropLast_iff.2 ⟨index + n, by omega, hget⟩) op
      (operation_of_place hI h.block (List.mem_of_getElem? hget) hop)

include hI hc in
/-- Edges are known where they lead to, as no handler of the block is also jumped to: the head would
lose its edge to such a handler. -/
theorem symmetric_out (hsafe : c.SplitSafe b) (hedge : (c.splitted b index x jumps).Edge p s) :
    ∃ z, (c.splitted b index x jumps).block s = .ok z ∧ p ∈ z.predecessors := by
  rcases (edge_splitted hI h.block h.index_lt).1 hedge with ⟨rfl, rfl⟩ | hedge
  · exact ⟨_, block_splitted_tail, by simp [splitTail]⟩
  have hold : c.Edge (c.unsplit b p) s := hedge.imp (·.2) id
  obtain ⟨y, hy, hmem⟩ := hc.symmetric_out hold
  obtain ⟨z, hz⟩ := exists_block_iff.2
    (@hasBlock_splitted c b s index x jumps |>.2 (.inl (hasBlock_of_block hy)))
  obtain ⟨y', hy', -, -, hpred, -⟩ := (block_cases hz).resolve_right
    fun h => (hasBlock_of_block hy).ne_next h.1
  obtain rfl : y = y' := Except.ok.inj (hy.symm.trans hy')
  refine ⟨z, hz, ?_⟩
  rw [hpred, mem_predecessors_relinked (hasBlock_of_block h.block).ne_next.symm]
  by_cases hpn : p = ⟨c.blocks.length⟩
  · subst hpn
    rw [unsplit_next] at hmem hedge
    refine .inr ⟨rfl, hmem, ?_⟩
    rcases hedge with ⟨-, hj⟩ | ⟨x', hx', hh⟩
    · exact .inl ((mem_normalSuccessors h.jumps).2 hj)
    · obtain rfl : x = x' := Except.ok.inj (h.block.symm.trans hx')
      exact .inr hh
  · rw [unsplit, if_neg hpn] at hmem hedge
    refine .inl ⟨hmem, ?_⟩
    rintro ⟨rfl, hs⟩
    rcases hedge with ⟨hne, -⟩ | hh
    · exact hne rfl
    · exact hsafe.apart s hh ((mem_normalSuccessors h.jumps).1 hs)

include hI hc in
theorem symmetric_in {z : Block} (hz : (c.splitted b index x jumps).block s = .ok z)
    (hp : p ∈ z.predecessors) : (c.splitted b index x jumps).Edge p s := by
  have hnext : (⟨c.blocks.length⟩ : BlockId) ≠ b := (hasBlock_of_block h.block).ne_next.symm
  rw [edge_splitted hI h.block h.index_lt]
  rcases block_cases hz with ⟨y, hy, -, -, hpred, -⟩ | ⟨rfl, rfl⟩
  · rw [hpred, mem_predecessors_relinked hnext] at hp
    refine .inr ?_
    rcases hp with ⟨hp, hpb⟩ | ⟨rfl, hmem, hs⟩
    · have hedge := hc.symmetric_in hy p hp
      obtain ⟨w, hw⟩ := hedge.exists_block
      rw [(hasBlock_of_block hw).unsplit]
      rcases hedge with hj | hh
      · refine .inl ⟨?_, hj⟩
        rintro rfl
        exact hpb ⟨rfl, (mem_normalSuccessors h.jumps).2 hj⟩
      · exact .inr hh
    · rw [unsplit_next]
      rcases hs with hs | hs
      · exact .inl ⟨hnext, (mem_normalSuccessors h.jumps).1 hs⟩
      · exact .inr ⟨x, h.block, hs⟩
  · obtain rfl : p = b := by simpa [splitTail] using hp
    exact .inl ⟨rfl, rfl⟩

include hI hc in
/-- Two throwing instructions of a block come from one block, as the jump does not throw. -/
theorem throws {z : Block} {op' : Operation}
    (hz : (c.splitted b index x jumps).block s = .ok z) (hguard : z.isGuarded = true)
    (hi : i ∈ z.instructions) (hj : j ∈ z.instructions)
    (hop : (c.splitted b index x jumps).operation i = .ok op)
    (hop' : (c.splitted b index x jumps).operation j = .ok op') (ht : op.canThrow = true)
    (ht' : op'.canThrow = true) : i = j := by
  have hb := hasBlock_of_block h.block
  have hback : ∀ {k o}, (c.splitted b index x jumps).operation k = .ok o → o.canThrow = true →
      k ≠ ⟨c.instructions.length⟩ := by
    rintro k o hk hthrow rfl
    rw [operation_jump hk] at hthrow
    simp [Operation.canThrow] at hthrow
  obtain ⟨m, hm⟩ := List.mem_iff_getElem?.1 hi
  obtain ⟨n, hn⟩ := List.mem_iff_getElem?.1 hj
  obtain ⟨s₁, y₁, m₀, hy₁, hm₀, hmoves₁⟩ := h.exists_place hz hm (hback hop ht)
  obtain ⟨s₂, y₂, n₀, hy₂, hn₀, hmoves₂⟩ := h.exists_place hz hn (hback hop' ht')
  obtain rfl : s₁ = s₂ := (hmoves₁.unsplit hb).symm.trans (hmoves₂.unsplit hb)
  obtain rfl : y₁ = y₂ := Except.ok.inj (hy₁.symm.trans hy₂)
  refine hc.throws hy₁ ?_ i (List.mem_of_getElem? hm₀) j (List.mem_of_getElem? hn₀) op op'
    (operation_of_place hI hy₁ (List.mem_of_getElem? hm₀) hop)
    (operation_of_place hI hy₁ (List.mem_of_getElem? hn₀) hop') ht ht'
  rcases block_cases hz with ⟨y, hy, -, hhandlers, -⟩ | ⟨rfl, rfl⟩
  · obtain rfl : s₁ = s := (hmoves₁.unsplit hb).symm.trans (hasBlock_of_block hy).unsplit
    obtain rfl : y₁ = y := Except.ok.inj (hy₁.symm.trans hy)
    rwa [Block.isGuarded, ← hhandlers]
  · obtain rfl : s₁ = b := (hmoves₁.unsplit hb).symm.trans unsplit_next
    obtain rfl : x = y₁ := Except.ok.inj (h.block.symm.trans hy₁)
    exact h.guarded

include hc in
theorem arity {z : Block} {phi : Phi} (hz : (c.splitted b index x jumps).block s = .ok z)
    (hphi : phi ∈ z.phis) : phi.operands.length = z.predecessors.length := by
  rcases block_cases hz with ⟨y, hy, -, -, hpred, hphis⟩ | ⟨rfl, rfl⟩
  · rw [hpred]
    exact length_operands_relinked (hasBlock_of_block h.block).ne_next.symm (hc.arity hy) phi
      (hphis ▸ hphi)
  · simp [splitTail] at hphi

include hI hc in
theorem operands {z : Block} (hsafe : c.SplitSafe b)
    (hz : (c.splitted b index x jumps).block s = .ok z) (hn : z.instructions[n]? = some i)
    (hop : (c.splitted b index x jumps).operation i = .ok op) (hv : v ∈ op.operands) :
    (c.splitted b index x jumps).IsDefined v ∧
      ((c.splitted b index x jumps).Reachable s → (c.splitted b index x jumps).Ready v s n) := by
  have hi : i ≠ ⟨c.instructions.length⟩ := by
    rintro rfl
    rw [operation_jump hop] at hv
    simp [Operation.operands] at hv
  obtain ⟨s₀, y, n₀, hy, hn₀, hmoves⟩ := h.exists_place hz hn hi
  have hop := operation_of_place hI hy (List.mem_of_getElem? hn₀) hop
  obtain ⟨hdef, hready⟩ := hc.operands hy hn₀ hop v hv
  refine ⟨isDefined_splitted.2 hdef, fun hreach => ?_⟩
  have hreach := reachable_unsplit hI h.block h.index_lt hc.closed hreach
  rw [hmoves.unsplit (hasBlock_of_block h.block)] at hreach
  refine h.ready hI hc hmoves hreach (fun hr hd => ?_) (hready hreach)
  exact hsafe.unread hr v hd i s₀ ⟨op, hop, hv⟩ (hI.placed hy i (List.mem_of_getElem? hn₀))

include hI hc in
theorem inputs {z : Block} {phi : Phi} {q : ValueId × BlockId} (hsafe : c.SplitSafe b)
    (hz : (c.splitted b index x jumps).block s = .ok z) (hphi : phi ∈ z.phis)
    (hq : q ∈ phi.operands.zip z.predecessors) :
    (c.splitted b index x jumps).IsDefined q.1 ∧
      ((c.splitted b index x jumps).Reachable q.2 →
        (c.splitted b index x jumps).OnEdge q.1 q.2 s) := by
  rcases block_cases hz with ⟨y, hy, -, -, hpred, hphis⟩ | ⟨rfl, rfl⟩
  · obtain ⟨e, he⟩ := List.mem_iff_getElem?.1 hq
    obtain ⟨hv, hp⟩ := List.getElem?_zip_eq_some.1 he
    obtain ⟨k, hk⟩ := List.mem_iff_getElem?.1 hphi
    rw [hpred] at hp
    rw [hphis] at hk
    obtain ⟨e₀, p, hp₀, -, hcases, hread⟩ :=
      edge_relinked (hasBlock_of_block h.block).ne_next.symm (hc.arity hy) hp
    obtain ⟨phi₀, hphi₀, -, hv₀⟩ := hread k phi hk
    have hmem : (q.1, p) ∈ phi₀.operands.zip y.predecessors :=
      List.mem_iff_getElem?.2 ⟨e₀, List.getElem?_zip_eq_some.2 ⟨hv₀ ▸ hv, hp₀⟩⟩
    have hphi₀ := List.mem_of_getElem? hphi₀
    obtain ⟨hdef, hon⟩ := hc.inputs hy hphi₀ _ hmem
    refine ⟨isDefined_splitted.2 hdef, fun hreach => ?_⟩
    have hreach := reachable_unsplit hI h.block h.index_lt hc.closed hreach
    have hedge := hc.symmetric_in hy p (List.mem_of_getElem? hp₀)
    obtain ⟨w, hw⟩ := hedge.exists_block
    have hunsplit : c.unsplit b q.2 = p := by
      rcases hcases with ⟨heq, -⟩ | ⟨heq, rfl, -⟩
      · rw [heq, (hasBlock_of_block hw).unsplit]
      · rw [heq, unsplit_next]
    rw [hunsplit] at hreach
    refine h.onEdge hI hc hedge ?_ hreach (fun hr hd => ?_) (hon hreach)
    · rcases hcases with hcases | ⟨heq, rfl, -⟩
      · exact .inl ⟨hcases.1, hcases.2.2⟩
      · exact .inr ⟨heq, rfl⟩
    · exact hsafe.unread_phi hr q.1 hd s y phi₀ p hy hphi₀ hmem
  · simp [splitTail] at hphi

include hI hc in
/-- A safe split keeps a body consistent. -/
theorem consistent (hsafe : c.SplitSafe b) : (c.splitted b index x jumps).Consistent where
  terminated hz := h.terminated hc hz
  inner hz _ hi _ hop := h.inner hI hc hz hi hop
  symmetric_out hedge := h.symmetric_out hI hc hsafe hedge
  symmetric_in hz _ hp := h.symmetric_in hI hc hz hp
  throws hz hguard _ hi _ hj _ _ hop hop' ht ht' := h.throws hI hc hz hguard hi hj hop hop' ht ht'
  arity hz _ hphi := h.arity hc hz hphi
  operands hz hn hop _ hv := h.operands hI hc hsafe hz hn hop hv
  inputs hz hphi _ hq := h.inputs hI hc hsafe hz hphi hq

end SplitPoint

end Body

end Devirt
