import Devirt.Proofs.Body.DominatorTree
import Devirt.Proofs.Body.Intact

/-!
Control flow between the blocks of a body, and dominance in a body. The dominator tree of a body
answers which blocks every path to a block passes.
-/

namespace Devirt

open Relation

theorem Operation.targets_eq_nil {op : Operation} (h : op.isTerminator = false) :
    op.targets = [] := by
  cases op <;> simp_all [Operation.isTerminator, Operation.targets]

namespace Body

variable {c d : Body} {a b s : BlockId} {i : InstrId} {t : DominatorTree}

/-- The terminator of the block leads to the other block. -/
def Jumps (c : Body) (b s : BlockId) : Prop :=
  ∃ x i op, c.block b = .ok x ∧ x.instructions.getLast? = some i ∧ c.operation i = .ok op ∧
    s ∈ op.targets

/-- A handler of the block leads to the other block. -/
def Handles (c : Body) (b s : BlockId) : Prop :=
  ∃ x, c.block b = .ok x ∧ ∃ h ∈ x.handlers, h.target = s

def Edge (c : Body) (b s : BlockId) : Prop := c.Jumps b s ∨ c.Handles b s

/-- All edges lead to blocks of the body. -/
def Closed (c : Body) : Prop := ∀ b s, c.Edge b s → c.HasBlock s

def Reachable (c : Body) (b : BlockId) : Prop := ReflTransGen c.Edge c.entry b

/-- Every path from the entry to the second block passes the first one. -/
def Dominates (c : Body) (a b : BlockId) : Prop := ¬ Avoids c.Edge c.entry a b

theorem normalSuccessors_eq_ok {l : List BlockId} :
    c.normalSuccessors b = .ok l ↔
      ∃ x, c.block b = .ok x ∧
        ((x.instructions = [] ∧ l = []) ∨
          ∃ i op, x.instructions.getLast? = some i ∧ c.operation i = .ok op ∧ l = op.targets) := by
  constructor
  · intro h
    simp only [normalSuccessors, terminator?, bind_eq_ok] at h
    obtain ⟨o, ⟨x, hx, ho⟩, h⟩ := h
    refine ⟨x, hx, ?_⟩
    cases hlast : x.instructions.getLast? with
    | none =>
      rw [hlast] at ho
      obtain rfl : none = o := Except.ok.inj ho
      exact .inl ⟨List.getLast?_eq_none_iff.1 hlast, (Except.ok.inj h).symm⟩
    | some i =>
      simp only [hlast, bind_eq_ok, pure_eq_ok, Except.ok.injEq] at ho
      obtain ⟨op, hop, ho⟩ := ho
      refine .inr ⟨i, op, rfl, hop, ?_⟩
      split at ho
      · subst ho
        simp only [hop, ok_bind, pure_eq_ok, Except.ok.injEq] at h
        exact h.symm
      · rename_i hterm
        subst ho
        rw [Operation.targets_eq_nil (by simpa using hterm)]
        exact (Except.ok.inj h).symm
  · rintro ⟨x, hx, ⟨hnil, rfl⟩ | ⟨i, op, hlast, hop, rfl⟩⟩
    · simp [normalSuccessors, terminator?, hx, hnil]
    · by_cases hterm : op.isTerminator = true
      · simp [normalSuccessors, terminator?, hx, hlast, hop, hterm]
      · simp [normalSuccessors, terminator?, hx, hlast, hop, hterm,
          Operation.targets_eq_nil (by simpa using hterm)]

theorem mem_normalSuccessors {l : List BlockId} (h : c.normalSuccessors b = .ok l) :
    s ∈ l ↔ c.Jumps b s := by
  obtain ⟨x, hx, h⟩ := normalSuccessors_eq_ok.1 h
  constructor
  · intro hs
    rcases h with ⟨-, rfl⟩ | ⟨i, op, hlast, hop, rfl⟩
    · simp at hs
    · exact ⟨x, i, op, hx, hlast, hop, hs⟩
  · rintro ⟨x', i', op', hx', hlast', hop', hs⟩
    obtain rfl : x = x' := Except.ok.inj (hx.symm.trans hx')
    rcases h with ⟨hnil, -⟩ | ⟨i, op, hlast, hop, rfl⟩
    · simp [hnil] at hlast'
    · obtain rfl : i = i' := Option.some.inj (hlast.symm.trans hlast')
      obtain rfl : op = op' := Except.ok.inj (hop.symm.trans hop')
      exact hs

theorem Arranged.exists_normalSuccessors (hc : c.Arranged) {x : Block} (hx : c.block b = .ok x) :
    ∃ l, c.normalSuccessors b = .ok l := by
  cases hlast : x.instructions.getLast? with
  | none => exact ⟨[], normalSuccessors_eq_ok.2 ⟨x, hx, .inl ⟨List.getLast?_eq_none_iff.1 hlast, rfl⟩⟩⟩
  | some i =>
    obtain ⟨op, hop⟩ := hc.exists_operation hx (List.mem_of_getLast? hlast)
    exact ⟨_, normalSuccessors_eq_ok.2 ⟨x, hx, .inr ⟨i, op, hlast, hop, rfl⟩⟩⟩

private theorem mem_addHandlers {jumps : List BlockId} {handlers : List Handler} :
    s ∈ handlers.foldl (fun l h => if h.target ∈ l then l else l ++ [h.target]) jumps ↔
      s ∈ jumps ∨ ∃ h ∈ handlers, h.target = s := by
  induction handlers generalizing jumps with
  | nil => simp
  | cons h handlers ih =>
    rw [List.foldl_cons, ih]
    by_cases hmem : h.target ∈ jumps
    · simp only [hmem, if_true, List.mem_cons, exists_eq_or_imp]
      constructor
      · rintro (hs | hs)
        · exact .inl hs
        · exact .inr (.inr hs)
      · rintro (hs | rfl | hs)
        · exact .inl hs
        · exact .inl hmem
        · exact .inr hs
    · simp [hmem, or_assoc, @eq_comm _ s]

theorem mem_successors {l : List BlockId} (h : c.successors b = .ok l) : s ∈ l ↔ c.Edge b s := by
  simp only [successors, bind_eq_ok, pure_eq_ok, Except.ok.injEq] at h
  obtain ⟨jumps, hjumps, x, hx, rfl⟩ := h
  rw [mem_addHandlers, mem_normalSuccessors hjumps, Edge, Handles]
  simp [hx]

theorem Arranged.exists_successors (hc : c.Arranged) {x : Block} (hx : c.block b = .ok x) :
    ∃ l, c.successors b = .ok l := by
  obtain ⟨l, hl⟩ := hc.exists_normalSuccessors hx
  simp [successors, hl, hx]

theorem Edge.exists_block (h : c.Edge b s) : ∃ x, c.block b = .ok x := by
  rcases h with ⟨x, _, _, hx, -⟩ | ⟨x, hx, -⟩ <;> exact ⟨x, hx⟩

theorem Arranged.exists_flow (hc : c.Arranged) : ∃ g, c.flow = .ok g := by
  have hedges : ∀ b ∈ c.order, ∃ e, (do
      return (b, (← c.successors b).filter (· ∈ c.order))) = Except.ok e := by
    intro b hb
    obtain ⟨x, hx⟩ := exists_block_iff.2 ((hc.mem_order b).1 hb)
    obtain ⟨l, hl⟩ := hc.exists_successors hx
    simp [hl]
  obtain ⟨edges, hedges⟩ := exists_mapM_eq_ok.2 hedges
  exact ⟨⟨c.entry, edges⟩, by rw [flow, hedges]; rfl⟩

theorem Arranged.exists_dominators (hc : c.Arranged) : ∃ t, c.dominators = .ok t := by
  obtain ⟨g, hg⟩ := hc.exists_flow
  exact ⟨_, by simp [dominators, hg]; rfl⟩

/-- The flow graph has the edges of the body. -/
theorem leads_flow (hc : c.Arranged) (hclosed : c.Closed) {g : FlowGraph} (hg : c.flow = .ok g) :
    g.entry = c.entry ∧ Leads g.next = c.Edge := by
  simp only [flow, bind_eq_ok, pure_eq_ok, Except.ok.injEq] at hg
  obtain ⟨edges, hedges, rfl⟩ := hg
  refine ⟨rfl, ?_⟩
  funext b s
  refine propext ?_
  have hlookup : ∀ l, edges.lookup b = some l → ∃ l', c.successors b = .ok l' ∧
      l = l'.filter (· ∈ c.order) := by
    intro l hl
    obtain ⟨l₁, l₂, heq, -⟩ := List.lookup_eq_some_iff.1 hl
    obtain ⟨b', hb', h⟩ := (mem_of_mapM_eq_ok hedges).1 (show (b, l) ∈ edges by simp [heq])
    simp only [bind_eq_ok, Except.ok.injEq, Prod.mk.injEq] at h
    obtain ⟨l', hl', rfl, rfl⟩ := h
    exact ⟨l', hl', rfl⟩
  simp only [Leads, FlowGraph.next]
  constructor
  · intro hs
    cases hl : edges.lookup b with
    | none => simp [hl] at hs
    | some l =>
      obtain ⟨l', hl', rfl⟩ := hlookup l hl
      rw [hl, Option.getD_some] at hs
      exact (mem_successors hl').1 (List.mem_of_mem_filter hs)
  · intro hs
    obtain ⟨x, hx⟩ := hs.exists_block
    obtain ⟨l', hl'⟩ := hc.exists_successors hx
    have hb : b ∈ c.order := (hc.mem_order b).2 (hasBlock_of_block hx)
    have hmem : (b, l'.filter (· ∈ c.order)) ∈ edges :=
      (mem_of_mapM_eq_ok hedges).2 ⟨b, hb, by simp [hl']⟩
    cases hl : edges.lookup b with
    | none => simpa using List.lookup_eq_none_iff.1 hl _ hmem
    | some l =>
      obtain ⟨l'', hl'', rfl⟩ := hlookup l hl
      obtain rfl : l' = l'' := Except.ok.inj (hl'.symm.trans hl'')
      rw [Option.getD_some, List.mem_filter]
      exact ⟨(mem_successors hl').2 hs, by simpa using (hc.mem_order s).2 (hclosed b s hs)⟩

theorem isReachable_iff (hc : c.Arranged) (hclosed : c.Closed) (ht : c.dominators = .ok t) :
    t.isReachable b = true ↔ c.Reachable b := by
  simp only [dominators, bind_eq_ok, pure_eq_ok, Except.ok.injEq] at ht
  obtain ⟨g, hg, rfl⟩ := ht
  obtain ⟨hentry, hleads⟩ := leads_flow hc hclosed hg
  rw [DominatorTree.isReachable_ofFlow, hentry, hleads, Reachable]

/-- The tree answers which blocks every path to a block passes. -/
theorem dominates_iff (hc : c.Arranged) (hclosed : c.Closed) (ht : c.dominators = .ok t) :
    t.dominates a b = true ↔ a = b ∨ (c.Reachable b ∧ c.Dominates a b) := by
  simp only [dominators, bind_eq_ok, pure_eq_ok, Except.ok.injEq] at ht
  obtain ⟨g, hg, rfl⟩ := ht
  obtain ⟨hentry, hleads⟩ := leads_flow hc hclosed hg
  rw [DominatorTree.dominates_ofFlow, hentry, hleads, Reachable, Dominates]

end Body

end Devirt
