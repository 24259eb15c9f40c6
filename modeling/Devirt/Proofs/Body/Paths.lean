import Devirt.Proofs.Body.Editing

/-!
Dominance as a statement about paths. The tree of a body is made of two tables, the immediate
dominators and the numbers of a walk, and its answers are those one gets by looking at every path
from the entry, be it along jumps or into handlers.
-/

namespace Devirt

open Relation

namespace Body

variable {c : Body} {a b s : BlockId}

/-- The blocks on a way from the entry to the given block, both of them included. -/
inductive Path (c : Body) : List BlockId → BlockId → Prop
  | entry : Path c [c.entry] c.entry
  | step {p : List BlockId} {b s : BlockId} (hp : Path c p b) (hs : c.Edge b s) : Path c (p ++ [s]) s

theorem reachable_iff_exists_path : c.Reachable b ↔ ∃ p, c.Path p b := by
  constructor
  · intro hb
    induction hb with
    | refl => exact ⟨_, .entry⟩
    | tail _ hstep ih =>
      obtain ⟨p, hp⟩ := ih
      exact ⟨_, hp.step hstep⟩
  · rintro ⟨p, hp⟩
    induction hp with
    | entry => exact .refl
    | step _ hstep ih => exact ih.tail hstep

theorem avoids_iff_exists_path : Avoids c.Edge c.entry a b ↔ ∃ p, c.Path p b ∧ a ∉ p := by
  constructor
  · rintro ⟨hne, hb⟩
    induction hb with
    | refl => exact ⟨_, .entry, by simpa using hne.symm⟩
    | tail _ hstep ih =>
      obtain ⟨p, hp, ha⟩ := ih
      refine ⟨_, hp.step hstep.1, ?_⟩
      simp [ha, hstep.2.symm]
  · rintro ⟨p, hp, ha⟩
    induction hp with
    | entry =>
      rw [List.mem_singleton] at ha
      exact ⟨Ne.symm ha, .refl⟩
    | step _ hstep ih =>
      rw [List.mem_append, List.mem_singleton, not_or] at ha
      exact (ih ha.1).tail hstep (Ne.symm ha.2)

theorem dominates_iff_forall_path : c.Dominates a b ↔ ∀ p, c.Path p b → a ∈ p := by
  simp only [Dominates, avoids_iff_exists_path, not_exists, not_and, not_not]

/-- A body whose edges lead to blocks of it has a dominator tree. In the tree those blocks are
reachable that some path leads to. A block dominates itself, and a reachable block dominates another
one if every path to the other one passes it. A reachable block other than the entry has for a parent
its strict dominator that all others dominate, and no other block has a parent. -/
theorem dominators_describe_paths (hc : c.Made) (hclosed : c.Closed) :
    ∃ t, c.dominators = .ok t ∧
      (∀ b, t.isReachable b = true ↔ ∃ p, c.Path p b) ∧
      (∀ a b, t.dominates a b = true ↔
        a = b ∨ (∃ p, c.Path p a) ∧ (∃ p, c.Path p b) ∧ ∀ p, c.Path p b → a ∈ p) ∧
      (∀ b, t.isReachable b = true → b ≠ c.entry →
        ∃ q, t.parent? b = some q ∧ t.strictlyDominates q b = true ∧
          ∀ a, t.strictlyDominates a b = true → t.dominates a q = true) ∧
      ∀ b, b = c.entry ∨ t.isReachable b = false → t.parent? b = none := by
  have harranged := hc.grounded.toArranged
  obtain ⟨t, ht⟩ := harranged.exists_dominators
  refine ⟨t, ht, fun b => ?_, fun a b => ?_, ?_⟩
  · rw [isReachable_iff harranged hclosed ht, reachable_iff_exists_path]
  · rw [dominates_iff harranged hclosed ht, ← reachable_iff_exists_path,
      ← reachable_iff_exists_path, ← dominates_iff_forall_path]
    constructor
    · rintro (hab | ⟨hb, hab⟩)
      · exact .inl hab
      · exact .inr ⟨(avoids_or_reaches hb a).resolve_left hab, hb, hab⟩
    · rintro (hab | ⟨-, hb, hab⟩)
      · exact .inl hab
      · exact .inr ⟨hb, hab⟩
  · simp only [dominators, bind_eq_ok, pure_eq_ok, Except.ok.injEq] at ht
    obtain ⟨g, hg, rfl⟩ := ht
    have hentry := (leads_flow harranged hclosed hg).1
    constructor
    · intro b hb hne
      obtain ⟨q, hq⟩ := DominatorTree.exists_parent?_iff.2 ⟨hb, hentry ▸ hne⟩
      exact ⟨q, hq, DominatorTree.parent?_eq_some_iff.1 hq⟩
    · intro b hb
      rw [Option.eq_none_iff_forall_ne_some]
      intro q hq
      obtain ⟨hreach, hne⟩ := DominatorTree.exists_parent?_iff.1 ⟨q, hq⟩
      rcases hb with hb | hb
      · exact hne (hb.trans hentry.symm)
      · simp [hb] at hreach

/-- A loop with a call that may raise an exception, its handler, and a block nothing leads to. -/
def loopWithHandler : List DraftStep :=
  [.newBlock, .newBlock, .newBlock, .newBlock, .newBlock, .argument (.ofClass "A" .maybe),
    .goto ⟨0⟩ ⟨1⟩, .branch ⟨1⟩ ⟨0⟩ ⟨2⟩ ⟨3⟩, .handler ⟨2⟩ none ⟨4⟩,
    .call ⟨2⟩ .virtual (.plain "A" "f") [⟨0⟩], .goto ⟨2⟩ ⟨1⟩, .ret ⟨3⟩ none, .goto ⟨4⟩ ⟨3⟩,
    .goto ⟨5⟩ ⟨3⟩]

/-- The call is on every path to the handler; the block after the loop can be reached from the head
of the loop and from the handler, so the head is its parent. -/
theorem dominators_loopWithHandler :
    ∃ made c t, Body.ofSteps (.plain "A" "g") loopWithHandler = .ok (made, c) ∧ c.Made ∧ c.Closed ∧
      c.dominators = .ok t ∧ (∀ p, c.Path p ⟨4⟩ → ⟨2⟩ ∈ p) ∧ (¬ ∃ p, c.Path p ⟨5⟩) ∧
      t.parent? ⟨3⟩ = some ⟨1⟩ ∧
      ∀ a, t.strictlyDominates a ⟨3⟩ = true → t.dominates a ⟨1⟩ = true := by
  obtain ⟨made, c, hwritten, t, ht, hcall, hend, hhead, hnowhere⟩ : ∃ made c,
      Body.ofSteps (.plain "A" "g") loopWithHandler = .ok (made, c) ∧ ∃ t, c.dominators = .ok t ∧
        t.dominates ⟨2⟩ ⟨4⟩ = true ∧ t.isReachable ⟨3⟩ = true ∧ t.parent? ⟨3⟩ = some ⟨1⟩ ∧
        t.isReachable ⟨5⟩ = false := by
    decide +kernel
  have hmade : c.Made := .written hwritten
  have hclosed := closed_of_ofSteps hwritten
  obtain ⟨t', ht', hreach, hdom, hparent, hnone⟩ := dominators_describe_paths hmade hclosed
  obtain rfl : t = t' := Except.ok.inj (ht.symm.trans ht')
  have hne : (⟨3⟩ : BlockId) ≠ c.entry := by
    intro hentry
    rw [hnone ⟨3⟩ (.inl hentry)] at hhead
    cases hhead
  obtain ⟨q, hq, -, hlowest⟩ := hparent ⟨3⟩ hend hne
  obtain rfl : q = ⟨1⟩ := Option.some.inj (hq.symm.trans hhead)
  refine ⟨made, c, t, hwritten, hmade, hclosed, ht, ?_, ?_, hq, hlowest⟩
  · exact (((hdom _ _).1 hcall).resolve_left (by decide)).2.2
  · rw [← hreach, hnowhere]
    decide

end Body

end Devirt
