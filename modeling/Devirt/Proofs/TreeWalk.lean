import Devirt.Proofs.BreadthFirst
import Devirt.TreeWalk

/-!
The walk over a tree lists every node below its start once, and the span of a node covers the span
of another one exactly if the other one is below it.
-/

namespace Devirt

open Relation

variable {α : Type} {children : α → List α} {a b c x : α} {roots as : List α} {time : Nat}

theorem Span.covers_iff {s t : Span} :
    s.covers t = true ↔ s.enter ≤ t.enter ∧ t.leave ≤ s.leave := by
  simp [covers]

/-- Of two spans one after the other neither covers the other. -/
theorem Span.not_covers_of_lt {s t : Span} (hs : s.enter < s.leave) (ht : t.enter < t.leave)
    (hst : s.leave < t.enter) : ¬ s.covers t = true ∧ ¬ t.covers s = true := by
  rw [covers_iff, covers_iff]
  omega

/-- No node has two parents or is below itself. -/
structure Forest (children : α → List α) : Prop where
  nodup : ∀ a, (children a).Nodup
  unique : ∀ a b c, c ∈ children a → c ∈ children b → a = b
  wf : WellFounded fun b a => b ∈ children a

namespace Forest

variable (hf : Forest children)
include hf

/-- Nothing leads back from a child. -/
theorem not_reaches_parent (hab : b ∈ children a) : ¬ ReflTransGen (Leads children) b a := by
  intro hba
  have hcycle : TransGen (fun y x => y ∈ children x) a a :=
    transGen_swap.1 (TransGen.head' hab hba)
  exact hf.wf.transGen.irrefl.irrefl a hcycle

/-- Of two nodes above a third one, one is above the other. -/
theorem reaches_total (hac : ReflTransGen (Leads children) a c)
    (hbc : ReflTransGen (Leads children) b c) :
    ReflTransGen (Leads children) a b ∨ ReflTransGen (Leads children) b a := by
  have hunique : Relator.RightUnique (Function.swap (Leads children)) :=
    fun x y z hxy hxz => hf.unique y z x hxy hxz
  rcases ReflTransGen.total_of_right_unique hunique (reflTransGen_swap.2 hac)
    (reflTransGen_swap.2 hbc) with h | h
  · exact .inr (reflTransGen_swap.1 h)
  · exact .inl (reflTransGen_swap.1 h)

/-- Two children of a node have no descendant in common. -/
theorem eq_of_common_descendant (hb : b ∈ children a) (hc : c ∈ children a)
    (hbx : ReflTransGen (Leads children) b x) (hcx : ReflTransGen (Leads children) c x) : b = c := by
  have hsame : ∀ {y z}, y ∈ children a → z ∈ children a →
      ReflTransGen (Leads children) y z → y = z := by
    intro y z hy hz hyz
    rcases hyz.cases_tail with rfl | ⟨w, hyw, hwz⟩
    · rfl
    · obtain rfl : w = a := hf.unique w a z hwz hz
      exact absurd hyw (hf.not_reaches_parent hy)
  rcases hf.reaches_total hbx hcx with hbc | hcb
  · exact hsame hb hc hbc
  · exact (hsame hc hb hcb).symm

end Forest

/-- The list is what a walk adds that enters the roots one after the other from the given time on:
each descendant of the roots once, with spans in the time the walk takes, which cover each other
exactly as the nodes are above each other. -/
structure Walked (children : α → List α) (roots : List α) (time : Nat) (l : List (α × Span)) :
    Prop where
  run : ∀ rounds stack, numberTree children (2 * l.length + rounds) (roots.map .enter ++ stack) time =
    l ++ numberTree children rounds stack (time + 2 * l.length)
  nodup : (l.map (·.1)).Nodup
  mem_iff : ∀ b, b ∈ l.map (·.1) ↔ ∃ a ∈ roots, ReflTransGen (Leads children) a b
  within : ∀ p ∈ l, time ≤ p.2.enter ∧ p.2.enter < p.2.leave ∧ p.2.leave < time + 2 * l.length
  covers_iff : ∀ p ∈ l, ∀ q ∈ l,
    (p.2.covers q.2 = true ↔ ReflTransGen (Leads children) p.1 q.1)

namespace Walked

variable {l l' : List (α × Span)}

theorem nil (children : α → List α) (time : Nat) : Walked children [] time [] where
  run := by simp
  nodup := List.nodup_nil
  mem_iff := by simp
  within := by simp
  covers_iff := by simp

theorem exists_root (hl : Walked children roots time l) {p : α × Span} (hp : p ∈ l) :
    ∃ a ∈ roots, ReflTransGen (Leads children) a p.1 :=
  (hl.mem_iff p.1).1 (List.mem_map_of_mem hp)

/-- A walk over one tree is followed by a walk over trees that share no node with it. -/
theorem append (hl : Walked children [a] time l) (hl' : Walked children as (time + 2 * l.length) l')
    (hdisjoint : ∀ b ∈ as, ∀ x, ReflTransGen (Leads children) a x →
      ¬ ReflTransGen (Leads children) b x) :
    Walked children (a :: as) time (l ++ l') := by
  have hapart : ∀ p ∈ l, ∀ q ∈ l', ∀ x, ReflTransGen (Leads children) p.1 x →
      ¬ ReflTransGen (Leads children) q.1 x := by
    intro p hp q hq x hpx hqx
    obtain ⟨e, he, hep⟩ := hl.exists_root hp
    obtain ⟨b, hb, hbq⟩ := hl'.exists_root hq
    rw [List.mem_singleton] at he
    subst he
    exact hdisjoint b hb x (hep.trans hpx) (hbq.trans hqx)
  refine ⟨?_, ?_, ?_, ?_, ?_⟩
  · intro rounds stack
    have hrounds : 2 * (l ++ l').length + rounds = 2 * l.length + (2 * l'.length + rounds) := by
      rw [List.length_append]
      omega
    have hfirst := hl.run (2 * l'.length + rounds) (as.map .enter ++ stack)
    have hnext := hl'.run rounds stack
    rw [hrounds]
    rw [List.map_singleton, List.singleton_append] at hfirst
    rw [List.map_cons, List.cons_append, hfirst, hnext, List.append_assoc, List.length_append,
      Nat.mul_add, Nat.add_assoc]
  · rw [List.map_append, List.nodup_append]
    refine ⟨hl.nodup, hl'.nodup, ?_⟩
    intro x hx y hy hxy
    obtain ⟨p, hp, rfl⟩ := List.mem_map.1 hx
    obtain ⟨q, hq, rfl⟩ := List.mem_map.1 hy
    exact hapart p hp q hq q.1 (hxy ▸ .refl) .refl
  · intro b
    rw [List.map_append, List.mem_append, hl.mem_iff, hl'.mem_iff]
    simp
  · intro p hp
    rw [List.length_append]
    rcases List.mem_append.1 hp with hp | hp
    · have := hl.within p hp
      omega
    · have := hl'.within p hp
      omega
  · intro p hp q hq
    rcases List.mem_append.1 hp with hp | hp <;> rcases List.mem_append.1 hq with hq | hq
    · exact hl.covers_iff p hp q hq
    -- the first walk is over before the second one begins
    · have hwithin := hl.within p hp
      have hwithin' := hl'.within q hq
      apply iff_of_false
      · exact (Span.not_covers_of_lt hwithin.2.1 hwithin'.2.1 (by omega)).1
      · exact fun hpq => hapart p hp q hq q.1 hpq .refl
    · have hwithin := hl.within q hq
      have hwithin' := hl'.within p hp
      apply iff_of_false
      · exact (Span.not_covers_of_lt hwithin.2.1 hwithin'.2.1 (by omega)).2
      · exact fun hpq => hapart q hq p hp q.1 .refl hpq
    · exact hl'.covers_iff p hp q hq

/-- A walk over the subtrees below a node becomes a walk from that node. -/
theorem node (hf : Forest children) (hl : Walked children (children a) (time + 1) l) :
    Walked children [a] time (l ++ [(a, ⟨time, time + 1 + 2 * l.length⟩)]) := by
  have hnot : ∀ p ∈ l, ¬ ReflTransGen (Leads children) p.1 a := by
    intro p hp hpa
    obtain ⟨b, hb, hbp⟩ := hl.exists_root hp
    exact hf.not_reaches_parent hb (hbp.trans hpa)
  refine ⟨?_, ?_, ?_, ?_, ?_⟩
  · intro rounds stack
    have hrounds : 2 * (l ++ [(a, Span.mk time (time + 1 + 2 * l.length))]).length + rounds =
        2 * l.length + (rounds + 1) + 1 := by
      rw [List.length_append, List.length_singleton]
      omega
    have hrun := hl.run (rounds + 1) (.leave a time :: stack)
    rw [hrounds, List.map_singleton, List.singleton_append, numberTree, hrun, numberTree,
      List.append_assoc, List.singleton_append, List.length_append, List.length_singleton]
    congr 3
    omega
  · rw [List.map_append, List.nodup_append]
    refine ⟨hl.nodup, List.nodup_singleton _, ?_⟩
    rintro x hx y hy rfl
    obtain ⟨p, hp, rfl⟩ := List.mem_map.1 hx
    rw [List.map_singleton, List.mem_singleton] at hy
    exact hnot p hp (hy ▸ .refl)
  · intro b
    rw [List.map_append, List.mem_append, hl.mem_iff, List.map_singleton, List.mem_singleton]
    constructor
    · rintro (⟨c, hc, hcb⟩ | rfl)
      · exact ⟨a, List.mem_singleton_self a, hcb.head hc⟩
      · exact ⟨b, List.mem_singleton_self b, .refl⟩
    · rintro ⟨c, hc, hcb⟩
      rw [List.mem_singleton] at hc
      subst hc
      rcases hcb.cases_head with rfl | ⟨d, hd, hdb⟩
      · exact .inr rfl
      · exact .inl ⟨d, hd, hdb⟩
  · intro p hp
    rw [List.length_append, List.length_singleton]
    rcases List.mem_append.1 hp with hp | hp
    · have := hl.within p hp
      omega
    · rw [List.mem_singleton] at hp
      subst hp
      simp only
      omega
  · intro p hp q hq
    rcases List.mem_append.1 hp with hp | hp <;> rcases List.mem_append.1 hq with hq | hq
    · exact hl.covers_iff p hp q hq
    · rw [List.mem_singleton] at hq
      subst hq
      have hwithin := hl.within p hp
      apply iff_of_false
      · simp only [Span.covers_iff]
        omega
      · exact hnot p hp
    · rw [List.mem_singleton] at hp
      subst hp
      have hwithin := hl.within q hq
      obtain ⟨b, hb, hbq⟩ := hl.exists_root hq
      apply iff_of_true
      · simp only [Span.covers_iff]
        omega
      · exact hbq.head hb
    · rw [List.mem_singleton] at hp hq
      subst hp hq
      exact iff_of_true (Span.covers_iff.2 ⟨le_rfl, le_rfl⟩) .refl

end Walked

/-- From any node the walk runs through the tree below it. -/
theorem Forest.exists_walked (hf : Forest children) (a : α) (time : Nat) :
    ∃ l, Walked children [a] time l := by
  induction a using hf.wf.induction generalizing time with
  | h a ih =>
  -- one subtree after the other, for any children that are left
  have hall : ∀ as : List α, as ⊆ children a → as.Nodup → ∀ time, ∃ l, Walked children as time l := by
    intro as hsub hnodup
    induction as with
    | nil => exact fun time => ⟨[], .nil children time⟩
    | cons b as ihas =>
      intro time
      rw [List.cons_subset] at hsub
      rw [List.nodup_cons] at hnodup
      obtain ⟨l, hl⟩ := ih b hsub.1 time
      obtain ⟨l', hl'⟩ := ihas hsub.2 hnodup.2 (time + 2 * l.length)
      refine ⟨l ++ l', hl.append hl' ?_⟩
      intro c hc x hbx hcx
      have hbc : b = c := hf.eq_of_common_descendant hsub.1 (hsub.2 hc) hbx hcx
      exact hnodup.1 (hbc ▸ hc)
  obtain ⟨l, hl⟩ := hall (children a) (fun _ hb => hb) (hf.nodup a) (time + 1)
  exact ⟨_, hl.node hf⟩

end Devirt
