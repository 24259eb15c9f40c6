import Devirt.Body.Dominance
import Devirt.Proofs.TreeWalk

/-!
Dominator trees of flow graphs. A block dominates another one if every path from the entry to the
other one passes it. Strict dominance orders the blocks above a block in a line, so the tree of
immediate dominators holds the whole relation, and so do the numbers given to its blocks.
-/

namespace Devirt

open Relation

/-! ### Paths that avoid a node -/

section Avoids

variable {α : Type} {r : α → α → Prop} {e a b c : α}

/-- There is a path from `e` to `b` that does not meet `a`. -/
def Avoids (r : α → α → Prop) (e a b : α) : Prop :=
  e ≠ a ∧ ReflTransGen (fun x y => r x y ∧ y ≠ a) e b

theorem Avoids.reaches (h : Avoids r e a b) : ReflTransGen r e b :=
  ReflTransGen.mono (fun _ _ h => h.1) _ _ h.2

theorem Avoids.ne (h : Avoids r e a b) : b ≠ a := by
  rcases h.2.cases_tail with rfl | ⟨_, _, hstep⟩
  · exact h.1
  · exact hstep.2

theorem Avoids.tail (h : Avoids r e a b) (hstep : r b c) (hne : c ≠ a) : Avoids r e a c :=
  ⟨h.1, h.2.tail ⟨hstep, hne⟩⟩

/-- A path that avoids a node may be made longer by a path that avoids it too. -/
theorem Avoids.trans (h : Avoids r e a b)
    (hbc : ReflTransGen (fun x y => r x y ∧ y ≠ a) b c) : Avoids r e a c :=
  ⟨h.1, h.2.trans hbc⟩

/-- On a path that avoids a node, no step starts there either. -/
theorem Avoids.sources (h : Avoids r e a b) {q : α → α → Prop}
    (hq : ∀ x y, x ≠ a → y ≠ a → r x y → q x y) : ReflTransGen q e b := by
  obtain ⟨hne, hpath⟩ := h
  induction hpath with
  | refl => exact .refl
  | tail hx hstep ih => exact ih.tail (hq _ _ (Avoids.ne ⟨hne, hx⟩) hstep.2 hstep.1)

/-- A path either avoids a node or leads to it first. -/
theorem avoids_or_reaches (h : ReflTransGen r e b) (a : α) :
    Avoids r e a b ∨ ReflTransGen r e a := by
  induction h with
  | refl =>
    by_cases hea : e = a
    · exact .inr (hea ▸ .refl)
    · exact .inl ⟨hea, .refl⟩
  | @tail x y hx hstep ih =>
    rcases ih with ih | ih
    · by_cases hya : y = a
      · exact .inr (hya ▸ hx.tail hstep)
      · exact .inl (ih.tail hstep hya)
    · exact .inr ih

/-- A path that avoids `a` also avoids `b`, or its beginning leads to `b`. -/
theorem Avoids.or_of (h : Avoids r e a c) (b : α) : Avoids r e b c ∨ Avoids r e a b := by
  obtain ⟨hne, hpath⟩ := h
  induction hpath with
  | refl =>
    by_cases heb : e = b
    · exact .inr ⟨hne, heb ▸ .refl⟩
    · exact .inl ⟨heb, .refl⟩
  | @tail x y hx hstep ih =>
    rcases ih with ih | ih
    · by_cases hyb : y = b
      · exact .inr ⟨hne, hyb ▸ hx.tail hstep⟩
      · exact .inl (ih.tail hstep.1 hyb)
    · exact .inr ih

/-- Of two nodes one can be reached without the other. -/
theorem avoids_or_avoids (h : ReflTransGen r e b) (hne : a ≠ b) :
    Avoids r e a b ∨ Avoids r e b a := by
  have hboth : ∀ x, ReflTransGen r e x →
      (Avoids r e a b ∨ Avoids r e b a) ∨ (Avoids r e a x ∧ Avoids r e b x) := by
    intro x hx
    induction hx with
    | refl =>
      by_cases hea : e = a
      · exact .inl (.inr ⟨hea ▸ hne, hea ▸ .refl⟩)
      · by_cases heb : e = b
        · exact .inl (.inl ⟨hea, heb ▸ .refl⟩)
        · exact .inr ⟨⟨hea, .refl⟩, heb, .refl⟩
    | @tail x y hx hstep ih =>
      rcases ih with ih | ⟨iha, ihb⟩
      · exact .inl ih
      · by_cases hya : y = a
        · exact .inl (.inr (hya ▸ ihb.tail hstep (hya ▸ hne)))
        · by_cases hyb : y = b
          · exact .inl (.inl (hyb ▸ iha.tail hstep hya))
          · exact .inr ⟨iha.tail hstep hya, ihb.tail hstep hyb⟩
  rcases hboth b h with h | ⟨-, h⟩
  · exact h
  · exact absurd rfl h.ne

/-- A path avoids `a`, or from some point on it leads from `a` to its end without `b`, or the other way
round. -/
theorem avoids_or_last (h : ReflTransGen r e c) (a b : α) :
    Avoids r e a c ∨ ReflTransGen (fun x y => r x y ∧ y ≠ b) a c ∨
      ReflTransGen (fun x y => r x y ∧ y ≠ a) b c := by
  induction h with
  | refl =>
    by_cases hea : e = a
    · exact .inr (.inl (hea ▸ .refl))
    · exact .inl ⟨hea, .refl⟩
  | @tail x y _ hstep ih =>
    by_cases hya : y = a
    · exact .inr (.inl (hya ▸ .refl))
    by_cases hyb : y = b
    · exact .inr (.inr (hyb ▸ .refl))
    rcases ih with ih | ih | ih
    · exact .inl (ih.tail hstep hya)
    · exact .inr (.inl (ih.tail ⟨hstep, hyb⟩))
    · exact .inr (.inr (ih.tail ⟨hstep, hya⟩))

end Avoids

private theorem lookup_eq_some_iff_of_nodup {β γ : Type} [DecidableEq β] {l : List (β × γ)}
    (hl : (l.map (·.1)).Nodup) {b : β} {x : γ} : l.lookup b = some x ↔ (b, x) ∈ l := by
  rw [List.lookup_eq_some_iff]
  constructor
  · rintro ⟨l₁, l₂, rfl, -⟩
    simp
  · intro hmem
    obtain ⟨l₁, l₂, rfl⟩ := List.append_of_mem hmem
    refine ⟨l₁, l₂, rfl, fun p hp => ?_⟩
    rw [List.map_append, List.nodup_append] at hl
    have hne := hl.2.2 p.1 (List.mem_map_of_mem hp) b (by simp)
    simpa using Ne.symm hne

/-! ### Flow graphs and their trees -/

namespace FlowGraph

variable {g : FlowGraph} {a b c : BlockId}

private theorem mem_edges_of_mem_next (h : b ∈ g.next a) : (a, g.next a) ∈ g.edges := by
  unfold next at h ⊢
  cases hl : g.edges.lookup a with
  | none => simp [hl] at h
  | some l =>
    obtain ⟨l₁, l₂, heq, -⟩ := List.lookup_eq_some_iff.1 hl
    simp [heq]

private theorem sum_next_le (next : BlockId → List BlockId)
    (hnext : ∀ a, (next a).length ≤ (g.next a).length) :
    ∑ a ∈ g.blocks.toFinset.filter (fun a => g.next a ≠ []), (next a).length ≤ g.edgeCount := by
  refine sum_length_le_of_records (fun a => (a, g.next a)) ?_ ?_
  · intro a _ b _ h
    exact congrArg Prod.fst h
  · intro a ha
    obtain ⟨b, hb⟩ := List.exists_mem_of_ne_nil _ (Finset.mem_filter.1 ha).2
    exact ⟨mem_edges_of_mem_next hb, hnext a⟩

private theorem next_eq_nil (h : a ∉ g.blocks.toFinset.filter (fun a => g.next a ≠ [])) :
    g.next a = [] := by
  by_contra hne
  obtain ⟨b, hb⟩ := List.exists_mem_of_ne_nil _ hne
  refine h (Finset.mem_filter.2 ⟨List.mem_toFinset.2 ?_, hne⟩)
  exact List.mem_map.2 ⟨_, mem_edges_of_mem_next hb, rfl⟩

theorem mem_reachable : b ∈ g.reachable ↔ ReflTransGen (Leads g.next) g.entry b := by
  rw [reachable, mem_breadthFirst_iff (g.blocks.toFinset.filter fun a => g.next a ≠ [])
    fun a ha => next_eq_nil ha]
  · simp
  · have := sum_next_le (g := g) g.next fun _ => Nat.le_refl _
    rw [List.length_singleton]
    omega

theorem mem_reachableAvoiding :
    b ∈ g.reachableAvoiding a ↔ Avoids (Leads g.next) g.entry a b := by
  rw [reachableAvoiding, mem_breadthFirst_iff (g.blocks.toFinset.filter fun a => g.next a ≠ [])
    fun x hx => by simp [next_eq_nil hx]]
  · have hleads : (Leads fun b => (g.next b).filter (· ≠ a)) =
        fun x y => Leads g.next x y ∧ y ≠ a := by
      funext x y
      simp [Leads]
    rw [hleads, Avoids]
    by_cases h : g.entry = a <;> simp [h]
  · have := sum_next_le (g := g) (fun b => (g.next b).filter (· ≠ a))
      fun b => List.length_filter_le _ _
    have hlen : ([g.entry].filter (· ≠ a)).length ≤ 1 := List.length_filter_le _ _
    omega

/-! ### Strict dominance -/

/-- The second block is reachable, but only by way of the first one. -/
def StrictlyDominates (g : FlowGraph) (a b : BlockId) : Prop :=
  a ≠ b ∧ ReflTransGen (Leads g.next) g.entry b ∧ ¬ Avoids (Leads g.next) g.entry a b

namespace StrictlyDominates

theorem reaches_left (h : g.StrictlyDominates a b) : ReflTransGen (Leads g.next) g.entry a :=
  (avoids_or_reaches h.2.1 a).resolve_left h.2.2

theorem asymm (hab : g.StrictlyDominates a b) : ¬ g.StrictlyDominates b a := by
  intro hba
  rcases avoids_or_avoids hab.2.1 hab.1 with h | h
  · exact hab.2.2 h
  · exact hba.2.2 h

theorem trans (hab : g.StrictlyDominates a b) (hbc : g.StrictlyDominates b c) :
    g.StrictlyDominates a c := by
  refine ⟨?_, hbc.2.1, fun hac => ?_⟩
  · rintro rfl
    exact hab.asymm hbc
  · rcases hac.or_of b with h | h
    · exact hbc.2.2 h
    · exact hab.2.2 h

/-- The blocks above a block stand in line. -/
theorem total (hac : g.StrictlyDominates a c) (hbc : g.StrictlyDominates b c) :
    a = b ∨ g.StrictlyDominates a b ∨ g.StrictlyDominates b a := by
  by_contra hnone
  simp only [not_or, StrictlyDominates, not_and, not_not] at hnone
  obtain ⟨hne, hab, hba⟩ := hnone
  have hab := hab hne hbc.reaches_left
  have hba := hba (Ne.symm hne) hac.reaches_left
  rcases avoids_or_last hac.2.1 a b with h | h | h
  · exact hac.2.2 h
  · exact hbc.2.2 (hba.trans h)
  · exact hac.2.2 (hab.trans h)

end StrictlyDominates

theorem strictlyDominates_entry (hb : ReflTransGen (Leads g.next) g.entry b) (hne : b ≠ g.entry) :
    g.StrictlyDominates g.entry b :=
  ⟨hne.symm, hb, fun h => h.1 rfl⟩

theorem nodup_reachable (g : FlowGraph) : g.reachable.Nodup := nodup_breadthFirst List.nodup_nil

theorem grown_reachable (g : FlowGraph) : Grown g.next [g.entry] g.reachable :=
  grown_breadthFirst (fun _ ha => .inl ha) (by simp [Grown])

/-- What has been found up to a block contains a path to it. -/
theorem avoids_of_notMem {l₁ l₂ : List BlockId} (hsplit : g.reachable = l₁ ++ b :: l₂)
    (ha : a ∉ l₁) (hne : a ≠ b) : Avoids (Leads g.next) g.entry a b := by
  induction hn : l₁.length using Nat.strong_induction_on generalizing l₁ b l₂ with
  | _ n ih =>
  rcases g.grown_reachable l₁ b l₂ hsplit with hstart | ⟨x, hx, hstep⟩
  · rw [List.mem_singleton] at hstart
    subst hstart
    exact ⟨hne.symm, .refl⟩
  · obtain ⟨l₃, l₄, rfl⟩ := List.append_of_mem hx
    have hax : a ≠ x := by
      rintro rfl
      exact ha hx
    have hsplit' : g.reachable = l₃ ++ x :: (l₄ ++ b :: l₂) := by simpa using hsplit
    have ha' : a ∉ l₃ := fun h => ha (List.mem_append_left _ h)
    have hx' := ih l₃.length (by simp [← hn]) hsplit' ha' hax rfl
    exact hx'.tail hstep hne.symm

theorem mem_of_strictlyDominates {l₁ l₂ : List BlockId} (hsplit : g.reachable = l₁ ++ b :: l₂)
    (hab : g.StrictlyDominates a b) : a ∈ l₁ := by
  by_contra ha
  exact hab.2.2 (avoids_of_notMem hsplit ha hab.1)

/-- A search finds a block after the blocks that dominate it. -/
theorem pairwise_reachable (g : FlowGraph) :
    g.reachable.Pairwise fun a b => ¬ g.StrictlyDominates b a := by
  rw [List.pairwise_iff_forall_sublist]
  intro a b hsub hba
  obtain ⟨l, l', hsplit, ha, hb⟩ := List.cons_sublist_iff.1 hsub
  obtain ⟨l₁, l₂, rfl⟩ := List.append_of_mem ha
  have hb₁ : b ∈ l₁ := mem_of_strictlyDominates (by simpa using hsplit) hba
  have hdisjoint := List.disjoint_of_nodup_append (hsplit ▸ g.nodup_reachable)
  exact hdisjoint (List.mem_append_left _ hb₁) (List.singleton_sublist.1 hb)

theorem idxOf_lt_of_strictlyDominates (hab : g.StrictlyDominates a b) :
    g.reachable.idxOf a < g.reachable.idxOf b := by
  obtain ⟨l₁, l₂, hsplit⟩ := List.append_of_mem (mem_reachable.2 hab.2.1)
  have ha : a ∈ l₁ := mem_of_strictlyDominates hsplit hab
  have hb : b ∉ l₁ := by
    have hnodup := g.nodup_reachable
    rw [hsplit, List.nodup_append] at hnodup
    exact fun hb => hnodup.2.2 b hb b (by simp) rfl
  rw [hsplit, List.idxOf_append_of_mem ha, List.idxOf_append_of_notMem hb, List.idxOf_cons_self]
  have := List.idxOf_lt_length_of_mem ha
  omega

/-! ### Immediate dominators -/

/-- The lowest of the blocks that dominate a block strictly. -/
def ImmediatelyDominates (g : FlowGraph) (a b : BlockId) : Prop :=
  g.StrictlyDominates a b ∧ ∀ x, g.StrictlyDominates x b → x = a ∨ g.StrictlyDominates x a

theorem ImmediatelyDominates.unique (ha : g.ImmediatelyDominates a c)
    (hb : g.ImmediatelyDominates b c) : a = b := by
  rcases hb.2 a ha.1 with hab | hab
  · exact hab
  · rcases ha.2 b hb.1 with hba | hba
    · exact hba.symm
    · exact absurd hba hab.asymm

/-- The blocks that dominate a block strictly, in the order they are found. -/
def dominatorsOf (g : FlowGraph) (b : BlockId) : List BlockId :=
  g.reachable.filter fun a =>
    decide (b ∈ g.reachable.filter fun b => b ≠ a && b ∉ g.reachableAvoiding a)

theorem mem_dominatorsOf : a ∈ g.dominatorsOf b ↔ g.StrictlyDominates a b := by
  simp only [dominatorsOf, List.mem_filter, decide_eq_true_eq, Bool.and_eq_true, mem_reachable,
    mem_reachableAvoiding]
  constructor
  · rintro ⟨-, hb, hne, hnot⟩
    exact ⟨Ne.symm hne, hb, hnot⟩
  · intro hab
    exact ⟨hab.reaches_left, hab.2.1, hab.1.symm, hab.2.2⟩

theorem immediateDominators_eq (g : FlowGraph) :
    g.immediateDominators =
      g.reachable.filterMap fun b => (g.dominatorsOf b).getLast?.map fun a => (b, a) := by
  simp only [immediateDominators, dominatorsOf, List.filter_map, List.getLast?_map, Option.map_map]
  rfl

theorem immediatelyDominates_of_getLast? (ha : (g.dominatorsOf b).getLast? = some a) :
    g.ImmediatelyDominates a b := by
  obtain ⟨l, hl⟩ := List.getLast?_eq_some_iff.1 ha
  refine ⟨mem_dominatorsOf.1 (by simp [hl]), fun x hx => ?_⟩
  have hmem : x ∈ l ++ [a] := hl ▸ mem_dominatorsOf.2 hx
  have hpairwise : (g.dominatorsOf b).Pairwise fun x y => ¬ g.StrictlyDominates y x :=
    g.pairwise_reachable.filter _
  rw [hl, List.pairwise_append] at hpairwise
  rcases List.mem_append.1 hmem with hmem | hmem
  · have hnot := hpairwise.2.2 x hmem a (List.mem_singleton_self a)
    rcases hx.total (mem_dominatorsOf.1 (by simp [hl] : a ∈ g.dominatorsOf b)) with h | h | h
    · exact .inl h
    · exact .inr h
    · exact absurd h hnot
  · exact .inl (List.mem_singleton.1 hmem)

/-- A block that has strict dominators has a lowest one. -/
theorem exists_getLast?_dominatorsOf (hab : g.StrictlyDominates a b) :
    ∃ q, (g.dominatorsOf b).getLast? = some q := by
  have hne : g.dominatorsOf b ≠ [] := List.ne_nil_of_mem (mem_dominatorsOf.2 hab)
  exact ⟨_, List.getLast?_eq_some_getLast hne⟩

theorem mem_immediateDominators :
    (b, a) ∈ g.immediateDominators ↔ g.ImmediatelyDominates a b := by
  rw [immediateDominators_eq, List.mem_filterMap]
  constructor
  · rintro ⟨b', -, h⟩
    obtain ⟨q, hq, heq⟩ := Option.map_eq_some_iff.1 h
    cases heq
    exact immediatelyDominates_of_getLast? hq
  · intro hab
    obtain ⟨q, hq⟩ := exists_getLast?_dominatorsOf hab.1
    refine ⟨b, mem_reachable.2 hab.1.2.1, ?_⟩
    rw [hq, hab.unique (immediatelyDominates_of_getLast? hq)]
    rfl

theorem exists_immediatelyDominates (hab : g.StrictlyDominates a b) :
    ∃ q, g.ImmediatelyDominates q b := by
  obtain ⟨q, hq⟩ := exists_getLast?_dominatorsOf hab
  exact ⟨q, immediatelyDominates_of_getLast? hq⟩

theorem nodup_immediateDominators (g : FlowGraph) : (g.immediateDominators.map (·.1)).Nodup := by
  rw [immediateDominators_eq, List.map_filterMap]
  apply g.nodup_reachable.filterMap
  intro x y b hx hy
  obtain ⟨p, hp, rfl⟩ := Option.map_eq_some_iff.1 hx
  obtain ⟨q, hq, heq⟩ := Option.map_eq_some_iff.1 hy
  obtain ⟨_, -, rfl⟩ := Option.map_eq_some_iff.1 hp
  obtain ⟨_, -, rfl⟩ := Option.map_eq_some_iff.1 hq
  exact heq.symm

theorem lookup_immediateDominators :
    g.immediateDominators.lookup b = some a ↔ g.ImmediatelyDominates a b :=
  (lookup_eq_some_iff_of_nodup g.nodup_immediateDominators).trans mem_immediateDominators

theorem not_strictlyDominates_entry : ¬ g.StrictlyDominates a g.entry :=
  fun h => h.2.2 ⟨h.1.symm, .refl⟩

/-- The flow graph determines the immediate dominators: any function that finds one for each
reachable block other than the entry finds those of the list. -/
theorem lookup_immediateDominators_eq {idom : BlockId → Option BlockId}
    (hsound : ∀ b ∈ g.reachable, ∀ a, idom b = some a → g.ImmediatelyDominates a b)
    (htotal : ∀ b ∈ g.reachable, b ≠ g.entry → (idom b).isSome = true) (hb : b ∈ g.reachable) :
    g.immediateDominators.lookup b = idom b := by
  cases hidom : idom b with
  | some a => exact lookup_immediateDominators.2 (hsound b hb a hidom)
  | none =>
    have hentry : b = g.entry := by
      by_contra hne
      simpa [hidom] using htotal b hb hne
    rw [Option.eq_none_iff_forall_not_mem]
    intro a ha
    rw [hentry, Option.mem_def, lookup_immediateDominators] at ha
    exact not_strictlyDominates_entry ha.1

end FlowGraph

namespace DominatorTree

open FlowGraph

variable {g : FlowGraph} {a b : BlockId} {n : Nat}

/-! ### The tree -/

theorem mem_childrenOf :
    b ∈ childrenOf g.immediateDominators a ↔ g.ImmediatelyDominates a b := by
  rw [childrenOf, List.mem_map]
  constructor
  · rintro ⟨⟨b', a'⟩, hp, rfl⟩
    rw [List.mem_filter, decide_eq_true_eq] at hp
    exact hp.2 ▸ mem_immediateDominators.1 hp.1
  · intro hab
    exact ⟨(b, a), List.mem_filter.2 ⟨mem_immediateDominators.2 hab, by simp⟩, rfl⟩

theorem forest_immediateDominators (g : FlowGraph) : Forest (childrenOf g.immediateDominators) where
  nodup a := g.nodup_immediateDominators.sublist (List.filter_sublist.map _)
  unique a b c ha hb := (mem_childrenOf.1 ha).unique (mem_childrenOf.1 hb)
  wf := by
    apply Subrelation.wf _ (measure fun a => g.reachable.length - g.reachable.idxOf a).wf
    intro b a hba
    have hab := (mem_childrenOf.1 hba).1
    have hlt := idxOf_lt_of_strictlyDominates hab
    have hb := List.idxOf_lt_length_of_mem (mem_reachable.2 hab.2.1)
    show g.reachable.length - g.reachable.idxOf b < g.reachable.length - g.reachable.idxOf a
    omega

/-- What stands above a block in the tree dominates it, and conversely. -/
theorem reaches_childrenOf_iff :
    ReflTransGen (Leads (childrenOf g.immediateDominators)) a b ↔ a = b ∨ g.StrictlyDominates a b := by
  constructor
  · intro h
    induction h with
    | refl => exact .inl rfl
    | tail _ hstep ih =>
      have hsd := (mem_childrenOf.1 hstep).1
      rcases ih with rfl | ih
      · exact .inr hsd
      · exact .inr (ih.trans hsd)
  · rintro (rfl | hab)
    · exact .refl
    · induction hn : g.reachable.idxOf b using Nat.strong_induction_on generalizing b with
      | _ n ih =>
      obtain ⟨q, hq⟩ := exists_immediatelyDominates hab
      have hstep : Leads (childrenOf g.immediateDominators) q b := mem_childrenOf.2 hq
      rcases hq.2 a hab with rfl | haq
      · exact .single hstep
      · have hlt := idxOf_lt_of_strictlyDominates hq.1
        exact (ih _ (hn ▸ hlt) haq rfl).tail hstep

theorem walked_ofFlow (g : FlowGraph) (n : Nat) :
    Walked (childrenOf g.immediateDominators) [g.entry] 0 (ofFlow g n).numbering := by
  obtain ⟨l, hl⟩ := (forest_immediateDominators g).exists_walked g.entry 0
  -- the entry and the blocks with a parent are all there is to number
  have hlength : l.length ≤ g.immediateDominators.length + 1 := by
    have hsub : l.map (·.1) ⊆ g.entry :: g.immediateDominators.map (·.1) := by
      intro b hb
      obtain ⟨e, he, hreach⟩ := (hl.mem_iff b).1 hb
      rw [List.mem_singleton] at he
      subst he
      rcases reaches_childrenOf_iff.1 hreach with rfl | hsd
      · exact List.mem_cons_self
      · obtain ⟨q, hq⟩ := exists_immediatelyDominates hsd
        exact List.mem_cons_of_mem _ (List.mem_map.2 ⟨_, mem_immediateDominators.2 hq, rfl⟩)
    have := (hl.nodup.subperm hsub).length_le
    simpa using this
  have hrun := hl.run (2 * (g.immediateDominators.length + 1) - 2 * l.length) []
  rw [show 2 * l.length + (2 * (g.immediateDominators.length + 1) - 2 * l.length) =
    2 * (g.immediateDominators.length + 1) by omega, List.append_nil, numberTree_nil,
    List.append_nil] at hrun
  have hnumbering : (ofFlow g n).numbering = l := hrun
  rwa [hnumbering]

theorem span?_ofFlow {s : Span} :
    (ofFlow g n).span? b = some s ↔ (b, s) ∈ (ofFlow g n).numbering :=
  lookup_eq_some_iff_of_nodup (walked_ofFlow g n).nodup

theorem isReachable_ofFlow :
    (ofFlow g n).isReachable b = true ↔ ReflTransGen (Leads g.next) g.entry b := by
  rw [isReachable, Option.isSome_iff_exists]
  simp only [span?_ofFlow]
  have hmem := (walked_ofFlow g n).mem_iff b
  simp only [List.mem_map, Prod.exists, exists_and_right, exists_eq_right, List.mem_singleton,
    exists_eq_left] at hmem
  rw [hmem, reaches_childrenOf_iff]
  constructor
  · rintro (rfl | hsd)
    · exact .refl
    · exact hsd.2.1
  · intro hb
    by_cases hne : b = g.entry
    · exact .inl hne.symm
    · exact .inr (strictlyDominates_entry hb hne)

/-- The spans of two reachable blocks tell whether one is above the other. -/
theorem covers_ofFlow {s u : Span} (hs : (ofFlow g n).span? a = some s)
    (hu : (ofFlow g n).span? b = some u) :
    s.covers u = true ↔ a = b ∨ g.StrictlyDominates a b := by
  rw [← reaches_childrenOf_iff]
  exact (walked_ofFlow g n).covers_iff (a, s) (span?_ofFlow.1 hs) (b, u) (span?_ofFlow.1 hu)

theorem dominates_ofFlow :
    (ofFlow g n).dominates a b = true ↔
      a = b ∨ (ReflTransGen (Leads g.next) g.entry b ∧ ¬ Avoids (Leads g.next) g.entry a b) := by
  simp only [dominates, Bool.or_eq_true, decide_eq_true_eq, Option.any_eq_true]
  constructor
  · rintro (hab | ⟨s, hs, u, hu, hcovers⟩)
    · exact .inl hab
    · exact ((covers_ofFlow hs hu).1 hcovers).imp_right And.right
  · rintro (hab | ⟨hb, hnot⟩)
    · exact .inl hab
    · by_cases hab : a = b
      · exact .inl hab
      have hsd : g.StrictlyDominates a b := ⟨hab, hb, hnot⟩
      obtain ⟨s, hs⟩ := Option.isSome_iff_exists.1 (isReachable_ofFlow (n := n).2 hsd.reaches_left)
      obtain ⟨u, hu⟩ := Option.isSome_iff_exists.1 (isReachable_ofFlow (n := n).2 hb)
      exact .inr ⟨s, hs, u, hu, (covers_ofFlow hs hu).2 (.inr hsd)⟩

theorem strictlyDominates_ofFlow :
    (ofFlow g n).strictlyDominates a b = true ↔ g.StrictlyDominates a b := by
  simp only [strictlyDominates, Bool.and_eq_true, decide_eq_true_eq, dominates_ofFlow]
  constructor
  · rintro ⟨hne, hab | hab⟩
    · exact absurd hab hne
    · exact ⟨hne, hab⟩
  · intro hab
    exact ⟨hab.1, .inr hab.2⟩

theorem parent?_ofFlow : (ofFlow g n).parent? b = some a ↔ g.ImmediatelyDominates a b :=
  lookup_immediateDominators

/-- The parent of a block is the strict dominator that the others dominate. -/
theorem parent?_eq_some_iff :
    (ofFlow g n).parent? b = some a ↔
      (ofFlow g n).strictlyDominates a b = true ∧
        ∀ x, (ofFlow g n).strictlyDominates x b = true → (ofFlow g n).dominates x a = true := by
  simp only [parent?_ofFlow, ImmediatelyDominates, strictlyDominates_ofFlow, dominates_ofFlow]
  constructor
  · rintro ⟨hab, hlowest⟩
    exact ⟨hab, fun x hx => (hlowest x hx).imp_right And.right⟩
  · rintro ⟨hab, hlowest⟩
    refine ⟨hab, fun x hx => ?_⟩
    by_cases hxa : x = a
    · exact .inl hxa
    · exact .inr ⟨hxa, (hlowest x hx).resolve_left hxa⟩

/-- The blocks with a parent are the reachable ones other than the entry. -/
theorem exists_parent?_iff :
    (∃ a, (ofFlow g n).parent? b = some a) ↔
      (ofFlow g n).isReachable b = true ∧ b ≠ g.entry := by
  simp only [parent?_ofFlow, isReachable_ofFlow]
  constructor
  · rintro ⟨a, hab, -⟩
    refine ⟨hab.2.1, ?_⟩
    rintro rfl
    exact not_strictlyDominates_entry hab
  · rintro ⟨hb, hne⟩
    exact exists_immediatelyDominates (strictlyDominates_entry hb hne)

end DominatorTree

end Devirt
