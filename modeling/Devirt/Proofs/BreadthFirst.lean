import Devirt.BreadthFirst
import Mathlib.Algebra.BigOperators.Group.Finset.Basic
import Mathlib.Algebra.Order.BigOperators.Group.Finset
import Mathlib.Algebra.Order.BigOperators.Group.List
import Mathlib.Data.List.Perm.Subperm
import Mathlib.Logic.Relation

/-!
A breadth-first search with enough rounds finds exactly the nodes that can be reached. The rounds
suffice when they cover the pending nodes and the edges that leave the nodes not found yet.
-/

namespace Devirt

variable {α : Type} [DecidableEq α] {next : α → List α}

/-- The step relation of a graph given by successor lists. -/
def Leads (next : α → List α) (a b : α) : Prop := b ∈ next a

theorem subset_breadthFirst (next : α → List α) (rounds : Nat) (pending found : List α) :
    found ⊆ breadthFirst next rounds pending found := by
  induction rounds generalizing pending found with
  | zero => exact fun _ h => h
  | succ rounds ih =>
    cases pending with
    | nil => exact fun _ h => h
    | cons a pending =>
      simp only [breadthFirst]
      split
      · exact ih pending found
      · exact fun x hx => ih _ _ (List.mem_append_left _ hx)

theorem nodup_breadthFirst {rounds : Nat} {pending found : List α} (hfound : found.Nodup) :
    (breadthFirst next rounds pending found).Nodup := by
  induction rounds generalizing pending found with
  | zero => exact hfound
  | succ rounds ih =>
    cases pending with
    | nil => exact hfound
    | cons a pending =>
      simp only [breadthFirst]
      split
      · exact ih hfound
      · rename_i ha
        apply ih
        rw [List.nodup_append]
        refine ⟨hfound, List.nodup_singleton a, ?_⟩
        intro x hx y hy hxy
        rw [List.mem_singleton] at hy
        exact ha (hy ▸ hxy ▸ hx)

/-- Whatever is found was found before or can be reached from a pending node. -/
theorem breadthFirst_sound {rounds : Nat} {pending found : List α} {b : α}
    (hb : b ∈ breadthFirst next rounds pending found) :
    b ∈ found ∨ ∃ a ∈ pending, Relation.ReflTransGen (Leads next) a b := by
  induction rounds generalizing pending found with
  | zero => exact .inl hb
  | succ rounds ih =>
    cases pending with
    | nil => exact .inl hb
    | cons a pending =>
      simp only [breadthFirst] at hb
      split at hb
      · rcases ih hb with h | ⟨x, hx, hr⟩
        · exact .inl h
        · exact .inr ⟨x, List.mem_cons_of_mem _ hx, hr⟩
      · rcases ih hb with h | ⟨x, hx, hr⟩
        · rcases List.mem_append.1 h with h | h
          · exact .inl h
          · exact .inr ⟨a, by simp, by rw [List.mem_singleton.1 h]⟩
        · rcases List.mem_append.1 hx with hx | hx
          · exact .inr ⟨x, List.mem_cons_of_mem _ hx, hr⟩
          · exact .inr ⟨a, by simp, .head hx hr⟩

/-- Every node of the list is a start node or follows on a node listed before it. -/
def Grown (next : α → List α) (start l : List α) : Prop :=
  ∀ l₁ a l₂, l = l₁ ++ a :: l₂ → a ∈ start ∨ ∃ b ∈ l₁, a ∈ next b

omit [DecidableEq α] in
theorem Grown.concat {start l : List α} {a : α} (hl : Grown next start l)
    (ha : a ∈ start ∨ ∃ b ∈ l, a ∈ next b) : Grown next start (l ++ [a]) := by
  intro l₁ x l₂ heq
  rcases l₂.eq_nil_or_concat with rfl | ⟨l₃, y, rfl⟩
  · obtain ⟨rfl, hax⟩ := List.append_inj' heq rfl
    cases hax
    exact ha
  · rw [List.concat_eq_append, ← List.cons_append, ← List.append_assoc] at heq
    obtain ⟨rfl, -⟩ := List.append_inj' heq rfl
    exact hl l₁ x l₃ rfl

/-- A search finds no node before the one that leads to it. -/
theorem grown_breadthFirst {rounds : Nat} {start pending found : List α}
    (hpending : ∀ a ∈ pending, a ∈ start ∨ ∃ b ∈ found, a ∈ next b)
    (hfound : Grown next start found) :
    Grown next start (breadthFirst next rounds pending found) := by
  induction rounds generalizing pending found with
  | zero => exact hfound
  | succ rounds ih =>
    cases pending with
    | nil => exact hfound
    | cons a pending =>
      rw [List.forall_mem_cons] at hpending
      simp only [breadthFirst]
      split
      · exact ih hpending.2 hfound
      · apply ih _ (hfound.concat hpending.1)
        intro x hx
        rcases List.mem_append.1 hx with hx | hx
        · rcases hpending.2 x hx with hstart | ⟨b, hb, hxb⟩
          · exact .inl hstart
          · exact .inr ⟨b, List.mem_append_left _ hb, hxb⟩
        · exact .inr ⟨a, by simp, hx⟩

/-- The rounds a search may still need. -/
private def workLeft (next : α → List α) (univ : Finset α) (pending found : List α) : Nat :=
  pending.length + ∑ a ∈ univ \ found.toFinset, (next a).length

private theorem workLeft_visit {univ : Finset α} (hu : ∀ a ∉ univ, next a = []) (a : α)
    (pending found : List α) (ha : a ∉ found) :
    workLeft next univ (pending ++ next a) (found ++ [a]) + 1 =
      workLeft next univ (a :: pending) found := by
  have hset : univ \ (found ++ [a]).toFinset = (univ \ found.toFinset).erase a := by
    ext x
    simp only [List.toFinset_append, List.toFinset_cons, List.toFinset_nil, Finset.mem_sdiff,
      Finset.mem_union, List.mem_toFinset, Finset.mem_insert, Finset.notMem_empty, or_false,
      not_or, Finset.mem_erase]
    tauto
  unfold workLeft
  rw [hset, List.length_append, List.length_cons]
  by_cases hmem : a ∈ univ
  · have := Finset.add_sum_erase (univ \ found.toFinset) (fun a => (next a).length)
      (a := a) (by simp [hmem, ha])
    omega
  · have : (univ \ found.toFinset).erase a = univ \ found.toFinset :=
      Finset.erase_eq_of_notMem (by simp [hmem])
    simp only [this, hu a hmem, List.length_nil]
    omega

/-- With enough rounds every pending node is found, and the nodes found are closed under steps. -/
theorem breadthFirst_closed {univ : Finset α} (hu : ∀ a ∉ univ, next a = []) {rounds : Nat}
    {pending found : List α} (hr : workLeft next univ pending found ≤ rounds)
    (hf : ∀ a ∈ found, ∀ b ∈ next a, b ∈ found ∨ b ∈ pending) :
    pending ⊆ breadthFirst next rounds pending found ∧
      ∀ a ∈ breadthFirst next rounds pending found, ∀ b ∈ next a,
        b ∈ breadthFirst next rounds pending found := by
  induction rounds generalizing pending found with
  | zero =>
    have hp : pending = [] := by
      rw [← List.length_eq_zero_iff]
      unfold workLeft at hr
      omega
    subst hp
    exact ⟨by simp, fun a ha b hb => (hf a ha b hb).resolve_right (by simp)⟩
  | succ rounds ih =>
    cases pending with
    | nil => exact ⟨by simp, fun a ha b hb => (hf a ha b hb).resolve_right (by simp)⟩
    | cons a pending =>
      simp only [breadthFirst]
      split
      · rename_i ha
        have hw : workLeft next univ pending found ≤ rounds := by
          simp only [workLeft, List.length_cons] at hr ⊢
          omega
        obtain ⟨h1, h2⟩ := ih hw fun x hx b hb => by
          rcases hf x hx b hb with h | h
          · exact .inl h
          · rcases List.mem_cons.1 h with rfl | h
            · exact .inl ha
            · exact .inr h
        exact ⟨List.cons_subset.2 ⟨subset_breadthFirst _ _ _ _ ha, h1⟩, h2⟩
      · rename_i ha
        have hw := workLeft_visit hu a pending found ha
        obtain ⟨h1, h2⟩ := @ih (pending ++ next a) (found ++ [a]) (by omega)
          fun x hx b hb => by
            rcases List.mem_append.1 hx with hx | hx
            · rcases hf x hx b hb with h | h
              · exact .inl (List.mem_append_left _ h)
              · rcases List.mem_cons.1 h with rfl | h
                · exact .inl (by simp)
                · exact .inr (List.mem_append_left _ h)
            · rw [List.mem_singleton.1 hx] at hb
              exact .inr (List.mem_append_right _ hb)
        refine ⟨List.cons_subset.2 ⟨subset_breadthFirst _ _ _ _ (by simp), ?_⟩, h2⟩
        exact fun x hx => h1 (List.mem_append_left _ hx)

omit [DecidableEq α] in
/-- The edges of a graph written down as a list of records: every node has a record of its own that
covers its successors, so all successor lists together are no longer than the records. -/
theorem sum_length_le_of_records {β : Type} {records : List β} {out : β → List α} {s : Finset α}
    (record : α → β) (hinj : Set.InjOn record s)
    (hrec : ∀ a ∈ s, record a ∈ records ∧ (next a).length ≤ (out (record a)).length) :
    ∑ a ∈ s, (next a).length ≤ (records.flatMap out).length := by
  have hnodup : (s.toList.map record).Nodup :=
    List.Nodup.map_on (fun x hx y hy h => hinj (by simpa using hx) (by simpa using hy) h)
      s.nodup_toList
  have hsub : s.toList.map record ⊆ records := by
    intro b hb
    obtain ⟨a, ha, rfl⟩ := List.mem_map.1 hb
    exact (hrec a (by simpa using ha)).1
  obtain ⟨l, hperm, hl⟩ := hnodup.subperm hsub
  calc ∑ a ∈ s, (next a).length
      ≤ ∑ a ∈ s, (out (record a)).length := Finset.sum_le_sum fun a ha => (hrec a ha).2
    _ = ((s.toList.map record).map fun b => (out b).length).sum := by
        rw [List.map_map, ← Finset.sum_map_toList]; rfl
    _ = (l.map fun b => (out b).length).sum := (hperm.map _).sum_eq.symm
    _ ≤ (records.map fun b => (out b).length).sum := (hl.map _).sum_le_sum (by simp)
    _ = (records.flatMap out).length := by rw [List.length_flatMap]

/-- From scratch, a search finds what can be reached from a start node, and nothing else. -/
theorem mem_breadthFirst_iff (univ : Finset α) (hu : ∀ a ∉ univ, next a = []) {rounds : Nat}
    {start : List α} (hr : start.length + ∑ a ∈ univ, (next a).length ≤ rounds) {b : α} :
    b ∈ breadthFirst next rounds start [] ↔
      ∃ a ∈ start, Relation.ReflTransGen (Leads next) a b := by
  constructor
  · intro hb
    exact (breadthFirst_sound hb).resolve_left (by simp)
  · rintro ⟨a, ha, hab⟩
    obtain ⟨h1, h2⟩ := @breadthFirst_closed α _ next univ hu rounds start []
      (by simpa [workLeft] using hr) (by simp)
    induction hab with
    | refl => exact h1 ha
    | tail _ hstep ih => exact h2 _ ih _ hstep

end Devirt
