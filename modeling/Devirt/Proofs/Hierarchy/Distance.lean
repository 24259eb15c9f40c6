import Devirt.Proofs.Hierarchy.Order
import Mathlib.Order.Lattice.Nat

/-!
The order in which a breadth-first search finds its nodes, and what it means for the walks along
supertype edges. Going up and going down are two searches over different tables; where every name
has one definition they answer the same question, and going down meets nearer types first.
-/

namespace Devirt

open Relation

section Chains

variable {α : Type} {r : α → α → Prop} {a b c : α} {n : Nat}

/-- A chain of exactly `n` steps leads from the first node to the second one. -/
inductive ReachesIn (r : α → α → Prop) (a : α) : Nat → α → Prop
  | refl : ReachesIn r a 0 a
  | tail {n : Nat} {b c : α} (hab : ReachesIn r a n b) (hbc : r b c) : ReachesIn r a (n + 1) c

/-- The number of steps on a shortest chain between two nodes. -/
noncomputable def distance (r : α → α → Prop) (a b : α) : Nat := sInf {n | ReachesIn r a n b}

namespace ReachesIn

theorem head (hab : r a b) (hbc : ReachesIn r b n c) : ReachesIn r a (n + 1) c := by
  induction hbc with
  | refl => exact .tail .refl hab
  | tail _ hstep ih => exact ih.tail hstep

theorem reflTransGen (hab : ReachesIn r a n b) : ReflTransGen r a b := by
  induction hab with
  | refl => exact .refl
  | tail _ hstep ih => exact ih.tail hstep

theorem swap (hab : ReachesIn r a n b) : ReachesIn (Function.swap r) b n a := by
  induction hab with
  | refl => exact .refl
  | tail _ hstep ih => exact .head hstep ih

theorem zero_iff : ReachesIn r a 0 b ↔ b = a := by
  constructor
  · rintro ⟨⟩
    rfl
  · rintro rfl
    exact .refl

theorem succ_iff : ReachesIn r a (n + 1) c ↔ ∃ b, r a b ∧ ReachesIn r b n c := by
  constructor
  · intro hac
    cases hac.swap with
    | tail hcb hba => exact ⟨_, hba, hcb.swap⟩
  · rintro ⟨b, hab, hbc⟩
    exact .head hab hbc

theorem distance_le (hab : ReachesIn r a n b) : distance r a b ≤ n := Nat.sInf_le hab

theorem shortest (hab : ReachesIn r a n b) : ReachesIn r a (distance r a b) b := by
  have hne : Set.Nonempty {n | ReachesIn r a n b} := ⟨n, hab⟩
  exact Nat.sInf_mem hne

end ReachesIn

theorem exists_reachesIn (hab : ReflTransGen r a b) : ∃ n, ReachesIn r a n b := by
  induction hab with
  | refl => exact ⟨0, .refl⟩
  | tail _ hstep ih =>
    obtain ⟨n, hn⟩ := ih
    exact ⟨n + 1, hn.tail hstep⟩

theorem distance_swap : distance (Function.swap r) b a = distance r a b := by
  have hset : {n | ReachesIn (Function.swap r) b n a} = {n | ReachesIn r a n b} :=
    Set.ext fun n => ⟨ReachesIn.swap, ReachesIn.swap⟩
  rw [distance, hset, distance]

/-- On the way to a node every smaller distance is taken. -/
theorem exists_distance_eq (hab : ReflTransGen r a b) {k : Nat} (hk : k ≤ distance r a b) :
    ∃ x, ReflTransGen r a x ∧ ReflTransGen r x b ∧ distance r a x = k := by
  induction hab with
  | refl =>
    have hzero : distance r a a ≤ 0 := ReachesIn.refl.distance_le
    exact ⟨a, .refl, .refl, by omega⟩
  | @tail b c hab hbc ih =>
    obtain ⟨n, hn⟩ := exists_reachesIn hab
    have hnext : distance r a c ≤ distance r a b + 1 := (hn.shortest.tail hbc).distance_le
    by_cases hkb : k ≤ distance r a b
    · obtain ⟨x, hax, hxb, hx⟩ := ih hkb
      exact ⟨x, hax, hxb.tail hbc, hx⟩
    · exact ⟨c, hab.tail hbc, .refl, by omega⟩

/-- A list of all nodes on the ways between two nodes is longer than their distance. -/
theorem distance_lt_length {l : List α} (hab : ReflTransGen r a b)
    (hl : ∀ x, ReflTransGen r a x → ReflTransGen r x b → x ∈ l) : distance r a b < l.length := by
  have hsub : List.range (distance r a b + 1) ⊆ l.map (distance r a) := by
    intro k hk
    obtain ⟨x, hax, hxb, rfl⟩ := exists_distance_eq hab (Nat.lt_succ_iff.1 (List.mem_range.1 hk))
    exact List.mem_map_of_mem (hl x hax hxb)
  have hle := (List.subperm_of_subset List.nodup_range hsub).length_le
  rwa [List.length_range, List.length_map] at hle

end Chains

/-! ### The order of a breadth-first search -/

section Layers

variable {α : Type} {next : α → List α} {a : α} {k : Nat} {near far found : List α}

/-- How far a search from `a` has come. It has found every node at a distance below `k`; what is
left at distance `k` is pending in `near`, and `far` collects what lies one step further. -/
structure Layered (next : α → List α) (a : α) (k : Nat) (near far found : List α) : Prop where
  near_reached : ∀ x ∈ near, ReachesIn (Leads next) a k x
  far_reached : ∀ x ∈ far, ReachesIn (Leads next) a (k + 1) x
  found_le : ∀ x ∈ found, distance (Leads next) a x ≤ k
  closer : ∀ x n, ReachesIn (Leads next) a n x → n < k → x ∈ found
  level : ∀ x, ReachesIn (Leads next) a k x → x ∈ found ∨ x ∈ near
  onward : ∀ x ∈ found, ∀ y ∈ next x, y ∈ found ∨ y ∈ near ∨ y ∈ far
  sorted : found.Pairwise fun x y => distance (Leads next) a x ≤ distance (Leads next) a y

namespace Layered

theorem start (next : α → List α) (a : α) : Layered next a 0 [a] [] [] where
  near_reached x hx := by
    rw [List.mem_singleton.1 hx]
    exact .refl
  far_reached := by simp
  found_le := by simp
  closer _ _ _ hn := absurd hn (Nat.not_lt_zero _)
  level x hx := by
    cases hx
    simp
  onward := by simp
  sorted := .nil

/-- When nothing is left of a level, the search has found all of it and goes on to the next one. -/
theorem descend (hl : Layered next a k [] far found) : Layered next a (k + 1) far [] found where
  near_reached := hl.far_reached
  far_reached := by simp
  found_le x hx := Nat.le_succ_of_le (hl.found_le x hx)
  closer x n hx hn := by
    rcases Nat.lt_succ_iff_lt_or_eq.1 hn with hlt | rfl
    · exact hl.closer x n hx hlt
    · exact (hl.level x hx).resolve_right (by simp)
  level x hx := by
    cases hx with
    | tail hb hstep =>
      have hb' := (hl.level _ hb).resolve_right (by simp)
      simpa using hl.onward _ hb' x hstep
  onward x hx y hy := by simpa using hl.onward x hx y hy
  sorted := hl.sorted

theorem skip {x : α} (hl : Layered next a k (x :: near) far found) (hx : x ∈ found) :
    Layered next a k near far found where
  near_reached y hy := hl.near_reached y (List.mem_cons_of_mem _ hy)
  far_reached := hl.far_reached
  found_le := hl.found_le
  closer := hl.closer
  level y hy := by
    rcases hl.level y hy with hfound | hmem
    · exact .inl hfound
    · rcases List.mem_cons.1 hmem with rfl | hmem
      · exact .inl hx
      · exact .inr hmem
  onward y hy z hz := by
    rcases hl.onward y hy z hz with hfound | hmem | hfar
    · exact .inl hfound
    · rcases List.mem_cons.1 hmem with rfl | hmem
      · exact .inl hx
      · exact .inr (.inl hmem)
    · exact .inr (.inr hfar)
  sorted := hl.sorted

/-- A pending node that is new lies at distance `k`: were it closer, it would have been found. -/
theorem distance_eq {x : α} (hl : Layered next a k (x :: near) far found) (hx : x ∉ found) :
    distance (Leads next) a x = k := by
  have hsteps := hl.near_reached x List.mem_cons_self
  apply le_antisymm hsteps.distance_le
  by_contra hlt
  exact hx (hl.closer x _ hsteps.shortest (Nat.lt_of_not_le hlt))

theorem find {x : α} (hl : Layered next a k (x :: near) far found) (hx : x ∉ found) :
    Layered next a k near (far ++ next x) (found ++ [x]) where
  near_reached y hy := hl.near_reached y (List.mem_cons_of_mem _ hy)
  far_reached y hy := by
    rcases List.mem_append.1 hy with hy | hy
    · exact hl.far_reached y hy
    · exact (hl.near_reached x List.mem_cons_self).tail hy
  found_le y hy := by
    rcases List.mem_append.1 hy with hy | hy
    · exact hl.found_le y hy
    · rw [List.mem_singleton.1 hy, hl.distance_eq hx]
  closer y n hy hn := List.mem_append_left _ (hl.closer y n hy hn)
  level y hy := by
    rcases hl.level y hy with hfound | hmem
    · exact .inl (List.mem_append_left _ hfound)
    · rcases List.mem_cons.1 hmem with rfl | hmem
      · exact .inl (by simp)
      · exact .inr hmem
  onward y hy z hz := by
    rcases List.mem_append.1 hy with hy | hy
    · rcases hl.onward y hy z hz with hfound | hmem | hfar
      · exact .inl (List.mem_append_left _ hfound)
      · rcases List.mem_cons.1 hmem with rfl | hmem
        · exact .inl (by simp)
        · exact .inr (.inl hmem)
      · exact .inr (.inr (List.mem_append_left _ hfar))
    · rw [List.mem_singleton.1 hy] at hz
      exact .inr (.inr (List.mem_append_right _ hz))
  sorted := by
    rw [List.pairwise_append]
    refine ⟨hl.sorted, List.pairwise_singleton _ _, fun y hy z hz => ?_⟩
    rw [List.mem_singleton.1 hz, hl.distance_eq hx]
    exact hl.found_le y hy

variable [DecidableEq α]

/-- The levels are gone through one after the other, so the search finds nearer nodes first. -/
theorem pairwise_breadthFirst (hl : Layered next a k near far found) (rounds : Nat) :
    (breadthFirst next rounds (near ++ far) found).Pairwise fun x y =>
      distance (Leads next) a x ≤ distance (Leads next) a y := by
  induction rounds generalizing k near far found with
  | zero => exact hl.sorted
  | succ rounds ih =>
    -- an exhausted level is left without a round of its own
    obtain ⟨k, near, far, hl, hpending, hnear⟩ : ∃ k' near' far',
        Layered next a k' near' far' found ∧ near' ++ far' = near ++ far ∧
          (near' = [] → far' = []) := by
      cases near with
      | nil => exact ⟨k + 1, far, [], hl.descend, by simp, fun _ => rfl⟩
      | cons x near => exact ⟨k, x :: near, far, hl, rfl, by simp⟩
    rw [← hpending]
    cases near with
    | nil =>
      rw [hnear rfl]
      exact hl.sorted
    | cons x near =>
      rw [List.cons_append, breadthFirst]
      split
      · exact ih (hl.skip ‹_›)
      · rw [List.append_assoc]
        exact ih (hl.find ‹_›)

end Layered

variable [DecidableEq α]

theorem pairwise_distance_breadthFirst (next : α → List α) (rounds : Nat) (a : α) :
    (breadthFirst next rounds [a] []).Pairwise fun x y =>
      distance (Leads next) a x ≤ distance (Leads next) a y :=
  (Layered.start next a).pairwise_breadthFirst rounds

theorem head?_breadthFirst (next : α → List α) (rounds : Nat) (a : α) :
    (breadthFirst next (rounds + 1) [a] []).head? = some a := by
  have hprefix : ∀ (rounds : Nat) (pending found : List α), found.head? = some a →
      (breadthFirst next rounds pending found).head? = some a := by
    intro rounds
    induction rounds with
    | zero => exact fun _ _ hfound => hfound
    | succ rounds ih =>
      intro pending found hfound
      cases pending with
      | nil => exact hfound
      | cons x pending =>
        rw [breadthFirst]
        split
        · exact ih pending found hfound
        · exact ih _ _ (by rw [List.head?_append, hfound]; rfl)
  exact hprefix rounds (next a) [a] rfl

end Layers

namespace Hierarchy

variable {h : Hierarchy} {a b c s t : TypeName}

/-- A definition of the first type names the second one as its superclass or as an interface. -/
def Derives (h : Hierarchy) (a b : TypeName) : Prop :=
  ∃ c ∈ h.classes, c.name = a ∧ (c.superclass = some b ∨ b ∈ c.interfaces)

theorem DefinedOnce.leads_supertypes (hd : h.DefinedOnce) : Leads h.supertypes = h.Derives := by
  funext a b
  apply propext
  constructor
  · intro hab
    obtain ⟨c, hc, hbc⟩ := mem_supertypes_iff.1 hab
    refine ⟨c, mem_classes_of_class? hc, name_of_class? hc, ?_⟩
    simpa [Class.supertypes] using hbc
  · rintro ⟨c, hc, rfl, hb⟩
    rw [Leads, supertypes_of_class? (hd.class?_of_mem hc)]
    simpa [Class.supertypes] using hb

theorem DefinedOnce.leads_directSubtypes (hd : h.DefinedOnce) :
    Leads h.directSubtypes = Function.swap h.Derives := by
  rw [← hd.leads_supertypes]
  funext a b
  exact propext hd.mem_directSubtypes_iff

theorem DefinedOnce.isSubtype_trans (hd : h.DefinedOnce) (hab : h.isSubtype a b = true)
    (hbc : h.isSubtype b c = true) : h.isSubtype a c = true :=
  Hierarchy.isSubtype_trans hd.class?_rootType hab hbc

/-- Where every name has one definition, the two walks along supertype edges agree. A type is below
another one if it is that one, if the other one is the root, or if supertype entries lead up to the
other one; being below is reflexive and transitive. The types below a type other than the root are
those that the walk down from it lists: each once, the type itself first, and nearer ones before
farther ones, where the distance is the length of a shortest chain of supertype entries. -/
theorem subtypes_and_isSubtype_agree (hd : h.DefinedOnce) :
    (∀ a b, h.isSubtype a b = true ↔ a = b ∨ b = rootType ∨ TransGen h.Derives a b) ∧
    (∀ a, h.isSubtype a a = true) ∧
    (∀ a b c, h.isSubtype a b = true → h.isSubtype b c = true → h.isSubtype a c = true) ∧
    ∀ t, t ≠ rootType →
      (∀ s, s ∈ h.subtypes t ↔ h.isSubtype s t = true) ∧
      (h.subtypes t).Nodup ∧
      (h.subtypes t).head? = some t ∧
      (∀ s ∈ h.subtypes t, ReachesIn h.Derives s (distance h.Derives s t) t) ∧
      (h.subtypes t).Pairwise fun s u => distance h.Derives s t ≤ distance h.Derives u t := by
  refine ⟨fun a b => ?_, isSubtype_refl h, fun a b c => hd.isSubtype_trans, fun t ht => ?_⟩
  · rw [isSubtype_iff, hd.leads_supertypes, reflTransGen_iff_eq_or_transGen, or_left_comm,
      @eq_comm _ b]
  · refine ⟨fun s => ?_, nodup_subtypes t, head?_breadthFirst _ _ _, fun s hs => ?_, ?_⟩
    · rw [hd.mem_subtypes_iff, isSubtype_iff, or_iff_right ht]
    · rw [hd.mem_subtypes_iff, hd.leads_supertypes] at hs
      obtain ⟨n, hn⟩ := exists_reachesIn hs
      exact hn.shortest
    · have hsorted := pairwise_distance_breadthFirst h.directSubtypes (h.edgeCount + 1) t
      rw [hd.leads_directSubtypes] at hsorted
      simpa only [subtypes, distance_swap] using hsorted

/-- Two classes below each other, an interface reached on three ways of different lengths, and
supertypes without a definition. -/
def tangled : Hierarchy :=
  { defined :=
      [{ name := "A", superclass := some "B", interfaces := ["J", "Missing"] },
        { name := "I", isInterface := true },
        { name := "J", isInterface := true, interfaces := ["K", "K"] },
        { name := "K", isInterface := true, interfaces := ["I"] },
        { name := "B", superclass := some "A", interfaces := ["I", "J"] }] }

/-- A class that names the interface itself comes before one that is below it through others. -/
theorem subtypes_tangled :
    tangled.DefinedOnce ∧ tangled.subtypes "I" = ["I", "K", "B", "J", "A"] ∧
      distance tangled.Derives "B" "I" ≤ distance tangled.Derives "J" "I" ∧
      tangled.isSubtype "A" "I" = true ∧ TransGen tangled.Derives "A" "I" ∧
      ¬ TransGen tangled.Derives "I" "K" ∧ TransGen tangled.Derives "A" "A" ∧
      (∀ s, s ∈ tangled.subtypes "Missing" ↔ tangled.isSubtype s "Missing" = true) := by
  have hd : tangled.DefinedOnce := by decide +kernel
  have hlist : tangled.subtypes "I" = ["I", "K", "B", "J", "A"] := by decide +kernel
  obtain ⟨hiff, -, -, hwalk⟩ := subtypes_and_isSubtype_agree hd
  obtain ⟨-, -, -, -, hsorted⟩ := hwalk "I" (by decide)
  rw [hlist] at hsorted
  have habove : tangled.isSubtype "A" "I" = true := by decide +kernel
  have hcycle : TransGen tangled.Derives "A" "A" := by
    rw [← hd.leads_supertypes]
    exact .tail (.single (show "B" ∈ tangled.supertypes "A" by decide +kernel))
      (show "A" ∈ tangled.supertypes "B" by decide +kernel)
  refine ⟨hd, hlist, ?_, habove, ?_, fun hup => ?_, hcycle, (hwalk "Missing" (by decide)).1⟩
  · exact List.pairwise_iff_getElem.1 hsorted 2 3 (by decide) (by decide) (by decide)
  · exact (((hiff "A" "I").1 habove).resolve_left (by decide)).resolve_left (by decide)
  · have hno : ¬ tangled.isSubtype "I" "K" = true := by decide +kernel
    exact hno ((hiff "I" "K").2 (.inr (.inr hup)))

end Hierarchy

end Devirt
