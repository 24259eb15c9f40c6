import Devirt.Proofs.Narrowing
import Mathlib.Data.Finset.Option
import Mathlib.Data.Fintype.BigOperators

/-!
The states that narrowing of a body can come to. A visit takes types over the same classes to others
over them, and what is ever pending or narrowed has been affected or reads a value, so there are no
more states than rounds are allowed for. A run that uses up its rounds has been in some state twice.
Since each state decides the next one, it goes on for ever. So a run gives what narrowing ends with,
and it fails for want of rounds exactly where narrowing is endless.
-/

namespace Devirt

/-! ### Types over given classes -/

theorem Hierarchy.commonClass_mem (h : Hierarchy) (a b : TypeName) :
    h.commonClass a b ∈ h.classes.map (·.name) := by
  simp only [commonClass]
  cases hfind : (h.classAncestors b).find? (· ∈ h.classAncestors a) with
  | none => exact List.mem_map_of_mem (f := Class.name) (List.mem_cons_self (a := Class.root))
  | some t =>
    obtain ⟨c, hc, rfl⟩ := List.mem_map.1 (List.mem_of_find?_eq_some hfind)
    have hclass := class?_of_mem_superclasses (List.mem_of_mem_filter hc)
    have hmem := List.mem_reverse.1 (List.mem_of_find?_eq_some hclass)
    exact List.mem_map_of_mem (f := Class.name) hmem

namespace StaticType

variable {h : Hierarchy} {names : List TypeName} {s t : StaticType}

/-- All types that refer to no other classes. -/
def typesOver (names : List TypeName) : List StaticType :=
  [.bottom, .null, .top] ++ [Primitive.boolean, .int, .long, .float, .double].map .primitive ++
    names.flatMap fun name =>
      [Nullability.null, .notNull, .maybe].flatMap fun n => [.ofClass name n, .exactly name n]

theorem mem_typesOver : t ∈ typesOver names ↔ ∀ r, t = .reference r → r.name ∈ names := by
  cases t with
  | reference r =>
    obtain ⟨name, nullability, exact⟩ := r
    cases nullability <;> cases exact <;> simp [typesOver, ofClass, exactly]
  | primitive p => cases p <;> simp [typesOver]
  | _ => simp [typesOver]

theorem length_typesOver (names : List TypeName) :
    (typesOver names).length = 8 + 6 * names.length := by
  induction names with
  | nil => rfl
  | cons name names ih =>
    simp only [typesOver, List.flatMap_cons, List.flatMap_nil, List.length_append, List.length_cons,
      List.length_nil] at ih ⊢
    omega

theorem withNullability_mem_typesOver (n : Nullability) (ht : t ∈ typesOver names) :
    t.withNullability n ∈ typesOver names := by
  rw [mem_typesOver] at ht ⊢
  intro r hr
  cases t with
  | reference r' =>
    obtain rfl : { r' with nullability := n } = r := StaticType.reference.inj hr
    exact ht r' rfl
  | _ => cases hr

theorem join_mem_typesOver (hclasses : ∀ name ∈ h.classes.map (·.name), name ∈ names)
    (hs : s ∈ typesOver names) (ht : t ∈ typesOver names) : s.join h t ∈ typesOver names := by
  have hjoin : ∀ a b : ReferenceType, a.name ∈ names → b.name ∈ names →
      (a.join h b).name ∈ names := by
    intro a b ha hb
    simp only [ReferenceType.join]
    split_ifs
    · exact ha
    · exact hb
    · exact ha
    · exact hclasses _ (h.commonClass_mem _ _)
  rw [mem_typesOver] at hs ht ⊢
  intro r hr
  cases s with
  | reference a =>
    cases t with
    | reference b =>
      obtain rfl := StaticType.reference.inj hr
      exact hjoin a b (hs a rfl) (ht b rfl)
    | null =>
      obtain rfl := StaticType.reference.inj hr
      exact hs a rfl
    | bottom => exact hs r hr
    | _ => cases hr
  | null =>
    cases t with
    | reference b =>
      obtain rfl := StaticType.reference.inj hr
      exact ht b rfl
    | _ => cases hr
  | bottom => exact ht r (by rwa [bottom_join] at hr)
  | primitive p =>
    cases t with
    | primitive q =>
      simp only [join] at hr
      split at hr <;> cases hr
    | _ => cases hr
  | top => cases t <;> cases hr

theorem foldl_join_mem_typesOver (hclasses : ∀ name ∈ h.classes.map (·.name), name ∈ names)
    {types : List StaticType} (htypes : ∀ t ∈ types, t ∈ typesOver names) (hs : s ∈ typesOver names) :
    types.foldl (join h) s ∈ typesOver names := by
  induction types generalizing s with
  | nil => exact hs
  | cons t types ih =>
    apply ih (fun u hu => htypes u (List.mem_cons_of_mem _ hu))
    exact join_mem_typesOver hclasses hs (htypes t List.mem_cons_self)

end StaticType

/-! ### What a visit can come to -/

namespace Body

variable {h : Hierarchy} {c d e : Body} {affected : OrderedSet ValueId} {v : ValueId}

/-- Bodies that differ in the types of their values alone are told apart by them. -/
theorem Retyped.eq_of_types (hd : Retyped c d) (he : Retyped c e)
    (htypes : d.values.map (·.type) = e.values.map (·.type)) : d = e := by
  obtain ⟨type, rfl⟩ := hd
  obtain ⟨type', rfl⟩ := he
  unfold updateValues at htypes ⊢
  congr 1
  apply List.ext_getElem?
  intro n
  have hn := congrArg (fun l : List StaticType => l[n]?) htypes
  simp only [List.getElem?_map, List.getElem?_mapIdx] at hn ⊢
  cases hx : c.values[n]? with
  | none => rfl
  | some x =>
    rw [hx] at hn
    simpa using hn

theorem Retyped.length_values (hd : Retyped c d) : d.values.length = c.values.length := by
  obtain ⟨type, rfl⟩ := hd
  simp [updateValues]

theorem Retyped.phiUsers {y : Value} (hd : Retyped c d) (hy : d.value v = .ok y) :
    ∃ x ∈ c.values, y.phiUsers = x.phiUsers := by
  obtain ⟨type, rfl⟩ := hd
  obtain ⟨x, hx, rfl⟩ := value_updateValues.1 hy
  exact ⟨x, List.mem_of_getElem? (value_eq_ok.1 hx), rfl⟩

/-- What reads a value is the output of an instruction or a phi on record. -/
theorem Retyped.mem_narrowable_of_readers (hd : Retyped c d) {l : List ValueId}
    (hl : d.readers v = .ok l) : ∀ u ∈ l, u ∈ c.narrowable affected := by
  intro u hu
  simp only [readers, bind_eq_ok, pure_eq_ok, Except.ok.injEq] at hl
  obtain ⟨y, hy, ops, hops, rfl⟩ := hl
  simp only [narrowable, List.mem_append, List.mem_filterMap, List.mem_flatMap]
  rcases List.mem_append.1 hu with hu | hu
  · obtain ⟨op, hmem, hout⟩ := List.mem_filterMap.1 hu
    obtain ⟨i, -, hop⟩ := (mem_of_mapM_eq_ok hops).1 hmem
    rw [hd.operation] at hop
    obtain ⟨x, hx, rfl⟩ := operation_eq_ok.1 hop
    exact .inl (.inr ⟨x, List.mem_of_getElem? (instruction_eq_ok.1 hx), hout⟩)
  · obtain ⟨x, hx, hsame⟩ := hd.phiUsers hy
    exact .inr ⟨x, hx, hsame ▸ hu⟩

/-- All types of values stay over the classes that the body and the hierarchy start with. -/
def TypesWithin (h : Hierarchy) (c d : Body) : Prop :=
  ∀ v y, d.value v = .ok y → y.type ∈ StaticType.typesOver (c.typeNames h)

theorem typesWithin_self (h : Hierarchy) (c : Body) : TypesWithin h c c := by
  intro v x hx
  rw [StaticType.mem_typesOver]
  intro r hr
  have hmem : r.name ∈ c.values.filterMap (fun x => x.type.reference?.map (·.name)) :=
    List.mem_filterMap.2 ⟨x, List.mem_of_getElem? (value_eq_ok.1 hx),
      by simp [hr, StaticType.reference?]⟩
  simp only [typeNames, List.mem_append]
  exact .inl (.inr hmem)

theorem TypesWithin.derivedType? (htypes : TypesWithin h c d) (hd : Retyped c d) {t : StaticType}
    (hderived : d.derivedType? h v = .ok (some t)) : t ∈ StaticType.typesOver (c.typeNames h) := by
  obtain ⟨x, -, ⟨i, out, object, name, y, -, hop, hy, rfl⟩ |
    ⟨i, out, source, origin, y, -, -, hy, rfl⟩ | ⟨b, phi, types, -, -, hmap, rfl⟩⟩ :=
    derivedType?_cases hderived
  · split
    · exact htypes object y hy
    · rw [StaticType.mem_typesOver]
      intro r hr
      obtain rfl := StaticType.reference.inj hr
      rw [hd.operation] at hop
      obtain ⟨z, hz, hcast⟩ := operation_eq_ok.1 hop
      refine List.mem_append_right _ (List.mem_filterMap.2 ⟨z, ?_, by rw [hcast]; rfl⟩)
      exact List.mem_of_getElem? (instruction_eq_ok.1 hz)
  · exact StaticType.withNullability_mem_typesOver _ (htypes source y hy)
  · apply StaticType.foldl_join_mem_typesOver
    · intro name hname
      simp only [typeNames, List.mem_append]
      exact .inl (.inl hname)
    · intro t ht
      obtain ⟨o, -, ho⟩ := (mem_of_mapM_eq_ok hmap).1 ht
      obtain ⟨y, hy, heq⟩ := bind_eq_ok.1 ho
      obtain rfl := Except.ok.inj heq
      exact htypes o y hy
    · simp [StaticType.mem_typesOver]

theorem TypesWithin.setType (htypes : TypesWithin h c d) {t : StaticType}
    (ht : t ∈ StaticType.typesOver (c.typeNames h)) (hset : d.setType v t = .ok e) :
    TypesWithin h c e := by
  obtain ⟨-, rfl⟩ := modifyValue_eq_ok.1 hset
  intro u y hy
  obtain ⟨x, hx, rfl⟩ := value_updateValues.1 hy
  split
  · exact ht
  · exact htypes u x hx

end Body

namespace Narrowing

open Body

variable {h : Hierarchy} {c : Body} {affected : OrderedSet ValueId} {s s' : Narrowing} {v : ValueId}

/-- The states that narrowing of the body `c` from the affected values can come to. -/
structure Within (h : Hierarchy) (c : Body) (affected : OrderedSet ValueId) (s : Narrowing) :
    Prop where
  retyped : Retyped c s.body
  types : TypesWithin h c s.body
  pending : ∀ v ∈ s.pending, v ∈ c.narrowable affected
  narrowed : ∀ v ∈ s.narrowed, v ∈ c.narrowable affected

theorem within_start (h : Hierarchy) (c : Body) (affected : OrderedSet ValueId) :
    Within h c affected { body := c, pending := affected } where
  retyped := .refl c
  types := typesWithin_self h c
  pending v hv := by
    simp only [narrowable, List.mem_append]
    exact .inl (.inl hv)
  narrowed v hv := by simp [← OrderedSet.mem_toList] at hv

theorem Within.visit (hs : Within h c affected s) (hv : v ∈ c.narrowable affected)
    (hvisit : s.visit h v = .ok s') : Within h c affected s' := by
  obtain rfl | ⟨x, type, d, readers, -, hderived, -, -, hset, hreaders, rfl⟩ := visit_cases hvisit
  · exact hs
  have hretyped := hs.retyped.trans (.setType hset)
  refine ⟨hretyped, hs.types.setType (hs.types.derivedType? hs.retyped hderived) hset, ?_, ?_⟩
  · intro u hu
    rcases OrderedSet.mem_insertAll.1 hu with hu | hu
    · exact hs.pending u hu
    · exact hretyped.mem_narrowable_of_readers hreaders u hu
  · intro u hu
    rcases OrderedSet.mem_insert.1 hu with hu | rfl
    · exact hs.narrowed u hu
    · exact hv

theorem Within.turn (hs : Within h c affected s) (hturn : turn h s = some s') :
    Within h c affected s' := by
  rw [Narrowing.turn] at hturn
  split at hturn
  · cases hturn
  · rename_i v pending hpop
    have hmem : ∀ u, u ∈ s.pending ↔ u ∈ pending ∨ u = v := fun u => OrderedSet.mem_of_popLast? hpop
    cases hvisit : { s with pending }.visit h v with
    | error e => simp [hvisit, Except.toOption] at hturn
    | ok s₁ =>
      obtain rfl : s₁ = s' := by simpa [hvisit, Except.toOption] using hturn
      have hpopped : Within h c affected { s with pending } :=
        { hs with pending := fun u hu => hs.pending u ((hmem u).2 (.inl hu)) }
      exact hpopped.visit (hs.pending v ((hmem v).2 (.inr rfl))) hvisit

theorem Within.turns {n : Nat} (hs : Within h c affected s) (hturns : turns h n s = some s') :
    Within h c affected s' := by
  induction n generalizing s with
  | zero => exact Option.some.inj hturns ▸ hs
  | succ n ih =>
    obtain ⟨s₁, hturn, hturns⟩ := Option.bind_eq_some_iff.1 hturns
    exact ih (hs.turn hturn) hturns

/-! ### How many states there are -/

section Entries

variable {α : Type} {n : Nat} {l l' elements : List α}

/-- A list of up to `n` elements, place by place. -/
def entries (n : Nat) (l : List α) : Fin n → Option α := fun i => l[i.val]?

theorem eq_of_entries (hl : l.length ≤ n) (hl' : l'.length ≤ n) (heq : entries n l = entries n l') :
    l = l' := by
  apply List.ext_getElem?
  intro i
  by_cases hi : i < n
  · exact congrFun heq ⟨i, hi⟩
  · rw [List.getElem?_eq_none (by omega), List.getElem?_eq_none (by omega)]

variable [DecidableEq α]

def tables (n : Nat) (elements : List α) : Finset (Fin n → Option α) :=
  Fintype.piFinset fun _ => Finset.insertNone elements.toFinset

theorem entries_mem_tables (hl : ∀ a ∈ l, a ∈ elements) : entries n l ∈ tables n elements := by
  rw [tables, Fintype.mem_piFinset]
  intro i
  rw [Finset.mem_insertNone]
  intro a ha
  exact List.mem_toFinset.2 (hl a (List.mem_of_getElem? ha))

theorem card_tables_le (n : Nat) (elements : List α) :
    (tables n elements).card ≤ (elements.length + 1) ^ n := by
  rw [tables, Fintype.card_piFinset_const, Finset.card_insertNone]
  exact Nat.pow_le_pow_left (Nat.succ_le_succ (List.toFinset_card_le elements)) n

end Entries

/-- All that tells the states of narrowing apart. -/
def snapshot (c : Body) (affected : OrderedSet ValueId) (s : Narrowing) :
    (Fin c.values.length → Option StaticType) ×
      (Fin (c.narrowable affected).length → Option ValueId) ×
      (Fin (c.narrowable affected).length → Option ValueId) :=
  (entries _ (s.body.values.map (·.type)), entries _ s.pending.toList, entries _ s.narrowed.toList)

def snapshots (h : Hierarchy) (c : Body) (affected : OrderedSet ValueId) :
    Finset ((Fin c.values.length → Option StaticType) ×
      (Fin (c.narrowable affected).length → Option ValueId) ×
      (Fin (c.narrowable affected).length → Option ValueId)) :=
  tables _ (StaticType.typesOver (c.typeNames h)) ×ˢ
    (tables _ (c.narrowable affected) ×ˢ tables _ (c.narrowable affected))

theorem Within.snapshot_mem (hs : Within h c affected s) :
    s.snapshot c affected ∈ snapshots h c affected := by
  simp only [snapshots, snapshot, Finset.mem_product]
  refine ⟨entries_mem_tables fun t ht => ?_, entries_mem_tables hs.pending,
    entries_mem_tables hs.narrowed⟩
  obtain ⟨y, hy, rfl⟩ := List.mem_map.1 ht
  obtain ⟨n, hn⟩ := List.mem_iff_getElem?.1 hy
  exact hs.types ⟨n⟩ y (value_eq_ok.2 hn)

theorem Within.eq_of_snapshot (hs : Within h c affected s) (hs' : Within h c affected s')
    (heq : s.snapshot c affected = s'.snapshot c affected) : s = s' := by
  have hsets : ∀ {t t' : OrderedSet ValueId}, (∀ v ∈ t, v ∈ c.narrowable affected) →
      (∀ v ∈ t', v ∈ c.narrowable affected) →
      entries (c.narrowable affected).length t.toList = entries _ t'.toList → t = t' := by
    rintro ⟨l, hl⟩ ⟨l', hl'⟩ ht ht' heq
    obtain rfl : l = l' :=
      eq_of_entries (hl.subperm ht).length_le (hl'.subperm ht').length_le heq
    rfl
  simp only [snapshot, Prod.mk.injEq] at heq
  obtain ⟨htypes, hpending, hnarrowed⟩ := heq
  have hbody : s.body = s'.body := hs.retyped.eq_of_types hs'.retyped <| eq_of_entries
    (by rw [List.length_map, hs.retyped.length_values])
    (by rw [List.length_map, hs'.retyped.length_values]) htypes
  have hpending := hsets hs.pending hs'.pending hpending
  have hnarrowed := hsets hs.narrowed hs'.narrowed hnarrowed
  cases s
  cases s'
  exact Narrowing.mk.injEq .. ▸ ⟨hbody, hpending, hnarrowed⟩

theorem card_snapshots_le (h : Hierarchy) (c : Body) (affected : OrderedSet ValueId) :
    (snapshots h c affected).card ≤ c.narrowingRounds h affected := by
  rw [snapshots, Finset.card_product, Finset.card_product, narrowingRounds,
    ← StaticType.length_typesOver]
  exact Nat.mul_le_mul (card_tables_le _ _) (Nat.mul_le_mul (card_tables_le _ _) (card_tables_le _ _))

/-! ### A run is what narrowing ends with -/

/-- A run that has used up its rounds has come back to a state, and so it goes on for ever. -/
theorem Within.endless (hs : Within h c affected s)
    (hsome : (Narrowing.turns h (c.narrowingRounds h affected) s).isSome) : Endless h s := by
  generalize hrounds : c.narrowingRounds h affected = rounds at hsome
  have hstate : ∀ n ≤ rounds, ∃ s', Narrowing.turns h n s = some s' := by
    intro n hn
    obtain ⟨k, rfl⟩ := Nat.exists_eq_add_of_le hn
    rw [turns_add] at hsome
    exact Option.isSome_iff_exists.1 (Option.isSome_of_isSome_bind hsome)
  have hcard : (snapshots h c affected).card < (Finset.range (rounds + 1)).card := by
    rw [Finset.card_range, ← hrounds]
    exact Nat.lt_succ_of_le (card_snapshots_le h c affected)
  obtain ⟨i, hi, j, hj, hne, heq⟩ := Finset.exists_ne_map_eq_of_card_lt_of_maps_to hcard
    (f := fun n => ((Narrowing.turns h n s).getD s).snapshot c affected) fun n hn => by
      obtain ⟨s', hs'⟩ := hstate n (Nat.lt_succ_iff.1 (Finset.mem_range.1 hn))
      simpa only [hs', Option.getD_some, Finset.mem_coe] using (hs.turns hs').snapshot_mem
  obtain ⟨m, n, hmn, hn, hsame⟩ : ∃ m n, m < n ∧ n ≤ rounds ∧
      Narrowing.turns h n s = Narrowing.turns h m s := by
    rw [Finset.mem_range, Nat.lt_succ_iff] at hi hj
    obtain ⟨a, ha⟩ := hstate i hi
    obtain ⟨b, hb⟩ := hstate j hj
    simp only [ha, hb, Option.getD_some] at heq
    obtain rfl := (hs.turns ha).eq_of_snapshot (hs.turns hb) heq
    rcases Nat.lt_or_gt_of_ne hne with hij | hij
    · exact ⟨i, j, hij, hj, hb.trans ha.symm⟩
    · exact ⟨j, i, hij, hi, ha.trans hb.symm⟩
  obtain ⟨p, rfl⟩ := Nat.exists_eq_add_of_lt hmn
  obtain ⟨s', hs'⟩ := hstate _ hn
  refine endless_of_turns (isSome_turns_of_period (m := m) (p := p + 1) (by omega) ?_ hsame)
  exact Option.isSome_iff_exists.2 ⟨s', hs'⟩

end Narrowing

namespace Body

variable {h : Hierarchy} {c : Body} {affected : OrderedSet ValueId}

/-- Narrowing fails for want of rounds only where it is endless. -/
theorem endsWith_run_or_endless (h : Hierarchy) (c : Body) (affected : OrderedSet ValueId) :
    Narrowing.EndsWith h { body := c, pending := affected }
        (Narrowing.run h (c.narrowingRounds h affected) { body := c, pending := affected }) ∨
      Narrowing.run h (c.narrowingRounds h affected) { body := c, pending := affected } =
          .error .unsettled ∧
        Narrowing.Endless h { body := c, pending := affected } :=
  (Narrowing.endsWith_run_or_turns h _ _).imp_right fun ⟨hrun, hsome⟩ =>
    ⟨hrun, (Narrowing.within_start h c affected).endless hsome⟩

/-- The bound on the rounds has no influence on what narrowing ends with. -/
theorem narrow_of_endsWith {outcome : Except Fault Narrowing}
    (hend : Narrowing.EndsWith h { body := c, pending := affected } outcome) :
    c.narrow h affected = outcome.map fun s => (s.narrowed, s.body) := by
  have hrun : Narrowing.run h (c.narrowingRounds h affected) { body := c, pending := affected } =
      outcome := by
    rcases endsWith_run_or_endless h c affected with hend' | ⟨-, hendless⟩
    · exact hend'.unique hend
    · exact absurd hend (hendless outcome)
  rw [narrow, hrun]
  cases outcome <;> rfl

theorem narrow_of_endless (hendless : Narrowing.Endless h { body := c, pending := affected }) :
    c.narrow h affected = .error .unsettled := by
  rw [narrow, hendless.run]
  rfl

/-- Narrowing gives a result unless it goes on for ever, which it does only where the hierarchy has a
cycle or something stands above its root. -/
theorem narrow_cases (hc : c.Recorded) (haffected : ∀ v ∈ affected, c.HasValue v) :
    (∃ r, c.narrow h affected = .ok r) ∨
      (c.narrow h affected = .error .unsettled ∧
        Narrowing.Endless h { body := c, pending := affected } ∧
        ¬ (h.Acyclic ∧ h.supertypes rootType = [])) := by
  by_cases hends : ∃ outcome, Narrowing.EndsWith h { body := c, pending := affected } outcome
  · obtain ⟨outcome, hend⟩ := hends
    obtain ⟨s, rfl⟩ := hend.exists_ok hc haffected
    exact .inl ⟨_, narrow_of_endsWith hend⟩
  · have hendless : Narrowing.Endless h { body := c, pending := affected } := not_exists.1 hends
    refine .inr ⟨narrow_of_endless hendless, hendless, fun ⟨ha, htop⟩ => ?_⟩
    exact hends (Narrowing.exists_endsWith ha htop _)

end Body

end Devirt
