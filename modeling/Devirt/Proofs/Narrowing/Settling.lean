import Devirt.Proofs.Body.Editing
import Devirt.Proofs.Narrowing.States
import Devirt.Proofs.Types.Join

/-!
Where narrowing comes to rest. Without cycles above a type and with nothing above the root, each gain
of precision uses up some of what a value can still gain, so narrowing ends on any body, whatever it
has on record. Where the records are right, all that reads a value becomes pending when the value
gains precision. So outside of what is pending, everything affected keeps a type that its definition
does not make more precise, and nothing is left to gain at the end.
-/

namespace Devirt

namespace Body

variable {h : Hierarchy} {c d : Body} {affected : OrderedSet ValueId} {u v : ValueId}
  {type : StaticType}

/-- On an acyclic hierarchy with the built-in root, narrowing ends on every body, from whatever
values it starts. It ends with a result if the records of the body are right and the values exist. -/
theorem exists_endsWith_narrow (ha : h.Acyclic) (hroot : h.class? rootType = some Class.root)
    (c : Body) (affected : OrderedSet ValueId) :
    ∃ outcome, Narrowing.EndsWith h { body := c, pending := affected } outcome ∧
      c.narrow h affected = outcome.map (fun s => (s.narrowed, s.body)) ∧
      (c.Recorded → (∀ v ∈ affected, c.HasValue v) → ∃ s, outcome = .ok s) := by
  obtain ⟨outcome, hend⟩ := Narrowing.exists_endsWith ha (Hierarchy.supertypes_of_class? hroot)
    { body := c, pending := affected }
  exact ⟨outcome, hend, narrow_of_endsWith hend, hend.exists_ok⟩

/-- A class besides the root. -/
def oneClass : Hierarchy := { defined := [{ name := "A" }] }

theorem acyclic_oneClass : oneClass.Acyclic :=
  Hierarchy.acyclic_of_rank (fun t => if t = rootType then 1 else 0) (by decide +kernel)

/-- An argument is cast to the class and assumed not to be null. A loop assumes so again of the phi
that it comes back to. -/
def loopOfAssumptions : List DraftStep :=
  [.newBlock, .newBlock, .argument (.ofClass rootType .maybe), .cast ⟨0⟩ ⟨0⟩ "A",
    .assumeNonNull ⟨0⟩ ⟨1⟩ none, .number ⟨0⟩ 1, .goto ⟨0⟩ ⟨1⟩,
    .phi ⟨1⟩ (.ofClass rootType .maybe) [(⟨0⟩, ⟨2⟩), (⟨1⟩, ⟨5⟩)], .assumeNonNull ⟨1⟩ ⟨4⟩ none,
    .branch ⟨1⟩ ⟨3⟩ ⟨1⟩ ⟨2⟩, .ret ⟨2⟩ (some ⟨4⟩)]

/-- The loop when the cast and the first assumption have lost what is known of them. -/
def looseLoop : Except Fault Body := do
  let (_, c) ← ofSteps (.plain "A" "g") loopOfAssumptions
  c.applyAll [.setType ⟨1⟩ (.ofClass rootType .maybe), .setType ⟨2⟩ (.ofClass rootType .maybe)]

theorem edited_looseLoop (hc : looseLoop = .ok c) : c.Edited := by
  obtain ⟨_, hwritten, hedits⟩ := bind_eq_ok.1 hc
  exact Edited.applyAll (.written hwritten) hedits

/-- The values with loose types, the first assumption to be visited first. -/
def loose : OrderedSet ValueId := .ofList [⟨1⟩, ⟨4⟩, ⟨2⟩]

theorem endsWith_looseLoop :
    oneClass.Acyclic ∧ oneClass.class? rootType = some Class.root ∧
      ∃ c s, looseLoop = .ok c ∧
        Narrowing.EndsWith oneClass { body := c, pending := loose } (.ok s) ∧
        s.narrowed.toList = [⟨2⟩, ⟨4⟩, ⟨1⟩] := by
  have hroot : oneClass.class? rootType = some Class.root := by decide +kernel
  obtain ⟨c, hc, hhas, narrowed, d, hnarrow, hlist⟩ :
      ∃ c, looseLoop = .ok c ∧ (∀ v ∈ loose, c.HasValue v) ∧
        ∃ narrowed d, c.narrow oneClass loose = .ok (narrowed, d) ∧
          narrowed.toList = [⟨2⟩, ⟨4⟩, ⟨1⟩] := by
    decide +kernel
  obtain ⟨outcome, hend, heq, hok⟩ := exists_endsWith_narrow acyclic_oneClass hroot c loose
  obtain ⟨s, rfl⟩ := hok (edited_looseLoop hc).recorded hhas
  obtain ⟨rfl, -⟩ := Prod.mk.inj (Except.ok.inj (hnarrow.symm.trans heq))
  exact ⟨acyclic_oneClass, hroot, c, s, hc, hend, hlist⟩

/-! ### What a gain of precision leaves alone -/

/-- An instruction or a phi reads the first value and outputs the second one. -/
def ReadBy (c : Body) (v u : ValueId) : Prop :=
  (∃ i op, c.operation i = .ok op ∧ v ∈ op.operands ∧ op.out? = some u) ∨
    ∃ b phi, c.HasPhi b phi ∧ v ∈ phi.operands ∧ phi.out = u

theorem Retyped.readBy (hcd : Retyped c d) : d.ReadBy v u ↔ c.ReadBy v u := by
  obtain ⟨type, rfl⟩ := hcd
  rfl

/-- Where the records are right, the readers are found from them. -/
theorem Recorded.mem_readers (hc : c.Recorded) {l : List ValueId} (hl : c.readers v = .ok l) :
    u ∈ l ↔ c.ReadBy v u := by
  simp only [readers, bind_eq_ok, pure_eq_ok, Except.ok.injEq] at hl
  obtain ⟨x, hx, ops, hops, rfl⟩ := hl
  rw [List.mem_append, List.mem_filterMap, OrderedSet.mem_toList, hc.phiUsers hx]
  unfold ReadBy
  apply or_congr
  · constructor
    · rintro ⟨op, hmem, hout⟩
      obtain ⟨i, hi, hop⟩ := (mem_of_mapM_eq_ok hops).1 hmem
      obtain ⟨op', hop', hv⟩ := (hc.users hx i).1 hi
      obtain rfl := Except.ok.inj (hop.symm.trans hop')
      exact ⟨i, op, hop, hv, hout⟩
    · rintro ⟨i, op, hop, hv, hout⟩
      have hi : i ∈ x.users := (hc.users hx i).2 ⟨op, hop, hv⟩
      exact ⟨op, (mem_of_mapM_eq_ok hops).2 ⟨i, hi, hop⟩, hout⟩
  · constructor
    · rintro ⟨b, phi, hphi, hout, hv⟩
      exact ⟨b, phi, hphi, hv, hout⟩
    · rintro ⟨b, phi, hphi, hv, hout⟩
      exact ⟨b, phi, hphi, hout, hv⟩

theorem value_setType_self {x : Value} (hset : c.setType v type = .ok d) (hx : c.value v = .ok x) :
    d.value v = .ok { x with type } := by
  obtain ⟨-, rfl⟩ := modifyValue_eq_ok.1 hset
  exact value_updateValues.2 ⟨x, hx, if_pos rfl⟩

theorem value_setType_of_ne (hset : c.setType v type = .ok d) (hu : u ≠ v) :
    d.value u = c.value u := by
  obtain ⟨-, rfl⟩ := modifyValue_eq_ok.1 hset
  simp [value, updateValues, hu]

/-- The derived type of a value depends on the types of what its definition reads. -/
theorem Recorded.derivedType?_setType (hc : c.Recorded) (hset : c.setType v type = .ok d)
    {x : Value} (hx : c.value u = .ok x) (hu : ¬ c.ReadBy v u) :
    d.derivedType? h u = c.derivedType? h u := by
  obtain ⟨x', hx', hsame⟩ : ∃ x', d.value u = .ok x' ∧ x'.definition = x.definition := by
    by_cases huv : u = v
    · subst huv
      exact ⟨_, value_setType_self hset hx, rfl⟩
    · exact ⟨x, (value_setType_of_ne hset huv).trans hx, rfl⟩
  rw [derivedType?, derivedType?, hx', hx, ok_bind, ok_bind, hsame]
  cases hdef : x.definition with
  | undefined => rfl
  | instruction i =>
    obtain ⟨op, hop, hout⟩ := hc.definition_instruction hx hdef
    have hother : ∀ o ∈ op.operands, d.value o = c.value o := by
      intro o ho
      apply value_setType_of_ne hset
      rintro rfl
      exact hu (.inl ⟨i, op, hop, ho, hout⟩)
    simp only [(Retyped.setType hset).operation, hop, ok_bind]
    cases op with
    | cast out object name => simp only [hother object (by simp [Operation.operands])]
    | assumeNonNull out source origin => simp only [hother source (by simp [Operation.operands])]
    | _ => rfl
  | phi b =>
    obtain ⟨-, ⟨z, hz, -⟩, -⟩ := hc.definition_phi hx hdef
    have hz' : d.block b = .ok z := by
      obtain ⟨-, rfl⟩ := modifyValue_eq_ok.1 hset
      exact hz
    simp only [hz', hz, ok_bind]
    cases hphi : z.phi? u with
    | none => rfl
    | some p =>
      have hother : ∀ o ∈ p.operands, d.value o = c.value o := by
        intro o ho
        apply value_setType_of_ne hset
        rintro rfl
        have hout : p.out = u := by simpa using List.find?_some hphi
        exact hu (.inr ⟨b, p, ⟨z, hz, List.mem_of_find?_eq_some hphi⟩, ho, hout⟩)
      dsimp only
      rw [mapM_congr fun o ho => by rw [hother o ho]]

theorem Stable.setType (hu : c.Stable h u) (hc : c.Recorded) (hset : c.setType v type = .ok d)
    (hne : u ≠ v) (hread : ¬ c.ReadBy v u) : d.Stable h u := by
  obtain ⟨x, derived, hx, hderived, hstable⟩ := hu
  exact ⟨x, derived, (value_setType_of_ne hset hne).trans hx,
    (hc.derivedType?_setType hset hx hread).trans hderived, hstable⟩

/-- A value that does not read itself is stable once it has its derived type. -/
theorem Recorded.stable_setType_self (hc : c.Recorded)
    (hderived : c.derivedType? h v = .ok (some type)) (hset : c.setType v type = .ok d)
    (hread : ¬ c.ReadBy v v) : d.Stable h v := by
  obtain ⟨x, hx, -⟩ := bind_eq_ok.1 hderived
  refine ⟨_, _, value_setType_self hset hx,
    (hc.derivedType?_setType hset hx hread).trans hderived, ?_⟩
  intro t ht
  exact .inl (Option.some.inj ht).symm

end Body

/-! ### What narrowing has reached -/

namespace Narrowing

open Body

variable {h : Hierarchy} {c : Body} {affected pending : OrderedSet ValueId} {s s' : Narrowing}
  {u v : ValueId}

/-- How far narrowing of the body `c` from the affected values has come. All that is affected or
reads a narrowed value is pending unless it is stable. -/
structure Progress (h : Hierarchy) (c : Body) (affected : OrderedSet ValueId) (s : Narrowing) :
    Prop where
  retyped : Retyped c s.body
  le : ∀ v x y, c.value v = .ok x → s.body.value v = .ok y → y.type.le h x.type = true
  mem_narrowed : ∀ v x y, c.value v = .ok x → s.body.value v = .ok y →
    (v ∈ s.narrowed ↔ y.type ≠ x.type)
  hasValue : ∀ v ∈ s.narrowed, c.HasValue v
  covered : ∀ u, (u ∈ affected ∨ ∃ v ∈ s.narrowed, c.ReadBy v u) →
    u ∈ s.pending ∨ s.body.Stable h u

theorem progress_start (h : Hierarchy) (c : Body) (affected : OrderedSet ValueId) :
    Progress h c affected { body := c, pending := affected } where
  retyped := .refl c
  le v x y hx hy := by
    obtain rfl := Except.ok.inj (hx.symm.trans hy)
    exact StaticType.le_refl h x.type
  mem_narrowed v x y hx hy := by
    obtain rfl := Except.ok.inj (hx.symm.trans hy)
    simp [← OrderedSet.mem_toList]
  hasValue v hv := by simp [← OrderedSet.mem_toList] at hv
  covered u hu := by
    rcases hu with hu | ⟨v, hv, -⟩
    · exact .inl hu
    · simp [← OrderedSet.mem_toList] at hv

namespace Progress

/-- A value that is left alone is stable. -/
theorem leave (hs : Progress h c affected s) (hpop : s.pending.popLast? = some (v, pending))
    (hstable : s.body.Stable h v) : Progress h c affected { s with pending } :=
  { hs with
    covered := by
      intro u hu
      rcases hs.covered u hu with hpending | hu
      · rcases (OrderedSet.mem_of_popLast? hpop).1 hpending with hpending | rfl
        · exact .inl hpending
        · exact .inr hstable
      · exact .inr hu }

/-- When a value gains precision, its readers become pending, and nothing else is disturbed. -/
theorem gain (hs : Progress h c affected s) (ha : h.Acyclic)
    (hroot : h.class? rootType = some Class.root) (hc : c.Recorded)
    (hpop : s.pending.popLast? = some (v, pending)) {x : Value} {type : StaticType} {d : Body}
    {readers : List ValueId} (hx : s.body.value v = .ok x)
    (hderived : s.body.derivedType? h v = .ok (some type)) (hne : type ≠ x.type)
    (hle : type.le h x.type = true) (hset : s.body.setType v type = .ok d)
    (hreaders : d.readers v = .ok readers) :
    Progress h c affected ⟨d, pending.insertAll readers, s.narrowed.insert v⟩ := by
  have hretyped := hs.retyped.trans (.setType hset)
  have hbefore : s.body.Recorded := hs.retyped.recorded hc
  have hread : ∀ {u}, u ∈ readers ↔ s.body.ReadBy v u := by
    intro u
    rw [(hretyped.recorded hc).mem_readers hreaders, (Retyped.setType hset).readBy]
  have hother : ∀ {w y}, w ≠ v → d.value w = .ok y → s.body.value w = .ok y := by
    intro w y hw hy
    rw [← value_setType_of_ne hset hw, hy]
  refine ⟨hretyped, ?_, ?_, ?_, ?_⟩
  · intro w x₀ y hx₀ hy
    by_cases hw : w = v
    · subst hw
      obtain rfl := Except.ok.inj (hy.symm.trans (value_setType_self hset hx))
      exact StaticType.le_trans hroot hle (hs.le w x₀ x hx₀ hx)
    · exact hs.le w x₀ y hx₀ (hother hw hy)
  · intro w x₀ y hx₀ hy
    by_cases hw : w = v
    · subst hw
      obtain rfl := Except.ok.inj (hy.symm.trans (value_setType_self hset hx))
      -- having become more precise, the type does not come back to what it was
      have hchanged : type ≠ x₀.type := by
        rintro rfl
        exact hne (StaticType.le_antisymm ha hroot hle (hs.le w x₀ x hx₀ hx))
      simp [hchanged]
    · rw [OrderedSet.mem_insert, hs.mem_narrowed w x₀ y hx₀ (hother hw hy)]
      simp [hw]
  · intro w hw
    rcases OrderedSet.mem_insert.1 hw with hw | rfl
    · exact hs.hasValue w hw
    · exact hs.retyped.hasValue.1 (hasValue_of_value hx)
  · intro u hu
    rw [OrderedSet.mem_insertAll]
    by_cases hreader : s.body.ReadBy v u
    · exact .inl (.inr (hread.2 hreader))
    by_cases huv : u = v
    · subst huv
      exact .inr (hbefore.stable_setType_self hderived hset hreader)
    have hcovered : u ∈ affected ∨ ∃ w ∈ s.narrowed, c.ReadBy w u := by
      refine hu.imp_right fun ⟨w, hw, hwu⟩ => ?_
      rcases OrderedSet.mem_insert.1 hw with hw | rfl
      · exact ⟨w, hw, hwu⟩
      · exact absurd (hs.retyped.readBy.2 hwu) hreader
    rcases hs.covered u hcovered with hpending | hstable
    · rcases (OrderedSet.mem_of_popLast? hpop).1 hpending with hpending | rfl
      · exact .inl (.inl hpending)
      · exact absurd rfl huv
    · exact .inr (hstable.setType hbefore hset huv hreader)

theorem visit (hs : Progress h c affected s) (ha : h.Acyclic)
    (hroot : h.class? rootType = some Class.root) (hc : c.Recorded)
    (hpop : s.pending.popLast? = some (v, pending))
    (hvisit : { s with pending }.visit h v = .ok s') : Progress h c affected s' := by
  rcases visit_eq_or_gains hvisit with
    ⟨rfl, hstable⟩ | ⟨x, type, d, readers, hx, hderived, hne, hle, hset, hreaders, rfl⟩
  · exact hs.leave hpop hstable
  · exact hs.gain ha hroot hc hpop hx hderived hne hle hset hreaders

end Progress

theorem visit_of_stable (hv : s.body.Stable h v) : s.visit h v = .ok s := by
  obtain ⟨x, derived, hx, hderived, hstable⟩ := hv
  cases derived with
  | none => simp [Narrowing.visit, hx, hderived]
  | some type =>
    have hless : (decide (type = x.type) || !type.le h x.type) = true := by
      simpa using hstable type rfl
    simp only [Narrowing.visit, hx, hderived, ok_bind, if_pos hless, pure_eq_ok]

/-- Where all that is pending is stable, nothing is narrowed. -/
theorem endsWith_of_stable (hstable : ∀ v ∈ s.pending, s.body.Stable h v) :
    EndsWith h s (.ok { s with pending := ∅ }) := by
  induction hsize : s.pending.size generalizing s with
  | zero =>
    cases hpop : s.pending.popLast? with
    | none =>
      have hend : EndsWith h s (.ok s) := .rest hpop
      rwa [← OrderedSet.eq_empty_of_popLast? hpop]
    | some p =>
      rw [OrderedSet.size_of_popLast? hpop] at hsize
      cases hsize
  | succ n ih =>
    cases hpop : s.pending.popLast? with
    | none =>
      rw [OrderedSet.eq_empty_of_popLast? hpop] at hsize
      cases hsize
    | some p =>
      have hmem : ∀ u, u ∈ s.pending ↔ u ∈ p.2 ∨ u = p.1 := fun u => OrderedSet.mem_of_popLast? hpop
      have hvisit : { s with pending := p.2 }.visit h p.1 = .ok { s with pending := p.2 } :=
        visit_of_stable (hstable p.1 ((hmem p.1).2 (.inr rfl)))
      refine .visit hpop hvisit (ih (s := { s with pending := p.2 }) (fun u hu => ?_) ?_)
      · exact hstable u ((hmem u).2 (.inl hu))
      · rw [OrderedSet.size_of_popLast? hpop] at hsize
        exact Nat.succ.inj hsize

end Narrowing

namespace Body

variable {h : Hierarchy} {c d : Body} {affected : OrderedSet ValueId}

theorem narrow_of_stable (hstable : ∀ v ∈ affected, c.Stable h v) :
    c.narrow h affected = .ok (∅, c) :=
  narrow_of_endsWith (Narrowing.endsWith_of_stable (s := { body := c, pending := affected }) hstable)

/-- On an acyclic hierarchy with the built-in root, narrowing of a body that has been written and
edited gives other types to values and changes nothing else. All types stay or become more precise,
and exactly the values with another type are returned. What was affected, and what reads a returned
value, is stable in the end, so that narrowing once more changes nothing. -/
theorem exists_narrow_stable (ha : h.Acyclic) (hroot : h.class? rootType = some Class.root)
    (hc : c.Edited) (haffected : ∀ v ∈ affected, c.HasValue v) :
    ∃ narrowed d, c.narrow h affected = .ok (narrowed, d) ∧ Retyped c d ∧
      (∀ v x, c.value v = .ok x → ∃ y, d.value v = .ok y ∧ y.type.le h x.type = true ∧
        (v ∈ narrowed ↔ y.type ≠ x.type)) ∧
      (∀ v ∈ narrowed, c.HasValue v) ∧
      (∀ v ∈ affected, d.Stable h v) ∧
      (∀ v ∈ narrowed, ∀ u, d.ReadBy v u → d.Stable h u) ∧
      d.narrow h affected = .ok (∅, d) := by
  have hrecorded : c.Recorded := hc.recorded
  have htop : h.supertypes rootType = [] := Hierarchy.supertypes_of_class? hroot
  obtain ⟨outcome, hend⟩ := Narrowing.exists_endsWith ha htop { body := c, pending := affected }
  obtain ⟨s, rfl⟩ := hend.exists_ok hrecorded haffected
  have hnarrow : c.narrow h affected = .ok (s.narrowed, s.body) := narrow_of_endsWith hend
  obtain ⟨hprogress, hrest⟩ := hend.invariant (motive := Narrowing.Progress h c affected)
    (fun hpop hbefore hvisit => hbefore.visit ha hroot hrecorded hpop hvisit)
    (Narrowing.progress_start h c affected)
  have hstable : ∀ u, (u ∈ affected ∨ ∃ v ∈ s.narrowed, c.ReadBy v u) → s.body.Stable h u := by
    intro u hu
    apply (hprogress.covered u hu).resolve_left
    rw [OrderedSet.eq_empty_of_popLast? hrest]
    exact List.not_mem_nil
  refine ⟨s.narrowed, s.body, hnarrow, hprogress.retyped, ?_, hprogress.hasValue, ?_, ?_, ?_⟩
  · intro v x hx
    obtain ⟨y, hy⟩ := exists_value_iff.2 (hprogress.retyped.hasValue.2 (hasValue_of_value hx))
    exact ⟨y, hy, hprogress.le v x y hx hy, hprogress.mem_narrowed v x y hx hy⟩
  · intro v hv
    exact hstable v (.inl hv)
  · intro v hv u hu
    exact hstable u (.inr ⟨v, hv, hprogress.retyped.readBy.1 hu⟩)
  · exact narrow_of_stable fun v hv => hstable v (.inl hv)

/-- The first assumption gains precision twice. The assumption in the loop reads the phi, which has
gained precision, and is stable in the end. -/
theorem narrow_looseLoop :
    ∃ c, looseLoop = .ok c ∧ (∀ v ∈ loose, c.HasValue v) ∧
      ∃ narrowed d, c.narrow oneClass loose = .ok (narrowed, d) ∧
        narrowed.toList = [⟨2⟩, ⟨4⟩, ⟨1⟩] ∧ d.Stable oneClass ⟨5⟩ ∧
        d.narrow oneClass loose = .ok (∅, d) := by
  obtain ⟨c, hc, hhas, narrowed, d, hnarrow, hlist, hop⟩ :
      ∃ c, looseLoop = .ok c ∧ (∀ v ∈ loose, c.HasValue v) ∧
        ∃ narrowed d, c.narrow oneClass loose = .ok (narrowed, d) ∧
          narrowed.toList = [⟨2⟩, ⟨4⟩, ⟨1⟩] ∧
          d.operation ⟨5⟩ = .ok (.assumeNonNull ⟨5⟩ ⟨4⟩ none) := by
    decide +kernel
  obtain ⟨narrowed', d', hnarrow', -, -, -, -, hreaders, hagain⟩ :=
    exists_narrow_stable acyclic_oneClass (by decide +kernel) (edited_looseLoop hc) hhas
  obtain ⟨rfl, rfl⟩ := Prod.mk.inj (Except.ok.inj (hnarrow.symm.trans hnarrow'))
  refine ⟨c, hc, hhas, narrowed, d, hnarrow, hlist, ?_, hagain⟩
  apply hreaders ⟨4⟩
  · rw [← OrderedSet.mem_toList, hlist]
    decide
  · exact .inl ⟨⟨5⟩, _, hop, by decide, rfl⟩

end Body

end Devirt
