import Devirt.Narrowing
import Devirt.Proofs.Body.Records
import Devirt.Proofs.Body.Shape
import Devirt.Proofs.Hierarchy.Order
import Mathlib.Algebra.GroupWithZero.Nat

/-!
Type narrowing gives other types to values and changes nothing else of a body. Whether it ends is
stated without a bound on its rounds. Where the hierarchy is acyclic and nothing stands above its
root, the type of a value can become more precise only so often, so narrowing comes to its end.
-/

namespace Devirt

open Relation

/-! ### How often a type can become more precise -/

namespace StaticType

variable {h : Hierarchy} {s t : StaticType}

/-- A number that grows along the order of types. -/
def rank (h : Hierarchy) : StaticType → Nat
  | .bottom => 0
  | .primitive _ => 1
  | .null => 1
  | .reference r => 2 + h.rank r.name + (if r.nullability = .maybe then 1 else 0) +
      if r.exact then 0 else 1
  | .top => h.size + 6

private theorem rank_reference_lt (ha : h.Acyclic) (htop : h.supertypes rootType = [])
    {a b : ReferenceType} (hle : le h (.reference a) (.reference b) = true) (hne : a ≠ b) :
    rank h (.reference a) < rank h (.reference b) := by
  simp only [le, Bool.and_eq_true, Bool.or_eq_true, Bool.not_eq_true', decide_eq_true_eq] at hle
  obtain ⟨⟨hnull, hsub⟩, hexact⟩ := hle
  -- no part of the rank gets smaller
  have hnull' : (if a.nullability = .maybe then 1 else 0) ≤
      if b.nullability = .maybe then 1 else 0 := by
    revert hnull
    cases a.nullability <;> cases b.nullability <;> simp [Nullability.le]
  have hexact' : (if a.exact then 0 else 1) ≤ if b.exact then 0 else 1 := by
    rcases hexact with hb | hb
    · cases a.exact <;> simp [hb]
    · simp [hb.1]
  simp only [rank]
  by_cases hname : a.name = b.name
  · have hparts : a.nullability ≠ b.nullability ∨ a.exact ≠ b.exact := by
      by_contra hparts
      rw [not_or, not_not, not_not] at hparts
      cases a
      cases b
      exact hne (by simpa using ⟨hname, hparts⟩)
    rw [hname]
    rcases hparts with hparts | hparts
    · have : a.nullability ≠ .maybe ∧ b.nullability = .maybe := by
        revert hnull hparts
        cases a.nullability <;> cases b.nullability <;> simp [Nullability.le]
      have ha : (if a.nullability = .maybe then 1 else 0) = 0 := if_neg this.1
      have hb : (if b.nullability = .maybe then 1 else 0) = 1 := if_pos this.2
      omega
    · have : a.exact = true ∧ b.exact = false := by
        revert hexact hparts
        cases a.exact <;> cases b.exact <;> simp
      have ha : (if a.exact then 0 else 1) = 0 := if_pos this.1
      have hb : (if b.exact then 0 else 1) = 1 := by simp [this.2]
      omega
  · have := Hierarchy.rank_lt ha htop hsub hname
    omega

/-- A strictly more precise type has a smaller number. -/
theorem rank_lt (ha : h.Acyclic) (htop : h.supertypes rootType = []) (hle : s.le h t = true)
    (hne : s ≠ t) : s.rank h < t.rank h := by
  have hname : ∀ n, h.rank n ≤ h.size + 1 := fun _ => Hierarchy.rank_le
  cases s <;> cases t
  case reference.reference a b => exact rank_reference_lt ha htop hle (by simpa using hne)
  case reference.top a =>
    have := hname a.name
    simp only [rank]
    split <;> split <;> omega
  all_goals simp_all [le, rank] <;> omega

end StaticType

namespace Body

variable {c d e : Body} {h : Hierarchy} {v : ValueId}

/-- The second body differs from the first one at most in the types of its values. -/
def Retyped (c d : Body) : Prop :=
  ∃ type : ValueId → Value → StaticType, d = c.updateValues fun v x => { x with type := type v x }

namespace Retyped

theorem refl (c : Body) : Retyped c c := ⟨fun _ x => x.type, updateValues_id.symm⟩

theorem trans (h : Retyped c d) (h' : Retyped d e) : Retyped c e := by
  obtain ⟨type, rfl⟩ := h
  obtain ⟨type', rfl⟩ := h'
  exact ⟨_, updateValues_updateValues⟩

theorem intact (h : Retyped c d) (hc : c.Intact) : d.Intact := by
  obtain ⟨type, rfl⟩ := h
  exact hc.updateValues fun _ _ => ⟨rfl, rfl, rfl⟩

theorem recorded (h : Retyped c d) (hc : c.Recorded) : d.Recorded := by
  obtain ⟨type, rfl⟩ := h
  exact hc.updateValues fun _ _ => ⟨rfl, rfl, rfl⟩

theorem hasValue (h : Retyped c d) : d.HasValue v ↔ c.HasValue v := by
  obtain ⟨type, rfl⟩ := h
  exact hasValue_updateValues

theorem context (h : Retyped c d) : d.context = c.context := by
  obtain ⟨type, rfl⟩ := h
  rfl

theorem operation {i : InstrId} (h : Retyped c d) : d.operation i = c.operation i := by
  obtain ⟨type, rfl⟩ := h
  rfl

theorem value {x : Value} (h : Retyped c d) (hx : c.value v = .ok x) :
    ∃ y, d.value v = .ok y ∧ y.dynamic = x.dynamic := by
  obtain ⟨type, rfl⟩ := h
  exact ⟨{ x with type := type v x }, value_updateValues.2 ⟨x, hx, rfl⟩, rfl⟩

theorem consistent (h : Retyped c d) (hc : c.Consistent) : d.Consistent := by
  obtain ⟨type, rfl⟩ := h
  exact hc.updateValues

theorem setType {type : StaticType} (h : c.setType v type = .ok d) : Retyped c d := by
  obtain ⟨-, rfl⟩ := modifyValue_eq_ok.1 h
  refine ⟨fun u x => if u = v then type else x.type, congrArg c.updateValues ?_⟩
  funext u x
  by_cases hu : u = v <;> simp [hu]

end Retyped

/-- The type that follows from the definition of the value, if there is one, is the type that the
value has, or is not below it. -/
def Stable (h : Hierarchy) (c : Body) (v : ValueId) : Prop :=
  ∃ x derived, c.value v = .ok x ∧ c.derivedType? h v = .ok derived ∧
    ∀ t, derived = some t → t = x.type ∨ t.le h x.type = false

end Body

namespace Narrowing

variable {h : Hierarchy} {s s' : Narrowing} {v : ValueId}

open Body

/-- A visit leaves everything as it is if the derived type of the value is no gain of precision.
Otherwise the value gets the derived type, which is strictly more precise, and its readers become
pending. -/
theorem visit_eq_or_gains (hrun : s.visit h v = .ok s') :
    s' = s ∧ s.body.Stable h v ∨ ∃ x type d readers, s.body.value v = .ok x ∧
      s.body.derivedType? h v = .ok (some type) ∧ type ≠ x.type ∧ type.le h x.type = true ∧
      s.body.setType v type = .ok d ∧ d.readers v = .ok readers ∧
      s' = ⟨d, s.pending.insertAll readers, s.narrowed.insert v⟩ := by
  simp only [Narrowing.visit, bind_eq_ok] at hrun
  obtain ⟨x, hx, o, hderived, hrun⟩ := hrun
  cases o with
  | none => exact .inl ⟨(Except.ok.inj hrun).symm, x, none, hx, hderived, by simp⟩
  | some type =>
    dsimp only at hrun
    split at hrun
    · rename_i hstable
      rw [Bool.or_eq_true, decide_eq_true_eq, Bool.not_eq_true'] at hstable
      refine .inl ⟨(Except.ok.inj hrun).symm, x, some type, hx, hderived, fun t ht => ?_⟩
      rwa [← Option.some.inj ht]
    · rename_i hless
      simp only [Bool.or_eq_true, decide_eq_true_eq, Bool.not_eq_true', not_or,
        Bool.not_eq_false] at hless
      simp only [bind_eq_ok] at hrun
      obtain ⟨d, hd, readers, hreaders, heq⟩ := hrun
      exact .inr ⟨x, type, d, readers, hx, hderived, hless.1, hless.2, hd, hreaders,
        (Except.ok.inj heq).symm⟩

/-- A visit leaves everything as it is, or gives the value its derived type, which is strictly more
precise, and makes its readers pending. -/
theorem visit_cases (hrun : s.visit h v = .ok s') :
    s' = s ∨ ∃ x type d readers, s.body.value v = .ok x ∧
      s.body.derivedType? h v = .ok (some type) ∧ type ≠ x.type ∧ type.le h x.type = true ∧
      s.body.setType v type = .ok d ∧ d.readers v = .ok readers ∧
      s' = ⟨d, s.pending.insertAll readers, s.narrowed.insert v⟩ :=
  (visit_eq_or_gains hrun).imp_left And.left

/-- What every visit keeps of the body and of the values that have gained precision, narrowing
keeps. -/
theorem run_invariant_narrowed {motive : Body → OrderedSet ValueId → Prop} {rounds : Nat}
    (hvisit : ∀ (s s' : Narrowing) v, motive s.body s.narrowed → s.visit h v = .ok s' →
      motive s'.body s'.narrowed)
    (hs : motive s.body s.narrowed) (hrun : Narrowing.run h rounds s = .ok s') :
    motive s'.body s'.narrowed := by
  induction rounds generalizing s with
  | zero =>
    cases hpending : s.pending.popLast? with
    | none =>
      rw [Narrowing.run.eq_1 h s 0 hpending] at hrun
      exact Except.ok.inj hrun ▸ hs
    | some p =>
      rw [Narrowing.run.eq_2 h s p hpending] at hrun
      cases hrun
  | succ rounds ih =>
    cases hpending : s.pending.popLast? with
    | none =>
      rw [Narrowing.run.eq_1 h s _ hpending] at hrun
      exact Except.ok.inj hrun ▸ hs
    | some p =>
      rw [Narrowing.run.eq_3 h s p.1 p.2 rounds hpending] at hrun
      obtain ⟨s₁, hstep, hrun⟩ := bind_eq_ok.1 hrun
      exact ih (hvisit { s with pending := p.2 } s₁ p.1 hs hstep) hrun

/-- What every visit keeps, narrowing keeps. -/
theorem run_invariant {motive : Body → Prop} {rounds : Nat}
    (hvisit : ∀ (s s' : Narrowing) v, motive s.body → s.visit h v = .ok s' → motive s'.body)
    (hs : motive s.body) (hrun : Narrowing.run h rounds s = .ok s') : motive s'.body :=
  run_invariant_narrowed (motive := fun d _ => motive d) hvisit hs hrun

theorem retyped_of_visit (hrun : s.visit h v = .ok s') : Retyped s.body s'.body := by
  obtain rfl | ⟨x, type, d, readers, -, -, -, -, hd, -, rfl⟩ := visit_cases hrun
  · exact .refl _
  · exact .setType hd

theorem retyped_of_run {rounds : Nat} (hrun : Narrowing.run h rounds s = .ok s') :
    Retyped s.body s'.body :=
  run_invariant (motive := Retyped s.body)
    (fun _ _ _ hs hvisit => hs.trans (retyped_of_visit hvisit)) (.refl _) hrun

/-- Only values that gain precision get other types. -/
theorem value_of_run {rounds : Nat} {y : Value} (hrun : Narrowing.run h rounds s = .ok s')
    (hv : v ∉ s'.narrowed) : s'.body.value v = .ok y ↔ s.body.value v = .ok y := by
  refine run_invariant_narrowed (motive := fun d narrowed => v ∉ narrowed →
    (d.value v = .ok y ↔ s.body.value v = .ok y)) ?_ (fun _ => Iff.rfl) hrun hv
  intro s₁ s₂ u hs hvisit hv
  obtain rfl | ⟨x, type, d, readers, -, -, -, -, hd, -, rfl⟩ := visit_cases hvisit
  · exact hs hv
  · rw [OrderedSet.mem_insert, not_or] at hv
    obtain ⟨-, rfl⟩ := modifyValue_eq_ok.1 hd
    rw [← hs hv.1, value_updateValues]
    simp only [if_neg hv.2, exists_eq_right]

/-! ### Narrowing without a bound on its rounds -/

/-- What narrowing ends with: the state in which nothing is pending any more, or the fault of its
last visit. Narrowing that goes on for ever ends with nothing. -/
inductive EndsWith (h : Hierarchy) : Narrowing → Except Fault Narrowing → Prop
  | rest {s : Narrowing} (hpop : s.pending.popLast? = none) : EndsWith h s (.ok s)
  | fail {s : Narrowing} {v : ValueId} {pending : OrderedSet ValueId} {e : Fault}
      (hpop : s.pending.popLast? = some (v, pending))
      (hvisit : { s with pending }.visit h v = .error e) : EndsWith h s (.error e)
  | visit {s s₁ : Narrowing} {v : ValueId} {pending : OrderedSet ValueId}
      {outcome : Except Fault Narrowing} (hpop : s.pending.popLast? = some (v, pending))
      (hvisit : { s with pending }.visit h v = .ok s₁) (hrest : EndsWith h s₁ outcome) :
      EndsWith h s outcome

/-- What a visit of the latest pending value passes on holds at the end. -/
theorem EndsWith.invariant {motive : Narrowing → Prop}
    (hvisit : ∀ {s s' v pending}, s.pending.popLast? = some (v, pending) → motive s →
      { s with pending }.visit h v = .ok s' → motive s')
    (hend : EndsWith h s (.ok s')) (hs : motive s) : motive s' ∧ s'.pending.popLast? = none := by
  generalize houtcome : Except.ok s' = outcome at hend
  induction hend with
  | rest hpop =>
    obtain rfl := Except.ok.inj houtcome
    exact ⟨hs, hpop⟩
  | fail => cases houtcome
  | visit hpop hrun _ ih => exact ih (hvisit hpop hs hrun) houtcome

/-- Narrowing that goes on for ever. -/
def Endless (h : Hierarchy) (s : Narrowing) : Prop := ∀ outcome, ¬ EndsWith h s outcome

theorem EndsWith.unique {a b : Except Fault Narrowing} (ha : EndsWith h s a)
    (hb : EndsWith h s b) : a = b := by
  induction ha with
  | rest hpop => cases hb <;> simp_all
  | fail hpop hvisit => cases hb <;> simp_all
  | visit hpop hvisit _ ih =>
    cases hb with
    | rest => simp_all
    | fail => simp_all
    | visit hpop' hvisit' hrest =>
      obtain ⟨rfl, rfl⟩ := Prod.mk.inj (Option.some.inj (hpop.symm.trans hpop'))
      obtain rfl := Except.ok.inj (hvisit.symm.trans hvisit')
      exact ih hrest

/-- One round of narrowing, if a value is pending. -/
def turn (h : Hierarchy) (s : Narrowing) : Option Narrowing :=
  match s.pending.popLast? with
  | none => none
  | some (v, pending) => ({ s with pending }.visit h v).toOption

/-- Several rounds of narrowing, if there are as many. -/
def turns (h : Hierarchy) : Nat → Narrowing → Option Narrowing
  | 0, s => some s
  | n + 1, s => (turn h s).bind (turns h n)

theorem turns_add {m n : Nat} : turns h (m + n) s = (turns h m s).bind (turns h n) := by
  induction m generalizing s with
  | zero => simp [turns]
  | succ m ih =>
    rw [Nat.add_right_comm, turns, turns]
    cases turn h s with
    | none => rfl
    | some s' => simp [ih]

/-- Narrowing that comes back to where it was goes on for ever. -/
theorem isSome_turns_of_period {m p : Nat} (hp : 0 < p) (hsome : (turns h (m + p) s).isSome)
    (hperiod : turns h (m + p) s = turns h m s) (n : Nat) : (turns h n s).isSome := by
  induction n using Nat.strongRecOn with
  | ind n ih =>
    by_cases hn : n ≤ m + p
    · obtain ⟨k, hk⟩ := Nat.exists_eq_add_of_le hn
      rw [hk, turns_add] at hsome
      exact Option.isSome_of_isSome_bind hsome
    · obtain ⟨k, rfl⟩ := Nat.exists_eq_add_of_le (Nat.le_of_not_le hn)
      rw [turns_add, hperiod, ← turns_add]
      apply ih
      omega

/-- A run ends as narrowing does, or it has used up its rounds and something is still pending. -/
theorem endsWith_run_or_turns (h : Hierarchy) (rounds : Nat) (s : Narrowing) :
    EndsWith h s (Narrowing.run h rounds s) ∨
      Narrowing.run h rounds s = .error .unsettled ∧ (turns h rounds s).isSome := by
  induction rounds generalizing s with
  | zero =>
    cases hpop : s.pending.popLast? with
    | none =>
      rw [Narrowing.run.eq_1 h s 0 hpop]
      exact .inl (.rest hpop)
    | some p => exact .inr ⟨by rw [Narrowing.run.eq_2 h s p hpop]; rfl, rfl⟩
  | succ rounds ih =>
    cases hpop : s.pending.popLast? with
    | none =>
      rw [Narrowing.run.eq_1 h s _ hpop]
      exact .inl (.rest hpop)
    | some p =>
      rw [Narrowing.run.eq_3 h s p.1 p.2 rounds hpop]
      cases hvisit : { s with pending := p.2 }.visit h p.1 with
      | error e => exact .inl (.fail hpop hvisit)
      | ok s₁ =>
        have hturn : turn h s = some s₁ := by simp [turn, hpop, hvisit, Except.toOption]
        refine (ih s₁).imp (fun hend => .visit hpop hvisit hend) fun ⟨hrun, hsome⟩ => ⟨hrun, ?_⟩
        simpa [turns, hturn] using hsome

/-- What has a round after every number of rounds does not end. -/
theorem endless_of_turns (hturns : ∀ n, (turns h n s).isSome) : Endless h s := by
  intro outcome hend
  induction hend with
  | rest hpop => simpa [turns, turn, hpop] using hturns 1
  | fail hpop hvisit => simpa [turns, turn, hpop, hvisit, Except.toOption] using hturns 1
  | visit hpop hvisit _ ih =>
    apply ih
    intro n
    simpa [turns, turn, hpop, hvisit, Except.toOption] using hturns (n + 1)

/-- No number of rounds is enough for endless narrowing. -/
theorem Endless.run (hendless : Endless h s) (rounds : Nat) :
    Narrowing.run h rounds s = .error .unsettled :=
  ((endsWith_run_or_turns h rounds s).resolve_left (hendless _)).1

end Narrowing

/-! ### Narrowing comes to its end -/

namespace Body

variable {h : Hierarchy} {c : Body} {v : ValueId} {x : Value}

theorem Recorded.exists_derivedType? (hc : c.Recorded) (hx : c.value v = .ok x) :
    ∃ derived, c.derivedType? h v = .ok derived := by
  cases hdef : x.definition with
  | undefined => exact ⟨none, by simp [derivedType?, hx, hdef]⟩
  | instruction i =>
    obtain ⟨op, hop, -⟩ := hc.definition_instruction hx hdef
    cases op with
    | cast out object name =>
      have ho : object ∈ (Operation.cast out object name).mentions := by
        simp [Operation.mentions, Operation.operands]
      obtain ⟨y, hy⟩ := exists_value_iff.2 (hc.hasValue hop object ho)
      exact ⟨_, by simp [derivedType?, hx, hdef, hop, hy]; rfl⟩
    | assumeNonNull out source text =>
      have ho : source ∈ (Operation.assumeNonNull out source text).mentions := by
        simp [Operation.mentions, Operation.operands]
      obtain ⟨y, hy⟩ := exists_value_iff.2 (hc.hasValue hop source ho)
      exact ⟨_, by simp [derivedType?, hx, hdef, hop, hy]; rfl⟩
    | _ => exact ⟨none, by simp [derivedType?, hx, hdef, hop]⟩
  | phi b =>
    obtain ⟨phi, ⟨y, hy, -⟩, -⟩ := hc.definition_phi hx hdef
    cases hfind : y.phi? v with
    | none => exact ⟨none, by simp [derivedType?, hx, hdef, hy, hfind]⟩
    | some p =>
      have hp : c.HasPhi b p := ⟨y, hy, List.mem_of_find?_eq_some hfind⟩
      have hoperand : ∀ o ∈ p.operands, ∃ type,
          (do .ok (← c.value o).type) = Except.ok (ε := Fault) type := by
        intro o ho
        obtain ⟨z, hz⟩ := exists_value_iff.2 (hc.phi_hasValue hp o (List.mem_cons_of_mem _ ho))
        exact ⟨z.type, by simp [hz]⟩
      obtain ⟨types, htypes⟩ := exists_mapM_eq_ok.2 hoperand
      exact ⟨some (types.foldl (StaticType.join h) .bottom),
        by simpa [derivedType?, hx, hdef, hy, hfind] using ⟨types, htypes, rfl⟩⟩

/-- Where the derived type of a value comes from. -/
theorem derivedType?_cases {t : StaticType} (hderived : c.derivedType? h v = .ok (some t)) :
    ∃ x, c.value v = .ok x ∧
      ((∃ i out object name y, x.definition = .instruction i ∧
          c.operation i = .ok (.cast out object name) ∧ c.value object = .ok y ∧
          t = if y.type.le h (.ofClass name y.type.nullability) then y.type
            else .ofClass name y.type.nullability) ∨
        (∃ i out source origin y, x.definition = .instruction i ∧
          c.operation i = .ok (.assumeNonNull out source origin) ∧ c.value source = .ok y ∧
          t = y.type.withNullability .notNull) ∨
        ∃ b phi, ∃ types : List StaticType, c.HasPhi b phi ∧ phi.out = v ∧
          (phi.operands.mapM fun o => do return (← c.value o).type) = .ok types ∧
          t = types.foldl (StaticType.join h) .bottom) := by
  unfold derivedType? at hderived
  obtain ⟨x, hx, htype⟩ := bind_eq_ok.1 hderived
  refine ⟨x, hx, ?_⟩
  split at htype
  · cases htype
  · rename_i i hdef
    obtain ⟨op, hop, hkind⟩ := bind_eq_ok.1 htype
    split at hkind
    · rename_i out object name
      obtain ⟨y, hy, ht⟩ := bind_eq_ok.1 hkind
      exact .inl ⟨i, out, object, name, y, hdef, hop, hy,
        (Option.some.inj (Except.ok.inj ht)).symm⟩
    · rename_i out source origin
      obtain ⟨y, hy, ht⟩ := bind_eq_ok.1 hkind
      exact .inr (.inl ⟨i, out, source, origin, y, hdef, hop, hy,
        (Option.some.inj (Except.ok.inj ht)).symm⟩)
    · cases hkind
  · obtain ⟨y, hy, hfound⟩ := bind_eq_ok.1 htype
    split at hfound
    · cases hfound
    · rename_i phi hphi
      obtain ⟨types, htypes, ht⟩ := bind_eq_ok.1 hfound
      exact .inr (.inr ⟨_, phi, types, ⟨y, hy, List.mem_of_find?_eq_some hphi⟩,
        by simpa using List.find?_some hphi, htypes, (Option.some.inj (Except.ok.inj ht)).symm⟩)

/-- Where the records are right, the definition that a type is derived from outputs the value. -/
theorem Recorded.derivedType?_cases {t : StaticType} (hc : c.Recorded)
    (hderived : c.derivedType? h v = .ok (some t)) :
    (∃ i object name y, c.operation i = .ok (.cast v object name) ∧ c.value object = .ok y ∧
        t = if y.type.le h (.ofClass name y.type.nullability) then y.type
          else .ofClass name y.type.nullability) ∨
      (∃ i source origin y, c.operation i = .ok (.assumeNonNull v source origin) ∧
        c.value source = .ok y ∧ t = y.type.withNullability .notNull) ∨
      ∃ b phi, ∃ types : List StaticType, c.HasPhi b phi ∧ phi.out = v ∧
        (∀ o ∈ phi.operands, ∃ y, c.value o = .ok y ∧ y.type ∈ types) ∧
        t = types.foldl (StaticType.join h) .bottom := by
  have hout : ∀ {x i op}, c.value v = .ok x → x.definition = .instruction i →
      c.operation i = .ok op → op.out? = some v := by
    intro x i op hx hdef hop
    obtain ⟨op', hop', hout⟩ := hc.definition_instruction hx hdef
    rwa [Except.ok.inj (hop.symm.trans hop')]
  obtain ⟨x, hx, ⟨i, out, object, name, y, hdef, hop, hy, ht⟩ |
    ⟨i, out, source, origin, y, hdef, hop, hy, ht⟩ | ⟨b, phi, types, hphi, hv, htypes, ht⟩⟩ :=
    Body.derivedType?_cases hderived
  · obtain rfl : out = v := Option.some.inj (hout hx hdef hop)
    exact .inl ⟨i, object, name, y, hop, hy, ht⟩
  · obtain rfl : out = v := Option.some.inj (hout hx hdef hop)
    exact .inr (.inl ⟨i, source, origin, y, hop, hy, ht⟩)
  · refine .inr (.inr ⟨b, phi, types, hphi, hv, fun o ho => ?_, ht⟩)
    obtain ⟨z, hz⟩ := exists_value_iff.2 (hc.phi_hasValue hphi o (List.mem_cons_of_mem _ ho))
    exact ⟨z, hz, (mem_of_mapM_eq_ok htypes).2 ⟨o, ho, by simp [hz]⟩⟩

theorem Recorded.exists_readers (hc : c.Recorded) (hx : c.value v = .ok x) :
    ∃ l, c.readers v = .ok l ∧ ∀ u ∈ l, c.HasValue u := by
  obtain ⟨ops, hops⟩ : ∃ ops, x.users.toList.mapM c.operation = .ok ops := by
    refine exists_mapM_eq_ok.2 fun i hi => ?_
    obtain ⟨op, hop, -⟩ := (hc.users hx i).1 hi
    exact ⟨op, hop⟩
  refine ⟨_, by simp [readers, hx, hops]; rfl, fun u hu => ?_⟩
  rcases List.mem_append.1 hu with hu | hu
  · obtain ⟨op, hmem, hout⟩ := List.mem_filterMap.1 hu
    obtain ⟨i, -, hop⟩ := (mem_of_mapM_eq_ok hops).1 hmem
    exact hc.hasValue hop u (by simp [Operation.mentions, hout])
  · obtain ⟨b, phi, hphi, rfl, -⟩ := (hc.phiUsers hx u).1 hu
    exact hc.phi_hasValue hphi _ (by simp)

/-- There are no more readers than uses on record. -/
theorem length_readers_le {l : List ValueId} (hx : c.value v = .ok x) (hl : c.readers v = .ok l) :
    l.length ≤ x.users.size + x.phiUsers.size := by
  simp only [readers, hx, ok_bind, bind_eq_ok, pure_eq_ok, Except.ok.injEq] at hl
  obtain ⟨ops, hops, rfl⟩ := hl
  have hlength := (mapM_eq_ok.1 hops).length_eq
  have hfilter := List.length_filterMap_le (fun op : Operation => op.out?) ops
  rw [List.length_append, OrderedSet.size, OrderedSet.size]
  omega

end Body

/-- A bound on how often the readers of a value can still be made pending on account of it. -/
def Value.reserve (h : Hierarchy) (x : Value) : Nat :=
  x.type.rank h * (x.users.size + x.phiUsers.size)

private theorem sum_map_modify {α : Type} {l : List α} {n : Nat} {a : α} (f : α → Nat) (g : α → α)
    (ha : l[n]? = some a) : ((l.modify n g).map f).sum + f a = (l.map f).sum + f (g a) := by
  induction l generalizing n with
  | nil => simp at ha
  | cons b l ih =>
    cases n with
    | zero =>
      obtain rfl : b = a := by simpa using ha
      simp
      omega
    | succ n =>
      have := ih (n := n) (by simpa using ha)
      simp only [List.modify_succ_cons, List.map_cons, List.sum_cons]
      omega

theorem OrderedSet.mem_of_popLast? {α : Type} {s t : OrderedSet α} {a b : α}
    (h : s.popLast? = some (a, t)) : b ∈ s ↔ b ∈ t ∨ b = a := by
  rw [← mem_toList, popLast?_eq_some h, List.mem_append, List.mem_singleton, mem_toList]

theorem OrderedSet.eq_empty_of_popLast? {α : Type} {s : OrderedSet α} (h : s.popLast? = none) :
    s = ∅ := by
  obtain ⟨l, hl⟩ := s
  obtain rfl : l = [] := by simpa [popLast?] using h
  rfl

theorem OrderedSet.size_of_popLast? {α : Type} {s t : OrderedSet α} {a : α}
    (h : s.popLast? = some (a, t)) : s.size = t.size + 1 := by
  simp [size, popLast?_eq_some h]

theorem OrderedSet.size_insertAll_le {α : Type} [DecidableEq α] {s : OrderedSet α} {l : List α} :
    (s.insertAll l).size ≤ s.size + l.length := by
  induction l generalizing s with
  | nil => simp [insertAll]
  | cons a l ih =>
    have hinsert : (s.insert a).size ≤ s.size + 1 := by
      rw [insert]
      split <;> simp [size]
    have := ih (s := s.insert a)
    simp only [insertAll, List.foldl_cons, List.length_cons] at this ⊢
    omega

namespace Narrowing

variable {h : Hierarchy} {s s' : Narrowing} {v : ValueId}

open Body

/-- What is pending, and what may still become pending. -/
def potential (h : Hierarchy) (s : Narrowing) : Nat :=
  s.pending.size + (s.body.values.map (Value.reserve h)).sum

/-- In a body whose records are right, a value can always be visited. -/
theorem exists_visit (hs : s.body.Recorded) (hv : s.body.HasValue v) :
    ∃ s', s.visit h v = .ok s' := by
  obtain ⟨x, hx⟩ := exists_value_iff.2 hv
  obtain ⟨derived, hderived⟩ := hs.exists_derivedType? (h := h) hx
  cases derived with
  | none => exact ⟨s, by simp [Narrowing.visit, hx, hderived]⟩
  | some type =>
    by_cases hless : (decide (type = x.type) || !type.le h x.type) = true
    · exact ⟨s, by simp only [Narrowing.visit, hx, hderived, ok_bind, if_pos hless, pure_eq_ok]⟩
    · obtain ⟨d, hd⟩ : ∃ d, s.body.setType v type = .ok d := ⟨_, modifyValue_eq_ok.2 ⟨hv, rfl⟩⟩
      have hretyped := Retyped.setType hd
      obtain ⟨y, hy⟩ := exists_value_iff.2 (hretyped.hasValue.2 hv)
      obtain ⟨readers, hreaders, -⟩ := (hretyped.recorded hs).exists_readers hy
      exact ⟨⟨d, s.pending.insertAll readers, s.narrowed.insert v⟩, by
        simp only [Narrowing.visit, hx, hderived, ok_bind, if_neg hless, hd, hreaders, pure_eq_ok]⟩

theorem pending_visit (hs : s.body.Recorded) (hrun : s.visit h v = .ok s') :
    ∀ u ∈ s'.pending, u ∈ s.pending ∨ s'.body.HasValue u := by
  intro u hu
  obtain rfl | ⟨x, type, d, l, hx, -, -, -, hset, hl, rfl⟩ := visit_cases hrun
  · exact .inl hu
  have hretyped := Retyped.setType hset
  obtain ⟨y, hy⟩ := exists_value_iff.2 (hretyped.hasValue.2 (hasValue_of_value hx))
  obtain ⟨l', hl', hhas⟩ := (hretyped.recorded hs).exists_readers hy
  obtain rfl : l' = l := Except.ok.inj (hl'.symm.trans hl)
  exact (OrderedSet.mem_insertAll.1 hu).imp_right (hhas u)

/-- A gain of precision pays for the readers that become pending. -/
theorem potential_visit (ha : h.Acyclic) (htop : h.supertypes rootType = [])
    (hrun : s.visit h v = .ok s') : s'.potential h ≤ s.potential h := by
  obtain rfl | ⟨x, type, d, l, hx, -, hne, hle, hset, hl, rfl⟩ := visit_cases hrun
  · exact Nat.le_refl _
  have hx' := value_eq_ok.1 hx
  have hvalues : d.values = s.body.values.modify v.index fun x => { x with type } := by
    simp only [Body.setType, Body.modifyValue, hx, ok_bind, pure_eq_ok, Except.ok.injEq] at hset
    rw [← hset]
  have hvalue : d.value v = .ok { x with type } :=
    value_eq_ok.2 (by simp [hvalues, hx'])
  have hlength := length_readers_le hvalue hl
  have hsum := sum_map_modify (Value.reserve h) (fun x => { x with type }) hx'
  have hsize := s.pending.size_insertAll_le (l := l)
  have hrank : (type.rank h + 1) * (x.users.size + x.phiUsers.size) ≤
      x.type.rank h * (x.users.size + x.phiUsers.size) :=
    Nat.mul_le_mul_right _ (StaticType.rank_lt ha htop hle hne)
  simp only [potential, hvalues]
  simp only [Value.reserve, Nat.add_mul] at hsum hrank hlength ⊢
  omega

/-- Where the hierarchy is acyclic and nothing stands above its root, narrowing ends: the visited value
is no longer pending, and all that has become so is paid for. -/
theorem exists_endsWith (ha : h.Acyclic) (htop : h.supertypes rootType = []) (s : Narrowing) :
    ∃ outcome, EndsWith h s outcome := by
  induction hn : s.potential h using Nat.strong_induction_on generalizing s with
  | h n ih =>
    cases hpop : s.pending.popLast? with
    | none => exact ⟨.ok s, .rest hpop⟩
    | some p =>
      cases hvisit : { s with pending := p.2 }.visit h p.1 with
      | error e => exact ⟨.error e, .fail hpop hvisit⟩
      | ok s₁ =>
        have hvisited := potential_visit ha htop hvisit
        have hsize := OrderedSet.size_of_popLast? hpop
        have hless : s₁.potential h < n := by
          simp only [potential] at hvisited hn ⊢
          omega
        obtain ⟨outcome, hend⟩ := ih _ hless s₁ rfl
        exact ⟨outcome, .visit hpop hvisit hend⟩

/-- Where the records are right and what is pending exists, narrowing ends with a state. -/
theorem EndsWith.exists_ok {outcome : Except Fault Narrowing} (hend : EndsWith h s outcome)
    (hs : s.body.Recorded) (hpending : ∀ v ∈ s.pending, s.body.HasValue v) :
    ∃ s', outcome = .ok s' := by
  induction hend with
  | rest => exact ⟨_, rfl⟩
  | @fail s v pending e hpop hvisit =>
    have hv := hpending v ((OrderedSet.mem_of_popLast? hpop).2 (.inr rfl))
    obtain ⟨s', hs'⟩ := exists_visit (s := { s with pending }) (h := h) hs hv
    rw [hvisit] at hs'
    cases hs'
  | @visit s s₁ v pending outcome hpop hvisit _ ih =>
    have hretyped := retyped_of_visit hvisit
    apply ih (hretyped.recorded hs)
    intro u hu
    rcases pending_visit (s := { s with pending }) hs hvisit u hu with hold | hnew
    · exact hretyped.hasValue.2 (hpending u ((OrderedSet.mem_of_popLast? hpop).2 (.inl hold)))
    · exact hnew

end Narrowing

namespace Body

variable {h : Hierarchy} {c d : Body} {affected narrowed : OrderedSet ValueId}

theorem retyped_of_narrow (hrun : c.narrow h affected = .ok (narrowed, d)) : Retyped c d := by
  obtain ⟨s, hs, heq⟩ := bind_eq_ok.1 hrun
  obtain ⟨-, rfl⟩ := Prod.mk.inj (Except.ok.inj heq)
  exact Narrowing.retyped_of_run hs

end Body

end Devirt
