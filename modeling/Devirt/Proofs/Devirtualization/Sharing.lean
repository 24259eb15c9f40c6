import Devirt.Devirtualization.Pass
import Devirt.Proofs.Dispatch.Memoization
import Devirt.Proofs.Outcome

/-!
Devirtualization with a resolver that others have used. No step looks at what the resolver knows
except to resolve a call, and that gives the same answer whatever is known. So the bodies of a program
may be devirtualized in any order with one resolver, and each becomes what it would become alone.
-/

namespace Devirt

namespace Devirtualization.State

variable {h : Hierarchy}

/-- The state with a resolver that knows nothing. -/
def forget (s : State h) : State h := { s with resolver := ∅ }

@[simp] theorem forget_forget (s : State h) : s.forget.forget = s.forget := rfl

@[simp] theorem body_forget (s : State h) : s.forget.body = s.body := rfl

end Devirtualization.State

namespace Devirtualizing

variable {h : Hierarchy} {α β : Type}

/-- What can be seen of the outcome of a step: all but the resolver. -/
def seen (q : α × Devirtualization.State h) : α × Devirtualization.State h := (q.1, q.2.forget)

/-- What can be seen of the outcome does not depend on what the resolver knows. -/
def Oblivious (m : Devirtualizing h α) : Prop :=
  ∀ s, (m.run s).map seen = (m.run s.forget).map seen

/-! ### Steps and their composition -/

theorem oblivious_pure (a : α) : Oblivious (pure a : Devirtualizing h α) := by
  intro s
  rfl

theorem Oblivious.bind {m : Devirtualizing h α} {g : α → Devirtualizing h β} (hm : Oblivious m)
    (hg : ∀ a, Oblivious (g a)) : Oblivious (m >>= g) := by
  intro s
  rw [StateT.run_bind, StateT.run_bind]
  rcases map_eq_map_iff.1 (hm s) with ⟨e, hrun, hrun'⟩ | ⟨⟨a, s₁⟩, ⟨a', s₁'⟩, hrun, hrun', hseen⟩
  · rw [hrun, hrun']
  · obtain ⟨rfl, hforget⟩ := Prod.mk.inj hseen
    rw [hrun, hrun']
    calc ((g a).run s₁).map seen = ((g a).run s₁.forget).map seen := hg a s₁
      _ = ((g a).run s₁'.forget).map seen := by rw [hforget]
      _ = ((g a).run s₁').map seen := (hg a s₁').symm

/-- A step may read anything of the state but the resolver. -/
theorem oblivious_get {g : Devirtualization.State h → Devirtualizing h β}
    (hread : ∀ s, g s.forget = g s) (hg : ∀ s, Oblivious (g s)) : Oblivious (get >>= g) := by
  intro s
  show ((g s).run s).map seen = ((g s.forget).run s.forget).map seen
  rw [hread]
  exact hg s s

theorem oblivious_modify {f : Devirtualization.State h → Devirtualization.State h}
    (hf : ∀ s, (f s).forget = (f s.forget).forget) :
    Oblivious (modify f : Devirtualizing h PUnit) := by
  intro s
  show Except.ok (PUnit.unit, (f s).forget) = Except.ok (PUnit.unit, (f s.forget).forget)
  rw [hf]

theorem oblivious_liftM (e : Except Fault α) : Oblivious (liftM e : Devirtualizing h α) := by
  intro s
  cases e <;> rfl

theorem oblivious_query (f : Body → Except Fault α) : Oblivious (query f : Devirtualizing h α) := by
  unfold query
  apply oblivious_get
  · intro s
    rfl
  · intro s
    exact oblivious_liftM _

theorem oblivious_edit (f : Body → Except Fault Body) :
    Oblivious (edit f : Devirtualizing h Unit) := by
  intro s
  simp only [edit, StateT.run_bind, StateT.run_get, StateT.run_monadLift, pure_eq_ok, ok_bind,
    Devirtualization.State.body_forget]
  cases f s.body <;> rfl

theorem oblivious_editWith (f : Body → Except Fault (α × Body)) :
    Oblivious (editWith f : Devirtualizing h α) := by
  intro s
  simp only [editWith, StateT.run_bind, StateT.run_get, StateT.run_monadLift, pure_eq_ok, ok_bind,
    Devirtualization.State.body_forget]
  cases f s.body <;> rfl

theorem oblivious_rebuildTree : Oblivious (rebuildTree : Devirtualizing h Unit) := by
  intro s
  simp only [rebuildTree, StateT.run_bind, StateT.run_get, StateT.run_monadLift, pure_eq_ok,
    ok_bind, Devirtualization.State.body_forget]
  cases s.body.dominators <;> rfl

theorem oblivious_count (f : CallStats → CallStats) :
    Oblivious (count f : Devirtualizing h Unit) :=
  oblivious_modify fun _ => rfl

theorem oblivious_affect (l : List ValueId) : Oblivious (affect l : Devirtualizing h Unit) :=
  oblivious_modify fun _ => rfl

/-- The resolver is asked here, and what it knows changes what it keeps but not what it answers. -/
theorem oblivious_resolve (kind : DispatchKind) (method : MethodRef) (receiver : StaticType) :
    Oblivious (resolve kind method receiver : Devirtualizing h _) := by
  intro s
  have hanswer : (s.resolver.resolve kind method receiver s.body.context).1 =
      (s.forget.resolver.resolve kind method receiver s.body.context).1 := by
    rw [h.resolve_fst, h.resolve_fst]
  show Except.ok ((s.resolver.resolve kind method receiver s.body.context).1, s.forget) =
    Except.ok ((s.forget.resolver.resolve kind method receiver s.body.context).1, s.forget)
  rw [hanswer]

/-! ### The steps of devirtualization -/

theorem oblivious_retargetCall (i : InstrId) (kind : DispatchKind) (method : MethodRef) :
    Oblivious (retargetCall i kind method : Devirtualizing h Unit) := by
  unfold retargetCall
  apply (oblivious_query _).bind
  intro call?
  split
  · exact oblivious_edit _
  · exact oblivious_pure _

theorem oblivious_superToVirtual (i : InstrId) :
    Oblivious (superToVirtual i : Devirtualizing h Bool) := by
  unfold superToVirtual
  apply (oblivious_query _).bind
  intro call?
  split
  · split
    · apply (oblivious_query _).bind
      intro x
      apply (oblivious_resolve _ _ _).bind
      intro selection
      split
      · apply (oblivious_resolve _ _ _).bind
        intro selection'
        split
        · exact oblivious_pure _
        · apply (oblivious_retargetCall _ _ _).bind
          intro _
          apply (oblivious_count _).bind
          intro _
          exact oblivious_pure _
      · exact oblivious_pure _
    · exact oblivious_pure _
  · exact oblivious_pure _

theorem oblivious_specialize (options : Options) (i : InstrId) :
    Oblivious (specialize options i : Devirtualizing h Unit) := by
  unfold specialize
  split
  · apply (oblivious_query _).bind
    intro call?
    split
    · split
      · apply (oblivious_query _).bind
        intro x
        apply oblivious_get
        · intro s
          rfl
        · intro s
          split
          · apply (oblivious_retargetCall _ _ _).bind
            intro _
            exact oblivious_count _
          · exact oblivious_pure _
      · exact oblivious_pure _
    · exact oblivious_pure _
  · exact oblivious_pure _

theorem oblivious_soleClassTarget? (call : Call) (receiver : ValueId) :
    Oblivious (soleClassTarget? call receiver : Devirtualizing h _) := by
  unfold soleClassTarget?
  apply (oblivious_query _).bind
  intro x
  apply (oblivious_resolve _ _ _).bind
  intro selection
  split
  · apply oblivious_get
    · intro s
      rfl
    · intro s
      dsimp only
      split <;> exact oblivious_pure _
  · exact oblivious_pure _

theorem oblivious_newCastValue (receiver : ValueId) (holder : TypeName) (type : StaticType) :
    Oblivious (newCastValue receiver holder type : Devirtualizing h ValueId) := by
  unfold newCastValue
  apply (oblivious_editWith _).bind
  intro v
  apply (oblivious_query _).bind
  intro x
  split
  · split
    · apply (oblivious_edit _).bind
      intro _
      exact oblivious_pure _
    · exact oblivious_pure _
  · exact oblivious_pure _

theorem oblivious_placeCast (i : InstrId) (index : Nat) (receiver : ValueId) (holder : TypeName)
    (type : StaticType) : Oblivious (placeCast i index receiver holder type : Devirtualizing h _) := by
  unfold placeCast
  apply (oblivious_newCastValue _ _ _).bind
  intro v
  apply (oblivious_query _).bind
  intro b
  apply (oblivious_query _).bind
  intro x
  split
  · apply (oblivious_editWith _).bind
    intro tail
    apply (oblivious_count _).bind
    intro _
    apply (oblivious_editWith _).bind
    intro cast
    apply oblivious_rebuildTree.bind
    intro _
    apply (oblivious_count _).bind
    intro _
    exact oblivious_pure _
  · apply (oblivious_editWith _).bind
    intro cast
    apply (oblivious_count _).bind
    intro _
    exact oblivious_pure _

theorem oblivious_cachedCast? (receiver : ValueId) (holder : TypeName) (b : BlockId) :
    Oblivious (cachedCast? receiver holder b : Devirtualizing h _) := by
  unfold cachedCast?
  apply oblivious_get
  · intro s
    rfl
  · intro s
    split
    · apply (oblivious_liftM _).bind
      intro reaches
      split <;> exact oblivious_pure _
    · exact oblivious_pure _

theorem oblivious_spreadCast (i : InstrId) (receiver : ValueId) (type : StaticType) (cast : InstrId)
    (v : ValueId) : Oblivious (spreadCast i receiver type cast v : Devirtualizing h Unit) := by
  unfold spreadCast
  apply (oblivious_query _).bind
  intro x
  split
  · apply oblivious_get
    · intro s
      rfl
    · intro s
      apply (oblivious_editWith _).bind
      intro replaced
      apply (oblivious_query _).bind
      intro operations
      exact oblivious_affect _
  · exact oblivious_pure _

theorem oblivious_castReceiver (i : InstrId) (index : Nat) (receiver : ValueId)
    (holder : TypeName) : Oblivious (castReceiver i index receiver holder : Devirtualizing h _) := by
  unfold castReceiver
  apply (oblivious_query _).bind
  intro x
  dsimp only
  split
  · exact oblivious_pure _
  · apply (oblivious_query _).bind
    intro b
    apply (oblivious_cachedCast? _ _ _).bind
    intro cast?
    split
    · apply (oblivious_editWith _).bind
      intro _
      apply (oblivious_affect _).bind
      intro _
      apply (oblivious_count _).bind
      intro _
      exact oblivious_pure _
    · apply (oblivious_placeCast _ _ _ _ _).bind
      intro placed
      apply Oblivious.bind (oblivious_modify fun _ => rfl)
      intro _
      apply (oblivious_affect _).bind
      intro _
      apply (oblivious_editWith _).bind
      intro _
      apply (oblivious_spreadCast _ _ _ _ _).bind
      intro _
      exact oblivious_pure _

theorem oblivious_interfaceToVirtual (i : InstrId) (index : Nat) :
    Oblivious (interfaceToVirtual i index : Devirtualizing h Moved) := by
  unfold interfaceToVirtual
  apply (oblivious_query _).bind
  intro call?
  split
  · split
    · apply (oblivious_soleClassTarget? _ _).bind
      intro target?
      split
      · apply (oblivious_retargetCall _ _ _).bind
        intro _
        apply (oblivious_count _).bind
        intro _
        apply (oblivious_affect _).bind
        intro _
        have hdone : ∀ moved : Moved, Oblivious (h := h) do
            modify fun s => { s with devirtualized := s.devirtualized.insert i }
            return moved := by
          intro moved
          apply Oblivious.bind (oblivious_modify fun _ => rfl)
          intro _
          exact oblivious_pure _
        dsimp only
        split
        · exact (oblivious_pure _).bind hdone
        · exact (oblivious_castReceiver _ _ _ _).bind hdone
      · exact oblivious_pure _
    · exact oblivious_pure _
  · exact oblivious_pure _

theorem oblivious_visit (options : Options) (i : InstrId) (index : Nat) :
    Oblivious (visit options i index : Devirtualizing h Moved) := by
  have hdone : ∀ moved : Moved, Oblivious (h := h) do
      specialize options i
      return moved := by
    intro moved
    apply (oblivious_specialize _ _).bind
    intro _
    exact oblivious_pure _
  unfold visit
  apply (oblivious_query _).bind
  intro call?
  split
  · split
    · dsimp only
      split
      · apply (oblivious_superToVirtual _).bind
        intro changed
        split
        · exact hdone _
        · exact oblivious_pure _
      · exact oblivious_pure _
    · exact hdone _
    · split
      · apply (oblivious_interfaceToVirtual _ _).bind
        intro moved
        apply (oblivious_query _).bind
        intro call?
        dsimp only
        split
        · exact hdone _
        · exact oblivious_pure _
      · exact oblivious_pure _
  · exact oblivious_pure _

end Devirtualizing

/-! ### The walk -/

namespace Walk

variable {h : Hierarchy}

/-- The walk with a resolver that knows nothing. -/
def forget (w : Walk h) : Walk h := { w with state := w.state.forget }

theorem forget_resume (w : Walk h) (s : Devirtualization.State h) (moved : Moved) :
    (w.resume s moved).forget = w.forget.resume s.forget moved := by
  cases moved <;> rfl

theorem forget_advance (options : Options) (w : Walk h) :
    (w.advance options).map (Option.map forget) =
      (w.forget.advance options).map (Option.map forget) := by
  unfold advance
  have hblock : w.forget.block? = w.block? := rfl
  rw [hblock]
  split
  · rename_i b hb
    have hinstruction : w.forget.instruction? b = w.instruction? b := rfl
    rw [hinstruction]
    cases w.instruction? b with
    | error e => rfl
    | ok i? =>
      cases i? with
      | none => rfl
      | some i =>
        have hvisit := Devirtualizing.oblivious_visit options i w.index w.state
        rcases map_eq_map_iff.1 hvisit with ⟨e, hrun, hrun'⟩ | ⟨q, q', hrun, hrun', hseen⟩
        · show Except.map _ ((Devirtualizing.visit options i w.index).run w.state >>= _) =
            Except.map _ ((Devirtualizing.visit options i w.index).run w.state.forget >>= _)
          rw [hrun, hrun']
          rfl
        · obtain ⟨hmoved, hforget⟩ := Prod.mk.inj hseen
          show Except.map _ ((Devirtualizing.visit options i w.index).run w.state >>= _) =
            Except.map _ ((Devirtualizing.visit options i w.index).run w.state.forget >>= _)
          rw [hrun, hrun']
          show Except.ok (some (w.resume q.2 q.1).forget) =
            Except.ok (some (w.forget.resume q'.2 q'.1).forget)
          rw [forget_resume, forget_resume, hmoved, hforget]
          rfl
  · rfl

theorem forget_run (options : Options) (rounds : Nat) (w : Walk h) :
    (w.run options rounds).map (·.forget) = (w.forget.run options rounds).map (·.forget) := by
  induction rounds generalizing w with
  | zero => rfl
  | succ rounds ih =>
    unfold run
    rcases map_eq_map_iff.1 (forget_advance options w) with
      ⟨e, hnext, hnext'⟩ | ⟨w?, w'?, hnext, hnext', hforget⟩
    · rw [hnext, hnext']
      rfl
    · rw [hnext, hnext']
      cases w? with
      | none =>
        cases w'? with
        | none => rfl
        | some w' => cases hforget
      | some w₁ =>
        cases w'? with
        | none => cases hforget
        | some w₁' =>
          have hwalk : w₁.forget = w₁'.forget := Option.some.inj hforget
          calc (w₁.run options rounds).map (·.forget)
              = (w₁.forget.run options rounds).map (·.forget) := ih w₁
            _ = (w₁'.forget.run options rounds).map (·.forget) := by rw [hwalk]
            _ = (w₁'.run options rounds).map (·.forget) := (ih w₁').symm

end Walk

/-! ### Whole bodies -/

/-- The body that a pass leaves, and what it says of it. -/
def PassRun.outcome {h : Hierarchy} {α : Type} (run : PassRun h α) : Body × Except Failure α :=
  (run.body, run.result)

namespace Body

variable {h : Hierarchy}

theorem forget_walkCalls (options : Options) (r r' : Resolver h) (c : Body) :
    (c.walkCalls options r).map (·.forget) = (c.walkCalls options r').map (·.forget) := by
  unfold walkCalls
  cases c.dominators with
  | error e => rfl
  | ok tree =>
    cases c.walkRounds with
    | error e => rfl
    | ok rounds =>
      have hstart := Walk.forget_run options rounds
        { state := { body := c, resolver := r, tree } }
      have hstart' := Walk.forget_run options rounds
        { state := { body := c, resolver := r', tree } }
      exact hstart.trans hstart'.symm

/-- What a resolver knows makes no difference to the body that is devirtualized with it. -/
theorem outcome_devirtualize (options : Options) (r r' : Resolver h) (c : Body) :
    (c.devirtualize options r).map (·.outcome) = (c.devirtualize options r').map (·.outcome) := by
  unfold devirtualize
  rcases map_eq_map_iff.1 (forget_walkCalls options r r' c) with
    ⟨e, hwalk, hwalk'⟩ | ⟨s, s', hwalk, hwalk', hforget⟩
  · rw [hwalk, hwalk']
  · have hsettle : settleTypes options s = settleTypes options s' := by
      show settleTypes options s.forget = settleTypes options s'.forget
      rw [hforget]
    have hstats : s.stats = s'.stats := by
      show s.forget.stats = s'.forget.stats
      rw [hforget]
    rw [hwalk, hwalk', ok_bind, ok_bind, hsettle, hstats]
    cases settleTypes options s' with
    | error e => rfl
    | ok q =>
      obtain ⟨affected, body⟩ := q
      rw [ok_bind, ok_bind]
      dsimp only
      cases body.violations with
      | error e => rfl
      | ok l => rfl

/-- Devirtualizes bodies one after another. Each run is handed the resolver that the one before it has
left, or found if it came to a fault. -/
def devirtualizeInTurn (options : Options) (r : Resolver h) :
    List Body → List (Except Fault (Body × Except Failure Devirtualized))
  | [] => []
  | c :: bodies =>
    match c.devirtualize options r with
    | .error e => .error e :: devirtualizeInTurn options r bodies
    | .ok run => .ok run.outcome :: devirtualizeInTurn options run.resolver bodies

theorem devirtualizeInTurn_eq_map (options : Options) (r r' : Resolver h) (bodies : List Body) :
    devirtualizeInTurn options r bodies =
      bodies.map fun c => (c.devirtualize options r').map (·.outcome) := by
  induction bodies generalizing r with
  | nil => rfl
  | cons c bodies ih =>
    rw [List.map_cons, ← outcome_devirtualize options r r' c]
    unfold devirtualizeInTurn
    cases c.devirtualize options r with
    | error e => exact congrArg (Except.error e :: ·) (ih r)
    | ok run => exact congrArg (Except.ok run.outcome :: ·) (ih run.resolver)

end Body

/-- What a resolver has been asked before cannot be seen. Each request of a sequence gets the answer
that a new resolver gives to it alone, and as many answers are kept as different queries have been
made. Bodies that are devirtualized in turn with such a resolver, in whatever order, each become what
they become alone with a new one. -/
theorem Resolver.answerAll_devirtualizeInTurn {h : Hierarchy} (requests : List Request) :
    ((∅ : Resolver h).answerAll requests).1 = requests.map (fun q => ((∅ : Resolver h).answer q).1) ∧
      ((∅ : Resolver h).answerAll requests).2.size =
        (requests.filterMap (Request.query? h)).toFinset.card ∧
      ∀ (options : Options) (bodies : List Body),
        Body.devirtualizeInTurn options ((∅ : Resolver h).answerAll requests).2 bodies =
          bodies.map fun c => (c.devirtualize options (∅ : Resolver h)).map (·.outcome) := by
  refine ⟨answerAll_fst ∅ ∅ requests, size_answerAll requests, ?_⟩
  intro options bodies
  exact Body.devirtualizeInTurn_eq_map options _ ∅ bodies

end Devirt
