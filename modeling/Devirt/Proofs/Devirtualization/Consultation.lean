import Devirt.Proofs.Devirtualization.Course

/-!
The dominator tree while calls are tried. Beside the pass stands one that does the same and records
each consultation of the tree, with the body of that moment. Most edits leave the control flow
alone, and a split is followed by a new tree before the next consultation. So a tree that is
consulted is always the one that would be built anew.
-/

namespace Devirt

/-! ### Recording consultations -/

/-- A dominator tree that is asked, and the body it is asked about. -/
structure Consultation where
  tree : DominatorTree
  body : Body

/-- The tree is the one that would be built for the body. -/
def Consultation.IsCurrent (q : Consultation) : Prop := q.body.dominators = .ok q.tree

/-- Devirtualization with a record of all consultations so far. -/
abbrev Watching (h : Hierarchy) := StateT (List Consultation) (Devirtualizing h)

namespace Watching

open Devirtualizing (query editWith count affect retargetCall soleClassTarget? superToVirtual
  specialize placeCast castReaches)

variable {h : Hierarchy} {α β : Type}

/-- A step that does not ask the tree. -/
def plain (m : Devirtualizing h α) : Watching h α := StateT.lift m

/-- A step that asks the tree about the body as it is now. -/
def consult (f : DominatorTree → Body → Except Fault (α × Body)) : Watching h α := do
  let s ← plain get
  modify (· ++ [⟨s.tree, s.body⟩])
  plain (editWith (f s.tree))

/-! The steps of the pass follow, under their own names. Whatever reads the tree is a consultation,
and each use that may be redirected is one of its own, since the body changes from use to use. -/

def cachedCast? (receiver : ValueId) (holder : TypeName) (b : BlockId) :
    Watching h (Option ValueId) := do
  let s ← plain get
  let some cast := s.casts.lookup (receiver, holder) | return none
  if ← consult fun t c => (·, c) <$> castReaches c t cast b then return some cast else return none

/-- Redirects one use after the other, and adds those that have been changed to `done`. -/
def redirectEach (f : DominatorTree → Body → α → Except Fault (Bool × Body)) (l done : List α) :
    Watching h (List α) :=
  l.foldlM (fun done a => do
    let changed ← consult (f · · a)
    return if changed then done ++ [a] else done) done

def redirectUses (old new : ValueId) (definer : InstrId) (excluded : List InstrId) :
    Watching h Redirected := do
  let users := (← plain (query (·.value old))).users.toList.filter fun i =>
    i ≠ definer && i ∉ excluded
  let instructions ← redirectEach (fun t c i => c.redirectUser t old new definer i) users []
  let phiUsers := (← plain (query (·.value old))).phiUsers.toList
  let phis ← redirectEach (fun t c phi => c.redirectPhi t old new phi) phiUsers []
  return { instructions, phis }

def spreadCast (i : InstrId) (receiver : ValueId) (type : StaticType) (cast : InstrId)
    (v : ValueId) : Watching h Unit := do
  let x ← plain (query (·.value receiver))
  if !x.isNamed && type.le h x.type then
    let excluded := ((← plain get).devirtualized.insert i).toList
    let replaced ← redirectUses receiver v cast excluded
    let operations ← plain (query fun c => replaced.instructions.mapM c.operation)
    plain (affect (operations.filterMap (·.out?) ++ replaced.phis))

def castReceiver (i : InstrId) (index : Nat) (receiver : ValueId) (holder : TypeName) :
    Watching h Moved := do
  let current := (← plain (query (·.value receiver))).type
  let type := StaticType.ofClass holder current.nullability
  if current.le h type then return .stayed
  let b ← plain (query (·.blockOf i))
  match ← cachedCast? receiver holder b with
  | some cast =>
    let _ ← plain (editWith (·.redirectOperand i receiver cast))
    plain (affect [cast])
    plain (count fun s => { s with castsReused := s.castsReused + 1 })
    return .stayed
  | none =>
    let (cast, v, moved) ← plain (placeCast i index receiver holder type)
    plain (modify fun s => { s with casts := ((receiver, holder), v) :: s.casts })
    plain (affect [v])
    let _ ← plain (editWith (·.redirectOperand i receiver v))
    spreadCast i receiver type cast v
    return moved

def interfaceToVirtual (i : InstrId) (index : Nat) : Watching h Moved := do
  let some call ← plain (query (·.call? i)) | return .stayed
  let some receiver := call.receiver? | return .stayed
  let some target ← plain (soleClassTarget? call receiver) | return .stayed
  plain (retargetCall i .virtual target)
  plain (count fun s => { s with interfaceToVirtual := s.interfaceToVirtual + 1 })
  plain (affect call.out.toList)
  let moved ←
    if target.holder = call.method.holder then pure .stayed
    else castReceiver i index receiver target.holder
  plain (modify fun s => { s with devirtualized := s.devirtualized.insert i })
  return moved

def visit (options : Options) (i : InstrId) (index : Nat) : Watching h Moved := do
  let some call ← plain (query (·.call? i)) | return .stayed
  match call.kind with
  | .super =>
    if options.superToVirtual then
      if ← plain (superToVirtual i) then plain (specialize options i)
    return .stayed
  | .virtual =>
    plain (specialize options i)
    return .stayed
  | .interface =>
    if options.interfaceToVirtual then
      let moved ← interfaceToVirtual i index
      if ((← plain (query (·.call? i))).map (·.kind)) = some .virtual then
        plain (specialize options i)
      return moved
    else return .stayed

end Watching

namespace Walk

variable {h : Hierarchy}

/-- One round, with the record of consultations before and after it. -/
def watchAdvance (options : Options) (w : Walk h) (log : List Consultation) :
    Except Fault (Option (Walk h) × List Consultation) := do
  let some b := w.block? | return (none, log)
  match ← w.instruction? b with
  | none => return (some { w with position := w.position + 1, index := 0 }, log)
  | some i =>
    let ((moved, log), s) ← ((Watching.visit options i w.index).run log).run w.state
    return (some (w.resume s moved), log)

def watchRun (options : Options) : Nat → Walk h → List Consultation →
    Except Fault (Devirtualization.State h × List Consultation)
  | 0, _, _ => throw .unsettled
  | rounds + 1, w, log => do
    match ← w.watchAdvance options log with
    | (none, log) => return (w.state, log)
    | (some w, log) => watchRun options rounds w log

end Walk

namespace Body

variable {h : Hierarchy}

/-- Tries all call sites of a body, and gives the consultations of the tree on the way. -/
def watchCalls (options : Options) (resolver : Resolver h) (c : Body) :
    Except Fault (Devirtualization.State h × List Consultation) := do
  let tree ← c.dominators
  Walk.watchRun options (← c.walkRounds) { state := { body := c, resolver, tree } } []

end Body

/-! ### The record changes nothing -/

namespace Watching

open Devirtualizing (query editWith castReaches run_editWith run_query_eq_ok run_editWith_eq_ok)

variable {h : Hierarchy} {α β : Type} {s : Devirtualization.State h} {options : Options}
  {i definer : InstrId} {index : Nat} {receiver v old new : ValueId} {holder : TypeName}
  {type : StaticType} {excluded : List InstrId} {b : BlockId}

/-- From the state `s` the step does what `m` does, apart from the record. -/
def Watches (w : Watching h α) (m : Devirtualizing h α) (s : Devirtualization.State h) : Prop :=
  ∀ log, (fun q => (q.1.1, q.2)) <$> (w.run log).run s = m.run s

theorem watches_pure (a : α) : Watches (pure a) (pure a) s := fun _ => rfl

theorem watches_plain (m : Devirtualizing h α) : Watches (plain m) m s := by
  intro log
  rw [plain, StateT.run_lift, StateT.run_bind, map_bind]
  exact bind_pure _

theorem Watches.bind {w : Watching h α} {m : Devirtualizing h α} {g : α → Watching h β}
    {g' : α → Devirtualizing h β} (hw : Watches w m s)
    (hg : ∀ a s', m.run s = .ok (a, s') → Watches (g a) (g' a) s') :
    Watches (w >>= g) (m >>= g') s := by
  intro log
  have hlog := hw log
  rw [StateT.run_bind, StateT.run_bind, StateT.run_bind]
  cases hrun : (w.run log).run s with
  | error e =>
    rw [← hlog, hrun]
    rfl
  | ok q =>
    rw [hrun] at hlog
    rw [← hlog]
    exact hg q.1.1 q.2 hlog.symm q.1.2

theorem watches_get {g : Devirtualization.State h → Watching h β}
    {g' : Devirtualization.State h → Devirtualizing h β} (hg : Watches (g s) (g' s) s) :
    Watches (plain get >>= g) (get >>= g') s := hg

theorem Watches.congr {w : Watching h α} {m m' : Devirtualizing h α} (hw : Watches w m s)
    (heq : m.run s = m'.run s) : Watches w m' s := fun log => (hw log).trans heq

theorem watches_consult (f : DominatorTree → Body → Except Fault (α × Body)) :
    Watches (consult f) (editWith (f s.tree)) s :=
  watches_get fun _ => watches_plain _ _

theorem watches_cachedCast? :
    Watches (cachedCast? receiver holder b) (Devirtualizing.cachedCast? receiver holder b) s := by
  refine watches_get ?_
  cases s.casts.lookup (receiver, holder) with
  | none => exact watches_pure none
  | some cast =>
    have hask : Watches (consult fun t c => (·, c) <$> castReaches c t cast b)
        (liftM (castReaches s.body s.tree cast b)) s := by
      refine (watches_consult _).congr ?_
      rw [run_editWith]
      cases castReaches s.body s.tree cast b <;> rfl
    refine hask.bind fun reaches _ _ => ?_
    split
    · exact watches_pure _
    · exact watches_pure _

/-- The loop by which uses are redirected, with one tree for all of them. -/
def redirectAll (f : Body → α → Except Fault (Bool × Body)) (l done : List α) (c : Body) :
    Except Fault (List α × Body) :=
  l.foldlM (fun p a => do
    let q ← f p.2 a
    return (if q.1 then p.1 ++ [a] else p.1, q.2)) (done, c)

theorem redirectEach_cons {f : DominatorTree → Body → α → Except Fault (Bool × Body)} {a : α}
    {l done : List α} :
    redirectEach (h := h) f (a :: l) done = consult (f · · a) >>= fun changed =>
      redirectEach f l (if changed then done ++ [a] else done) := by
  simp only [redirectEach, List.foldlM_cons, bind_assoc, pure_bind]

theorem watches_redirectEach (f : DominatorTree → Body → α → Except Fault (Bool × Body))
    (l done : List α) :
    Watches (redirectEach f l done) (editWith (redirectAll (f s.tree) l done)) s := by
  induction l generalizing done s with
  | nil => exact watches_pure done
  | cons a l ih =>
    have hrest : ∀ changed s', (editWith (f s.tree · a)).run s = .ok (changed, s') →
        Watches (redirectEach f l (if changed then done ++ [a] else done))
          (editWith (redirectAll (f s.tree) l (if changed then done ++ [a] else done))) s' := by
      intro changed s' hrun
      obtain ⟨c, -, rfl⟩ := run_editWith_eq_ok.1 hrun
      exact ih _
    rw [redirectEach_cons]
    refine ((watches_consult (f · · a)).bind hrest).congr ?_
    simp only [redirectAll, StateT.run_bind, run_editWith, bind_map_left, List.foldlM_cons,
      map_bind, bind_assoc]
    rfl

theorem watches_redirectUses :
    Watches (redirectUses old new definer excluded)
      (editWith (·.redirectUses s.tree old new definer excluded)) s := by
  have hsteps : Watches (redirectUses old new definer excluded) (do
      let x ← query (·.value old)
      let instructions ← editWith (redirectAll (fun c i => c.redirectUser s.tree old new definer i)
        (x.users.toList.filter fun i => i ≠ definer && i ∉ excluded) [])
      let y ← query (·.value old)
      let phis ← editWith (redirectAll (fun c phi => c.redirectPhi s.tree old new phi)
        y.phiUsers.toList [])
      return { instructions, phis }) s := by
    refine .bind (watches_plain _) fun x _ hrun => ?_
    obtain ⟨-, rfl⟩ := run_query_eq_ok.1 hrun
    refine .bind (watches_redirectEach _ _ _) fun instructions _ hrun => ?_
    obtain ⟨c, -, rfl⟩ := run_editWith_eq_ok.1 hrun
    refine .bind (watches_plain _) fun y _ hrun => ?_
    obtain ⟨-, rfl⟩ := run_query_eq_ok.1 hrun
    exact .bind (watches_redirectEach _ _ _) fun phis _ _ => watches_pure _
  refine hsteps.congr ?_
  simp only [query, StateT.run_bind, StateT.run_get, pure_bind, run_editWith, bind_map_left,
    StateT.run_monadLift, bind_assoc]
  rw [Body.redirectUses]
  simp only [map_bind]
  rfl

theorem watches_spreadCast {cast : InstrId} :
    Watches (spreadCast i receiver type cast v)
      (Devirtualizing.spreadCast i receiver type cast v) s := by
  refine .bind (watches_plain _) fun x s₁ _ => ?_
  split
  · refine watches_get (.bind watches_redirectUses fun replaced _ _ => ?_)
    exact .bind (watches_plain _) fun _ _ _ => watches_plain _
  · exact watches_pure ()

theorem watches_castReceiver :
    Watches (castReceiver i index receiver holder)
      (Devirtualizing.castReceiver i index receiver holder) s := by
  refine .bind (watches_plain _) fun x _ _ => ?_
  dsimp only
  split
  · exact watches_pure _
  · refine .bind (watches_plain _) fun b _ _ => .bind watches_cachedCast? fun cast? _ _ => ?_
    cases cast? with
    | some cast =>
      exact .bind (watches_plain _) fun _ _ _ => .bind (watches_plain _) fun _ _ _ =>
        .bind (watches_plain _) fun _ _ _ => watches_pure _
    | none =>
      exact .bind (watches_plain _) fun _ _ _ => .bind (watches_plain _) fun _ _ _ =>
        .bind (watches_plain _) fun _ _ _ => .bind (watches_plain _) fun _ _ _ =>
        .bind watches_spreadCast fun _ _ _ => watches_pure _

theorem watches_interfaceToVirtual :
    Watches (interfaceToVirtual i index) (Devirtualizing.interfaceToVirtual i index) s := by
  refine .bind (watches_plain _) fun call? _ _ => ?_
  cases call? with
  | none => exact watches_pure _
  | some call =>
    dsimp only
    cases call.receiver? with
    | none => exact watches_pure _
    | some receiver =>
      refine .bind (watches_plain _) fun target? _ _ => ?_
      cases target? with
      | none => exact watches_pure _
      | some target =>
        refine .bind (watches_plain _) fun _ _ _ => .bind (watches_plain _) fun _ _ _ =>
          .bind (watches_plain _) fun _ _ _ => ?_
        split
        · exact .bind (watches_pure _) fun _ _ _ => .bind (watches_plain _) fun _ _ _ =>
            watches_pure _
        · exact .bind watches_castReceiver fun _ _ _ => .bind (watches_plain _) fun _ _ _ =>
            watches_pure _

theorem watches_visit :
    Watches (visit options i index) (Devirtualizing.visit options i index) s := by
  refine .bind (watches_plain _) fun call? _ _ => ?_
  cases call? with
  | none => exact watches_pure _
  | some call =>
    dsimp only
    cases call.kind with
    | super =>
      dsimp only
      split
      · refine .bind (watches_plain _) fun changed _ _ => ?_
        split
        · exact .bind (watches_plain _) fun _ _ _ => watches_pure _
        · exact watches_pure _
      · exact watches_pure _
    | virtual => exact .bind (watches_plain _) fun _ _ _ => watches_pure _
    | interface =>
      dsimp only
      split
      · refine .bind watches_interfaceToVirtual fun moved _ _ =>
          .bind (watches_plain _) fun _ _ _ => ?_
        split
        · exact .bind (watches_plain _) fun _ _ _ => watches_pure _
        · exact watches_pure _
      · exact watches_pure _

end Watching

namespace Walk

variable {h : Hierarchy} {options : Options} {w : Walk h}

theorem fst_watchAdvance (log : List Consultation) :
    Prod.fst <$> w.watchAdvance options log = w.advance options := by
  unfold watchAdvance advance
  cases w.block? with
  | none => rfl
  | some b =>
    dsimp only
    rw [map_bind]
    refine bind_congr fun i? => ?_
    cases i? with
    | none => rfl
    | some i =>
      dsimp only
      rw [← Watching.watches_visit log, bind_map_left, map_bind]
      rfl

theorem fst_watchRun (rounds : Nat) (log : List Consultation) :
    Prod.fst <$> w.watchRun options rounds log = w.run options rounds := by
  induction rounds generalizing w log with
  | zero => rfl
  | succ rounds ih =>
    rw [watchRun, run, map_bind, ← fst_watchAdvance log, bind_map_left]
    refine bind_congr fun q => ?_
    obtain ⟨next, log'⟩ := q
    cases next with
    | none => rfl
    | some w' => exact ih log'

end Walk

theorem Body.fst_watchCalls {h : Hierarchy} {options : Options} {resolver : Resolver h} {c : Body} :
    Prod.fst <$> c.watchCalls options resolver = c.walkCalls options resolver := by
  simp only [watchCalls, walkCalls, map_bind, Walk.fst_watchRun]

end Devirt
