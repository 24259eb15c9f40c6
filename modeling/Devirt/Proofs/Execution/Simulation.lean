import Devirt.Proofs.Execution.Following

/-!
Programs whose bodies have been rewritten run as before. A machine of the rewritten program keeps to
one of the original program: it catches up with the next instruction of the original, and then both
execute it.
-/

namespace Devirt

open Relation Body

variable {p p' : Program} {h : Hierarchy} {f f' g g' : Frame} {m m' : Machine}

namespace Operation

variable {op op₀ : Operation} {e : Effect}

/-- An operation that reads the same values has the same effect. -/
theorem effect_of_renders {r : ValueId → ValueId → Prop} (hrenders : op₀.Renders r op)
    (harguments : f'.arguments = f.arguments)
    (hread : ∀ {u w a}, u ∈ op.operands → r u w → f.read w = .ok a → f'.read u = .ok a)
    (he : op₀.effect h f = .ok e) : op.effect h f' = .ok e := by
  obtain ⟨g, target, rfl, hr⟩ := hrenders
  cases op₀ with
  | argument out index =>
    have hsame : (Operation.argument out index).effect h f' =
        (Operation.argument out index).effect h f := by simp [effect, harguments]
    exact hsame.trans he
  | cast out object name =>
    obtain ⟨a, ha, hsub, rfl⟩ := effect_cast.1 he
    have ha' := hread (List.mem_singleton_self _) (hr object (by simp [operands])) ha
    exact effect_cast.2 ⟨a, ha', hsub, rfl⟩
  | assumeNonNull out source origin =>
    obtain ⟨a, ha, he⟩ := bind_eq_ok.1 he
    have ha' := hread (List.mem_singleton_self _) (hr source (by simp [operands])) ha
    exact bind_eq_ok.2 ⟨a, ha', he⟩
  | branch condition t e' =>
    obtain ⟨a, ha, he⟩ := bind_eq_ok.1 he
    have ha' := hread (List.mem_singleton_self _) (hr condition (by simp [operands])) ha
    exact bind_eq_ok.2 ⟨a, ha', he⟩
  | ret value =>
    cases value with
    | none => exact he
    | some v =>
      obtain ⟨a, ha, he⟩ := bind_eq_ok.1 he
      have ha' := hread (List.mem_singleton_self _) (hr v (by simp [operands])) ha
      exact bind_eq_ok.2 ⟨a, ha', he⟩
  | call _ => cases he
  | throw _ => cases he
  | _ => exact he

end Operation

/-! ### Runs -/

namespace Machine

variable {m₁ : Machine} {calls : List MethodRef} {i : InstrId} {rest : List InstrId} {op : Operation}
  {progress : Progress}

def Steps (p : Program) (m m' : Machine) : Prop := m.step p = .ok (.running m')

/-- The run from the machine ends with the given calls, if it is given enough steps. -/
def Finishes (p : Program) (m : Machine) (calls : List MethodRef) : Prop :=
  ∃ steps, ∀ limit, run p limit steps m = .ok calls

theorem finishes_of_finished (hstep : m.step p = .ok (.finished calls)) : Finishes p m calls :=
  ⟨1, fun limit => by simp [run, hstep]⟩

theorem Finishes.of_steps (hsteps : ReflTransGen (Steps p) m m₁) (hend : Finishes p m₁ calls) :
    Finishes p m calls := by
  induction hsteps using ReflTransGen.head_induction_on with
  | refl => exact hend
  | head hstep _ ih =>
    obtain ⟨steps, hrun⟩ := ih
    refine ⟨steps + 1, fun limit => ?_⟩
    rw [run, hstep]
    exact hrun limit

/-- If the next instruction is a call on an object, then the class of the object is instantiated and
is one that the receiver is known to hold. -/
def Conforms (p : Program) (m : Machine) : Prop :=
  ∀ i ∈ m.frame.rest.head?, ∀ call, m.frame.body.operation i = .ok (.call call) →
    ∀ v ∈ call.receiver?, ∀ x, m.frame.body.value v = .ok x →
      ∀ C, m.frame.read v = .ok (.object C) →
        p.hierarchy.isInstantiated C = true ∧ x.Conforms p.hierarchy C

instance decidableForallCall (x : Except Fault Operation) (P : Call → Prop) [DecidablePred P] :
    Decidable (∀ call, x = .ok (.call call) → P call) :=
  decidable_of_iff (∀ op, x = .ok op → ∀ call ∈ op.call?, P call) (by
    constructor
    · intro hP call hx
      exact hP _ hx call rfl
    · intro hP op hx call hcall
      cases op <;> cases hcall
      exact hP call hx)

instance decidableForallObject (x : Executing RuntimeValue) (P : TypeName → Prop)
    [DecidablePred P] : Decidable (∀ C, x = .ok (.object C) → P C) :=
  match x with
  | .ok (.object C) => decidable_of_iff (P C) (by simp)
  | .ok .null | .ok (.int _) | .error _ => isTrue (by simp)

instance decidableConforms (p : Program) (m : Machine) : Decidable (m.Conforms p) :=
  inferInstanceAs (Decidable (∀ i ∈ m.frame.rest.head?, _))

/-- The run stops within the number of steps, and all its calls conform. -/
def ConformsFor (p : Program) : Nat → Machine → Prop
  | 0, _ => False
  | steps + 1, m => m.Conforms p ∧ ∀ m', m.step p = .ok (.running m') → ConformsFor p steps m'

instance decidableForallRunning (x : Executing Progress) (P : Machine → Prop) [DecidablePred P] :
    Decidable (∀ m, x = .ok (.running m) → P m) :=
  match x with
  | .ok (.running m) => decidable_of_iff (P m) (by simp)
  | .ok (.finished _) | .error _ => isTrue (by simp)

instance decidableConformsFor (p : Program) :
    (steps : Nat) → DecidablePred (ConformsFor p steps)
  | 0, _ => isFalse id
  | steps + 1, m =>
    have := decidableConformsFor p steps
    inferInstanceAs (Decidable (m.Conforms p ∧ ∀ m', m.step p = .ok (.running m') → _))

theorem ConformsFor.conforms {steps : Nat} (hm : ConformsFor p steps m)
    (hsteps : ReflTransGen (Steps p) m m₁) : m₁.Conforms p := by
  induction steps generalizing m with
  | zero => cases hm
  | succ steps ih =>
    rcases hsteps.cases_head with rfl | ⟨m', hstep, hrest⟩
    · exact hm.1
    · exact ih (hm.2 m' hstep) hrest

/-- A run that goes wrong before its steps are used up goes wrong with every number of steps. -/
theorem run_ne_ok {limit : Nat} {e : RunError} (he : e ≠ .stepLimit limit) {steps : Nat}
    (herror : run p limit steps m = .error e) (limit' steps' : Nat) :
    run p limit' steps' m ≠ .ok calls := by
  induction steps generalizing m steps' with
  | zero => exact absurd (Except.error.inj herror).symm he
  | succ steps ih =>
    cases steps' with
    | zero => simp [run]
    | succ steps' =>
      rw [run] at herror ⊢
      cases hstep : m.step p with
      | error e => simp
      | ok progress =>
        rw [hstep] at herror
        cases progress with
        | running m' => exact ih herror steps'
        | finished calls' => cases herror

end Machine

/-! ### Catching up -/

namespace Body

open Devirt.Frame Machine

variable {c₀ c : Body} {n : Nat} {i k : InstrId} {rest rest' : List InstrId} {op₀ : Operation}
  {a : RuntimeValue}

/-- The frame of the rewritten body follows the one of the original. -/
structure Follows (h : Hierarchy) (c₀ c : Body) (f f' : Frame) (n : Nat) : Prop where
  refines : Refines h c₀ c
  beside : Beside h c₀ c f f' n
  remains : Remains c₀ c f f' n
  rest : f.rest ≠ []

/-- Whatever has called it, the activation goes on from the frame `f` to the frame `g`. -/
def Reaches (p : Program) (f g : Frame) : Prop :=
  ∀ m : Machine, ReflTransGen (Steps p) { m with frame := f } { m with frame := g }

theorem reaches_of_effect {op : Operation} {e : Effect} (hrest : f.rest = i :: rest)
    (hop : f.body.operation i = .ok op) (he : op.effect p.hierarchy { f with rest } = .ok e)
    (hperform : ∀ m : Machine,
      m.perform { f with rest } e = .ok (.running { m with frame := g })) :
    Reaches p f g := by
  intro m
  apply ReflTransGen.single
  have hcall : ∀ call, op ≠ .call call := by
    rintro call rfl
    cases he
  show step p { m with frame := f } = _
  rw [step_eq_execute hrest hop, execute_eq_perform hcall, he]
  exact hperform _

/-- A jump that is new brings the follower to the next instruction. -/
theorem Follows.catch_jump (hF : Follows h c₀ c f f' n) (hrest : f.rest = i :: rest)
    (hnears : Nears c₀ c i f'.rest) :
    ∃ g' n', Reaches p f' g' ∧ Follows h c₀ c f g' n' ∧ ∃ rest', g'.rest = i :: rest' := by
  rcases hnears with haligned | ⟨k, t, hrest', hk, hop, hnew⟩
  · exact ⟨f', n, fun _ => .refl, hF, haligned⟩
  · obtain ⟨y, hy, hn, hlength⟩ := hF.remains.place_last hrest'
    obtain ⟨z, g', hz, henter, hblock, hgr, hbeside⟩ :=
      hF.beside.jump hF.refines hy hn hlength hop hnew
    obtain ⟨hremains, haligned⟩ := hF.remains.jump hrest hk hop hrest' hz hblock hgr
    refine ⟨g', 0, ?_, ⟨hF.refines, hbeside, hremains, hF.rest⟩, haligned⟩
    have hop' : f'.body.operation k = .ok (.goto t) := by
      rw [hF.beside.body_new]
      exact hop
    refine reaches_of_effect hrest' hop' rfl fun m => ?_
    have hsettle : { f' with rest := [], next := some t }.settle = .ok g' :=
      settle_jump.2 ⟨henter, hremains.rest_ne_nil hF.rest⟩
    show m.continueWith { f' with rest := [], next := some t } = _
    rw [continueWith, hsettle]
    rfl

/-- A cast that is new succeeds on what the original goes on to call. -/
theorem Follows.catch_cast (hF : Follows h c₀ c f f' n) (hp : p.hierarchy = h)
    (hrest' : f'.rest = k :: rest') (hk : ¬ c₀.HasInstruction k) (hanchors : Anchors c₀ c k i)
    (hknown : ∀ call w, c₀.operation i = .ok (.call call) → call.receiver? = some w →
      ∃ C x, f.read w = .ok (.object C) ∧ c₀.value w = .ok x ∧ h.isInstantiated C = true ∧
        x.Conforms h C) :
    ∃ g' n', Reaches p f' g' ∧ Follows h c₀ c f g' n' ∧ g'.rest = rest' := by
  obtain ⟨u, r, name, call₀, w, hop, hcall₀, hw, hstands, -⟩ := hanchors
  obtain ⟨C, x, hread, hx, hC, hconforms⟩ := hknown call₀ w hcall₀ hw
  obtain ⟨y, hy, hn, -⟩ := hF.remains.place_cons hrest'
  obtain ⟨hread', hsub, hbeside⟩ :=
    hF.beside.cast hF.refines hy hn hk hop hstands hread hx hC hconforms
  have hupdates : Updates ((some u).toList.map (·, .object C)) f'
      ({ f' with rest := rest' }.put (some u) (.object C)) := updates_put
  have hremains := hF.remains.skip hk hop hrest' hupdates.block rest_put
  refine ⟨_, n + 1, ?_, ⟨hF.refines, hbeside hupdates, hremains, hF.rest⟩, rest_put⟩
  have hop' : f'.body.operation k = .ok (.cast u r name) := by
    rw [hF.beside.body_new]
    exact hop
  refine reaches_of_effect hrest' hop' (Operation.effect_cast.2 ⟨_, hread', ?_, rfl⟩) fun m => ?_
  · intro D hD
    obtain rfl := RuntimeValue.object.inj hD
    exact hp ▸ hsub
  · exact continueWith_of_rest (hremains.rest_ne_nil hF.rest)

/-- The follower comes to the instruction that the original executes next. -/
theorem Follows.catch_up (hF : Follows h c₀ c f f' n) (hp : p.hierarchy = h)
    (hrest : f.rest = i :: rest)
    (hknown : ∀ call w, c₀.operation i = .ok (.call call) → call.receiver? = some w →
      ∃ C x, f.read w = .ok (.object C) ∧ c₀.value w = .ok x ∧ h.isInstantiated C = true ∧
        x.Conforms h C) :
    ∃ g' n', Reaches p f' g' ∧ Follows h c₀ c f g' n' ∧ ∃ rest', g'.rest = i :: rest' := by
  rcases hF.remains.cases hrest with hnears | ⟨k, rest', hrest', hk, hanchors, hnears⟩
  · exact hF.catch_jump hrest hnears
  · obtain ⟨g, n₁, hreaches, hF₁, rfl⟩ := hF.catch_cast hp hrest' hk hanchors hknown
    obtain ⟨g', n₂, hreaches', hF₂, haligned⟩ := hF₁.catch_jump hrest hnears
    exact ⟨g', n₂, fun m => (hreaches m).trans (hreaches' m), hF₂, haligned⟩

/-- Both frames have executed the same instruction, which does not end the block. -/
theorem Follows.advance (hF : Follows h c₀ c f f' n) (hrest : f.rest = i :: rest)
    (hrest' : f'.rest = i :: rest') (hop₀ : c₀.operation i = .ok op₀)
    (hinner : op₀.isTerminator = false) :
    Follows h c₀ c ({ f with rest }.put op₀.out? a) ({ f' with rest := rest' }.put op₀.out? a)
      (n + 1) := by
  obtain ⟨y, hy, hn, -⟩ := hF.remains.place_cons hrest'
  have hold := hasInstruction_of_operation hop₀
  have hupdates : Updates (op₀.out?.toList.map (·, a)) f ({ f with rest }.put op₀.out? a) :=
    updates_put
  have hupdates' : Updates (op₀.out?.toList.map (·, a)) f'
      ({ f' with rest := rest' }.put op₀.out? a) := updates_put
  constructor
  · exact hF.refines
  · exact hF.beside.update hF.refines hy hn hop₀ hupdates hupdates'
  · exact hF.remains.advance hold hrest hrest' hupdates.block rest_put hupdates'.block rest_put
  · rw [rest_put]
    intro hnil
    have := (hF.remains.rest_eq_nil_iff hF.refines.consistent_old hrest hop₀).1 hnil
    rw [hinner] at this
    cases this

/-- Both frames are at the entry of their bodies. -/
theorem Follows.start {arguments : List RuntimeValue} (hR : Refines h c₀ c)
    (hf : Frame.start c₀ arguments = .ok f) :
    ∃ f', Frame.start c arguments = .ok f' ∧ Follows h c₀ c f f' 0 := by
  obtain ⟨x₀, hx₀, hf⟩ := bind_eq_ok.1 hf
  obtain ⟨hrest, rfl⟩ := expectRest_eq_ok.1 hf
  replace hx₀ : c₀.block c.entry = .ok x₀ := mapError_eq_ok.1 hx₀
  have hentry := hasBlock_of_block hx₀
  obtain ⟨x, hx⟩ := exists_block_iff.2 (hR.rewritten.hasBlock hentry)
  have hF : Follows h c₀ c { body := c₀, arguments, block := c₀.entry, rest := x₀.instructions }
      { body := c, arguments, block := c.entry, rest := x.instructions } 0 := by
    constructor
    · exact hR
    · exact ⟨rfl, rfl, rfl, Rewritten.origin_self hentry, .refl,
        .start hR.rewritten hR.intact_old hR.consistent_old hR.intact hR.consistent rfl⟩
    · exact .enter hR.rewritten hx₀ hx rfl rfl rfl rfl
    · exact hrest
  refine ⟨_, ?_, hF⟩
  rw [Frame.start, hx]
  exact expectRest_eq_ok.2 ⟨hF.remains.rest_ne_nil hrest, rfl⟩

end Body

/-! ### Machines side by side -/

/-- The bodies of the second program are rewritings of those of the first. -/
structure Program.RefinedBy (p p' : Program) : Prop where
  hierarchy : p'.hierarchy = p.hierarchy
  body : ∀ m, Option.Rel (Refines p.hierarchy) (p.body? m) (p'.body? m)

/-- Frames that wait for the result of the same call follow each other whatever it returns. -/
structure Waits (h : Hierarchy) (w w' : Frame × Option ValueId) : Prop where
  out : w'.2 = w.2
  resumed : ∀ a, ∃ c₀ c n, Follows h c₀ c (w.1.put w.2 a) (w'.1.put w.2 a) n

structure Machine.Matches (h : Hierarchy) (m m' : Machine) : Prop where
  frame : ∃ c₀ c n, Follows h c₀ c m.frame m'.frame n
  callers : List.Forall₂ (Waits h) m.callers m'.callers
  calls : m'.calls = m.calls

inductive Progress.Matches (h : Hierarchy) : Progress → Progress → Prop
  | running {m m' : Machine} (hm : m.Matches h m') : Matches h (.running m) (.running m')
  | finished (calls : List MethodRef) : Matches h (.finished calls) (.finished calls)

namespace Machine

open Devirt.Frame

variable {c₀ c : Body} {n : Nat} {i : InstrId} {rest rest' : List InstrId} {op₀ op : Operation}
  {e : Effect} {progress : Progress} {target : MethodRef} {arguments : List RuntimeValue}

theorem continueWith_matches {a : RuntimeValue} {out : Option ValueId}
    (hF : Follows h c₀ c (f.put out a) (f'.put out a) n)
    (hcallers : List.Forall₂ (Waits h) m.callers m'.callers) (hcalls : m'.calls = m.calls)
    (hm : m.continueWith (f.put out a) = .ok progress) :
    ∃ progress', m'.continueWith (f'.put out a) = .ok progress' ∧
      progress.Matches h progress' := by
  rw [continueWith_of_rest hF.rest] at hm
  obtain rfl := Except.ok.inj hm
  exact ⟨_, continueWith_of_rest (hF.remains.rest_ne_nil hF.rest),
    .running ⟨⟨c₀, c, n, hF⟩, hcallers, hcalls⟩⟩

theorem resume_matches {a : RuntimeValue} {w w' : Frame × Option ValueId} (hwaits : Waits h w w')
    (hcallers : List.Forall₂ (Waits h) m.callers m'.callers) (hcalls : m'.calls = m.calls)
    (hm : m.resume w.1 w.2 a = .ok progress) :
    ∃ progress', m'.resume w'.1 w'.2 a = .ok progress' ∧ progress.Matches h progress' := by
  obtain ⟨c₀, c, n, hF⟩ := hwaits.resumed a
  rw [hwaits.out]
  exact continueWith_matches hF hcallers hcalls hm

theorem leave_matches {a : RuntimeValue} (hcallers : List.Forall₂ (Waits h) m.callers m'.callers)
    (hcalls : m'.calls = m.calls) (hm : m.leave a = .ok progress) :
    ∃ progress', m'.leave a = .ok progress' ∧ progress.Matches h progress' := by
  unfold leave at hm ⊢
  cases hw : m.callers with
  | nil =>
    rw [hw] at hcallers hm
    rw [List.forall₂_nil_left_iff.1 hcallers, hcalls]
    obtain rfl := Except.ok.inj hm
    exact ⟨_, rfl, .finished m.calls⟩
  | cons w l =>
    rw [hw] at hcallers hm
    obtain ⟨w', l', hwaits, hl, heq⟩ := List.forall₂_cons_left_iff.1 hcallers
    rw [heq]
    exact resume_matches (m := { m with callers := l }) hwaits hl hcalls hm

/-- An operation has the same effect on both machines. -/
theorem perform_matches (hF : Follows h c₀ c f f' n) (hrest : f.rest = i :: rest)
    (hrest' : f'.rest = i :: rest') (hop₀ : c₀.operation i = .ok op₀) (he : op₀.Has e)
    (hcallers : List.Forall₂ (Waits h) m.callers m'.callers) (hcalls : m'.calls = m.calls)
    (hm : m.perform { f with rest } e = .ok progress) :
    ∃ progress', m'.perform { f' with rest := rest' } e = .ok progress' ∧
      progress.Matches h progress' := by
  have hR := hF.refines
  cases e with
  | write v a =>
    obtain ⟨hout, hinner⟩ := he
    have hnext := hF.advance (a := a) hrest hrest' hop₀ hinner
    rw [hout] at hnext
    exact continueWith_matches hnext hcallers hcalls hm
  | leave a => exact leave_matches hcallers hcalls hm
  | jump s =>
    obtain ⟨hout, hterminator, hs⟩ := he
    obtain rfl := (hF.remains.rest_eq_nil_iff hR.consistent_old hrest hop₀).2 hterminator
    have hold := hasInstruction_of_operation hop₀
    obtain rfl := hF.remains.rest_eq_nil hold hrest hrest'
    obtain ⟨y, hy, hn, hlength⟩ := hF.remains.place_last hrest'
    have hjump' : c.Jumps f'.block s := by
      obtain ⟨op, hop, hrenders⟩ := hR.rewritten.operation hop₀
      refine ⟨y, i, op, hy, ?_, hop, hrenders.targets_eq ▸ hs⟩
      rw [List.getLast?_eq_getElem?, hlength]
      exact hn
    have hend : Beside h c₀ c f f' (n + 1) := by
      apply hF.beside.update (a := .null) hR hy hn hop₀
      · rw [hout]
        exact updates_self
      · rw [hout]
        exact updates_self
    obtain ⟨g, hsettle, hm⟩ := bind_eq_ok.1 hm
    replace hsettle : { f with rest := [], next := some s }.settle = .ok g := hsettle
    obtain ⟨henter, hgr⟩ := settle_jump.1 hsettle
    obtain ⟨g', henter', hbeside, hremains⟩ :=
      hend.enter hR hy hlength.symm (hF.remains.jumps hrest hop₀ hs) hjump' henter
    obtain rfl := Except.ok.inj hm
    refine ⟨.running { m' with frame := g' }, ?_,
      .running ⟨⟨c₀, c, 0, hR, hbeside, hremains, hgr⟩, hcallers, hcalls⟩⟩
    have hsettle' : { f' with rest := [], next := some s }.settle = .ok g' :=
      settle_jump.2 ⟨henter', hremains.rest_ne_nil hgr⟩
    exact bind_eq_ok.2 ⟨g', hsettle', rfl⟩

/-- A call of the same method begins in the same way on both machines. -/
theorem call_matches (hp : p.RefinedBy p') {out : Option ValueId}
    (hwaits : Waits p.hierarchy (f, out) (f', out))
    (hcallers : List.Forall₂ (Waits p.hierarchy) m.callers m'.callers)
    (hcalls : m'.calls = m.calls) (hm : m.call p f out target arguments = .ok progress) :
    ∃ progress', m'.call p' f' out target arguments = .ok progress' ∧
      progress.Matches p.hierarchy progress' := by
  have hbody := hp.body target
  unfold call at hm ⊢
  rw [hcalls]
  generalize p.body? target = o at hm hbody
  generalize p'.body? target = o' at hbody
  cases hbody with
  | none =>
    exact resume_matches (m := { m with calls := target :: m.calls }) hwaits hcallers rfl hm
  | some hR =>
    have hlength : m'.callers.length = m.callers.length := hcallers.length_eq.symm
    simp only [hlength] at hm ⊢
    split at hm
    · cases hm
    · rename_i hdepth
      obtain ⟨g, hstart, hm⟩ := bind_eq_ok.1 hm
      obtain rfl := Except.ok.inj hm
      obtain ⟨g', hstart', hF⟩ := Follows.start hR hstart
      rw [if_neg hdepth]
      refine ⟨_, bind_eq_ok.2 ⟨g', hstart', rfl⟩, ?_⟩
      exact .running ⟨⟨_, _, 0, hF⟩, .cons hwaits hcallers, rfl⟩

theorem execute_call {call : Call} :
    m.execute p f (.call call) = .ok progress ↔ ∃ arguments target,
      call.arguments.mapM f.read = .ok arguments ∧
        p.hierarchy.selectTarget f.body.context call.kind call.method arguments = .ok target ∧
          m.call p f call.out target arguments = .ok progress := by
  simp only [execute, bind_eq_ok]
  constructor
  · rintro ⟨arguments, harguments, target, htarget, hcall⟩
    exact ⟨arguments, target, harguments, htarget, hcall⟩
  · rintro ⟨arguments, target, harguments, htarget, hcall⟩
    exact ⟨arguments, harguments, target, htarget, hcall⟩

/-- Only calls on objects select a method. -/
theorem exists_receiver {call : Call} {context : TypeName}
    (harguments : call.arguments.mapM f.read = .ok arguments)
    (htarget : h.selectTarget context call.kind call.method arguments = .ok target) :
    ∃ w C l, call.receiver? = some w ∧ f.read w = .ok (.object C) ∧ arguments = .object C :: l := by
  unfold Hierarchy.selectTarget at htarget
  split at htarget
  · rename_i C hhead
    obtain ⟨l, rfl⟩ := List.head?_eq_some_iff.1 hhead
    obtain ⟨w, ws, hw, -, heq⟩ := List.forall₂_cons_right_iff.1 (mapM_eq_ok.1 harguments)
    exact ⟨w, C, l, by simp [Call.receiver?, heq], hw, rfl⟩
  · cases htarget

private theorem forall₂_of_forall₂ {α β γ : Type} {r : α → β → Prop} {q : β → γ → Prop}
    {q' : α → γ → Prop} {l : List α} {l' : List β} {l'' : List γ} (hl : List.Forall₂ r l l')
    (hl' : List.Forall₂ q l' l'') (hq : ∀ a ∈ l, ∀ b c, r a b → q b c → q' a c) :
    List.Forall₂ q' l l'' := by
  induction hl generalizing l'' with
  | nil =>
    obtain rfl := List.forall₂_nil_left_iff.1 hl'
    exact .nil
  | cons hab _ ih =>
    obtain ⟨c, l'', hbc, hrest, rfl⟩ := List.forall₂_cons_left_iff.1 hl'
    refine .cons (hq _ List.mem_cons_self _ _ hab hbc) (ih hrest ?_)
    intro a ha
    exact hq a (List.mem_cons_of_mem _ ha)

/-- A call that both machines have reached calls the same method. -/
theorem execute_call_matches (hp : p.RefinedBy p') (hF : Follows p.hierarchy c₀ c f f' n)
    (hrest : f.rest = i :: rest) (hrest' : f'.rest = i :: rest') {call₀ : Call}
    (hop₀ : c₀.operation i = .ok (.call call₀)) (hop : c.operation i = .ok op)
    (hknown : ∀ w C, call₀.receiver? = some w → f.read w = .ok (.object C) →
      ∃ x, c₀.value w = .ok x ∧ p.hierarchy.isInstantiated C = true ∧ x.Conforms p.hierarchy C)
    (hcallers : List.Forall₂ (Waits p.hierarchy) m.callers m'.callers)
    (hcalls : m'.calls = m.calls)
    (hm : m.execute p { f with rest } (.call call₀) = .ok progress) :
    ∃ progress', m'.execute p' { f' with rest := rest' } op = .ok progress' ∧
      progress.Matches p.hierarchy progress' := by
  have hR := hF.refines
  obtain ⟨op', hop', hrenders⟩ := hR.rewritten.operation hop₀
  obtain rfl := Except.ok.inj (hop.symm.trans hop')
  obtain ⟨call, rfl, hout, hstands⟩ := hrenders.of_call
  obtain ⟨arguments, target, harguments, htarget, hm⟩ := execute_call.1 hm
  obtain ⟨w, C, l, hw, hread, rfl⟩ := exists_receiver harguments htarget
  obtain ⟨y, hy, hn, -⟩ := hF.remains.place_cons hrest'
  have harguments' : call.arguments.mapM f'.read = .ok (.object C :: l) := by
    apply mapM_eq_ok.2
    apply forall₂_of_forall₂ hstands (mapM_eq_ok.1 harguments)
    intro u hu v a hstands hv
    exact (hF.beside.read hR hy hn hop hu hstands hv).1
  obtain ⟨u, hu, hstands⟩ := hrenders.of_call_receiver hw
  have hpasses := (hF.beside.read hR hy hn hop (List.mem_of_mem_head? hu) hstands hread).2 C rfl
  obtain ⟨x, hx, hC, hconforms⟩ := hknown w C hw hread
  have htarget' : p'.hierarchy.selectTarget f'.body.context call.kind call.method
      (.object C :: l) = .ok target := by
    rw [hp.hierarchy, hF.beside.body_new]
    apply hR.calls hx hconforms hC hop₀ hw hop hu hpasses
    rw [← hF.beside.body]
    exact htarget
  have hwaits :
      Waits p.hierarchy ({ f with rest }, call.out) ({ f' with rest := rest' }, call.out) := by
    refine ⟨rfl, fun a => ⟨c₀, c, n + 1, ?_⟩⟩
    rw [hout]
    exact hF.advance hrest hrest' hop₀ rfl
  rw [← hout] at hm
  obtain ⟨progress', hm', hmatches⟩ := call_matches hp hwaits hcallers hcalls hm
  exact ⟨progress', execute_call.2 ⟨_, target, harguments', htarget', hm'⟩, hmatches⟩

/-- Whatever step the original takes, the follower takes it too, after it has caught up. -/
theorem Matches.step (hp : p.RefinedBy p') (hm : m.Matches p.hierarchy m') (hconf : m.Conforms p)
    (hstep : m.step p = .ok progress) :
    ∃ m₁ progress', ReflTransGen (Steps p') m' m₁ ∧ m₁.step p' = .ok progress' ∧
      progress.Matches p.hierarchy progress' := by
  obtain ⟨i, rest, op₀, hrest, hop, hexecute⟩ := exists_execute hstep
  obtain ⟨c₀, c, n, hF⟩ := hm.frame
  have hop₀ : c₀.operation i = .ok op₀ := hF.beside.body ▸ hop
  have hknown : ∀ call w C, op₀ = .call call → call.receiver? = some w →
      m.frame.read w = .ok (.object C) → ∃ x, c₀.value w = .ok x ∧
        p.hierarchy.isInstantiated C = true ∧ x.Conforms p.hierarchy C := by
    rintro call w C rfl hw hread
    obtain ⟨x, hx⟩ := hF.refines.intact_old.exists_value hop₀ (List.mem_of_mem_head? hw)
    exact ⟨x, hx, hconf i (by simp [hrest]) call hop w hw x (hF.beside.body ▸ hx) C hread⟩
  obtain ⟨g', n', hreaches, hF', rest', hrest'⟩ := by
    refine hF.catch_up (p := p') hp.hierarchy hrest ?_
    intro call w hcall hw
    obtain rfl := Except.ok.inj (hop₀.symm.trans hcall)
    obtain ⟨arguments, target, harguments, htarget, -⟩ := execute_call.1 hexecute
    obtain ⟨w', C, -, hw', hread, -⟩ := exists_receiver harguments htarget
    obtain rfl := Option.some.inj (hw.symm.trans hw')
    obtain ⟨x, hx, hC, hconforms⟩ := hknown call w C rfl hw hread
    exact ⟨C, x, hread, hx, hC, hconforms⟩
  obtain ⟨op, hop', hrenders⟩ := hF.refines.rewritten.operation hop₀
  refine ⟨{ m' with frame := g' }, ?_⟩
  have hop'' : g'.body.operation i = .ok op := by
    rw [hF'.beside.body_new]
    exact hop'
  rw [step_eq_execute hrest' hop'']
  by_cases hcall : ∃ call, op₀ = .call call
  · obtain ⟨call, rfl⟩ := hcall
    obtain ⟨progress', hm', hmatches⟩ := execute_call_matches hp hF' hrest hrest' hop₀ hop'
      (fun w C => hknown call w C rfl) hm.callers hm.calls hexecute
    exact ⟨progress', hreaches m', hm', hmatches⟩
  · have hnot : ∀ call, op ≠ .call call := by
      rintro call rfl
      exact hcall hrenders.to_call
    rw [execute_eq_perform (not_exists.1 hcall)] at hexecute
    obtain ⟨e, he, hexecute⟩ := bind_eq_ok.1 hexecute
    obtain ⟨y, hy, hn, -⟩ := hF'.remains.place_cons hrest'
    have he' : op.effect p.hierarchy { g' with rest := rest' } = .ok e :=
      Operation.effect_of_renders hrenders hF'.beside.arguments
        (fun hu hstands hw => (hF'.beside.read hF'.refines hy hn hop' hu hstands hw).1) he
    obtain ⟨progress', hm', hmatches⟩ := perform_matches hF' hrest hrest' hop₀
      (Operation.has_of_effect he) hm.callers hm.calls hexecute
    refine ⟨progress', hreaches m', ?_, hmatches⟩
    rw [execute_eq_perform hnot, hp.hierarchy, he']
    exact hm'

/-- A run that ends, and whose calls are all on objects that their receivers are known to hold, ends
with the same calls in the rewritten program. -/
theorem Matches.finishes (hp : p.RefinedBy p') (hm : m.Matches p.hierarchy m')
    (hconf : ∀ m₁, ReflTransGen (Steps p) m m₁ → m₁.Conforms p) {limit steps : Nat}
    {calls : List MethodRef} (hrun : run p limit steps m = .ok calls) : Finishes p' m' calls := by
  induction steps generalizing m m' with
  | zero => cases hrun
  | succ steps ih =>
    obtain ⟨progress, hstep, hrun⟩ := bind_eq_ok.1 hrun
    obtain ⟨m₁, progress', hsteps, hstep', hmatches⟩ := hm.step hp (hconf m .refl) hstep
    cases hmatches with
    | running hm₁ =>
      have hend := ih hm₁ (fun m₂ hm₂ => hconf m₂ (.head hstep hm₂)) hrun
      exact hend.of_steps (hsteps.tail hstep')
    | finished calls' =>
      obtain rfl := Except.ok.inj hrun
      exact (finishes_of_finished hstep').of_steps hsteps

end Machine

namespace Program

open Machine

variable {limit : Nat} {method : MethodRef} {arguments : List RuntimeValue} {trace : List String}

/-- Every call of the run from the method is on an object that its receiver is known to hold. -/
def RunConforms (p : Program) (method : MethodRef) (arguments : List RuntimeValue) : Prop :=
  ∀ c ∈ p.body? method, ∀ frame, Frame.start c arguments = .ok frame →
    ∀ m, ReflTransGen (Steps p) { frame, calls := [method] } m → m.Conforms p

theorem RefinedBy.exists_traceOf (hp : p.RefinedBy p') (hconf : p.RunConforms method arguments)
    (htrace : p.traceOf limit method arguments = .ok trace) :
    ∃ limit', p'.traceOf limit' method arguments = .ok trace := by
  have hbody := hp.body method
  obtain ⟨calls, hcalls, htrace⟩ := bind_eq_ok.1 htrace
  suffices hsame : ∃ limit', p'.callsOf limit' method arguments = .ok calls by
    obtain ⟨limit', hcalls'⟩ := hsame
    exact ⟨limit', bind_eq_ok.2 ⟨calls, hcalls', htrace⟩⟩
  unfold callsOf at hcalls ⊢
  cases hc : p.body? method with
  | none =>
    rw [hc] at hcalls hbody
    cases hbody' : p'.body? method with
    | none => exact ⟨0, hcalls⟩
    | some c =>
      rw [hbody'] at hbody
      cases hbody
  | some c =>
    rw [hc] at hcalls hbody
    cases hbody' : p'.body? method with
    | none =>
      rw [hbody'] at hbody
      cases hbody
    | some c' =>
      rw [hbody'] at hbody
      cases hbody with
      | some hR =>
        obtain ⟨f, hstart, hcalls⟩ := bind_eq_ok.1 hcalls
        obtain ⟨l, hrun, hcalls⟩ := bind_eq_ok.1 hcalls
        obtain ⟨f', hstart', hF⟩ := Follows.start hR hstart
        have hm : Machine.Matches p.hierarchy { frame := f, calls := [method] }
            { frame := f', calls := [method] } := ⟨⟨c, c', 0, hF⟩, .nil, rfl⟩
        obtain ⟨steps, hrun'⟩ := hm.finishes hp (hconf c hc f hstart) hrun
        exact ⟨steps, bind_eq_ok.2 ⟨f', hstart', bind_eq_ok.2 ⟨l, hrun' steps, hcalls⟩⟩⟩

theorem runConforms_of_conformsFor {c : Body} {steps : Nat} (hc : p.body? method = some c)
    (hf : Frame.start c arguments = .ok f)
    (hm : ConformsFor p steps { frame := f, calls := [method] }) :
    p.RunConforms method arguments := by
  intro c' hc' f' hf' m hsteps
  obtain rfl := Option.some.inj (hc.symm.trans hc')
  obtain rfl := Except.ok.inj (hf.symm.trans hf')
  exact hm.conforms hsteps

theorem traceOf_ne_ok {e : RunError} (he : e ≠ .stepLimit limit)
    (herror : p.traceOf limit method arguments = .error e) (limit' : Nat) :
    p.traceOf limit' method arguments ≠ .ok trace := by
  unfold traceOf callsOf at herror ⊢
  cases hc : p.body? method with
  | none =>
    rw [hc] at herror
    cases herror
  | some c =>
    rw [hc] at herror
    cases hf : Frame.start c arguments with
    | error e => simp [hf]
    | ok f =>
      cases hrun : Machine.run p limit limit { frame := f, calls := [method] } with
      | ok calls => simp [hf, hrun] at herror
      | error e' =>
        simp only [hf, hrun, ok_bind, error_bind, Except.error.injEq] at herror
        intro htrace
        simp only [hf, ok_bind, bind_eq_ok] at htrace
        obtain ⟨_, ⟨calls, hrun', -⟩, -⟩ := htrace
        exact run_ne_ok (herror ▸ he) hrun limit' limit' hrun'

end Program

end Devirt
