import Devirt.Proofs.Body.Checked
import Devirt.Proofs.Body.Ways
import Devirt.Proofs.Execution.Steps

/-!
Runs of valid bodies. A frame moves along a way through its body and holds every value that has been
defined on the way. As no way reads a value before its definition, a run never stops because a value
or the operand of a phi is missing, or because control falls off the end of a block.
-/

namespace Devirt

/-- The run has met something that should not be in a body. -/
def RunError.blamesBody : RunError → Bool
  | .undefinedValue _ | .missingTerminator _ | .malformed _ => true
  | _ => false

namespace Executing

variable {α β : Type} {x : Executing α} {P : α → Prop}

/-- The outcome has the property, or it is an error that is not the fault of a body. -/
def Ensures (x : Executing α) (P : α → Prop) : Prop :=
  match x with
  | .ok a => P a
  | .error e => e.blamesBody = false

theorem Ensures.bind {f : α → Executing β} {Q : β → Prop} (hx : x.Ensures P)
    (hf : ∀ a, P a → (f a).Ensures Q) : Ensures (x >>= f) Q := by
  cases x with
  | ok a => exact hf a hx
  | error e => exact hx

theorem ensures_of_eq_ok {a : α} (hx : x = .ok a) (ha : P a) : x.Ensures P := by
  rw [hx]
  exact ha

end Executing

open Executing

namespace Body

/-- Control finds in the body whatever it looks for. -/
structure Runnable (c : Body) : Prop where
  arranged : c.Arranged
  consistent : c.Consistent
  safe : c.Safe false

variable {c : Body} {b : BlockId} {n : Nat} {x : Block} {op : Operation}

/-- The last operation of a block is the one that terminates it. -/
theorem Consistent.terminates_iff (hc : c.Consistent) (hx : c.block b = .ok x)
    (hop : c.At b n op) : op.isTerminator = true ↔ n + 1 = x.instructions.length := by
  obtain ⟨x', i, hx', hi, hoperation⟩ := id hop
  obtain rfl := Except.ok.inj (hx.symm.trans hx')
  have hlt := (List.getElem?_eq_some_iff.1 hi).1
  obtain ⟨j, op', hlast, hop', hterm⟩ := hc.terminated hx
  rw [List.getLast?_eq_getElem?] at hlast
  constructor
  · intro hend
    by_contra hne
    have hfalse := hop.isTerminator_eq_false hc ⟨x, j, hx, hlast, hop'⟩ (by omega)
    simp [hend] at hfalse
  · intro hend
    rw [← hend, Nat.add_sub_cancel, hi] at hlast
    obtain rfl := Option.some.inj hlast
    obtain rfl := Except.ok.inj (hoperation.symm.trans hop')
    exact hterm

end Body

/-! ### Frames -/

namespace Frame

variable {f g : Frame} {v : ValueId} {a : RuntimeValue} {op : Operation} {t : BlockId}
  {out : Option ValueId} {n : Nat} {seen : List ValueId} {l : List (ValueId × RuntimeValue)}

def Defines (f : Frame) (v : ValueId) : Prop := ∃ a, f.read v = .ok a

theorem Defines.write (h : f.Defines v) (u : ValueId) (a : RuntimeValue) :
    (f.write u a).Defines v := by
  rw [Defines, read_write]
  split
  · exact ⟨a, rfl⟩
  · exact h

theorem defines_write : (f.write v a).Defines v := ⟨a, read_write.trans (if_pos rfl)⟩

theorem defines_writeAll (h : v ∈ l.map (·.1) ∨ f.Defines v) : (f.writeAll l).Defines v := by
  induction l generalizing f with
  | nil => exact h.resolve_left (by simp)
  | cons e l ih =>
    refine @ih (f.write e.1 e.2) ?_
    rcases h with h | h
    · rcases List.mem_cons.1 h with rfl | h
      · exact .inr defines_write
      · exact .inl h
    · exact .inr (h.write _ _)

theorem defines_put (h : v ∈ out.toList ∨ f.Defines v) : (f.put out a).Defines v := by
  cases out with
  | none => exact h.resolve_left (by simp)
  | some u =>
    rcases h with h | h
    · obtain rfl : v = u := by simpa using h
      exact defines_write
    · exact h.write _ _

/-- The frame has come to an index of its block, and it holds what has been defined on the way. -/
structure Comes (f : Frame) (n : Nat) (seen : List ValueId) : Prop where
  way : f.body.Comes false f.block n seen
  defines : ∀ v ∈ seen, f.Defines v

/-- The frame is about to execute the next instruction of its block. -/
structure Runs (f : Frame) : Prop where
  runnable : f.body.Runnable
  place : ∃ n x seen, f.body.block f.block = .ok x ∧ f.rest = x.instructions.drop n ∧
    n < x.instructions.length ∧ f.Comes n seen

/-- The operation is being executed: it has been taken from the frame, and all that is left is what
follows it. -/
structure Executes (f : Frame) (op : Operation) : Prop where
  runnable : f.body.Runnable
  place : ∃ n x seen, f.body.block f.block = .ok x ∧ f.rest = x.instructions.drop (n + 1) ∧
    f.body.At f.block n op ∧ f.Comes n seen

/-- The frame waits for the result of a call. -/
def Waits (f : Frame) (out : Option ValueId) : Prop :=
  ∃ op, f.Executes op ∧ op.isTerminator = false ∧ op.out? = out

theorem Runs.executes (hf : f.Runs) :
    ∃ i rest op, f.rest = i :: rest ∧ f.body.operation i = .ok op ∧
      { f with rest }.Executes op := by
  obtain ⟨n, x, seen, hx, hrest, hn, hcomes⟩ := hf.place
  obtain ⟨op, hop⟩ := hf.runnable.arranged.exists_operation hx (List.getElem_mem hn)
  refine ⟨x.instructions[n], x.instructions.drop (n + 1), op, ?_, hop, hf.runnable, ?_⟩
  · rw [hrest, List.drop_eq_getElem_cons hn]
  · exact ⟨n, x, seen, hx, rfl, ⟨x, _, hx, List.getElem?_eq_getElem hn, hop⟩, hcomes.way,
      hcomes.defines⟩

theorem Executes.defines (hf : f.Executes op) (hv : v ∈ op.operands) : f.Defines v := by
  obtain ⟨n, x, seen, -, -, hop, hcomes⟩ := hf.place
  exact hcomes.defines v (hf.runnable.safe.operands hcomes.way hop v hv)

/-- After an instruction that does not terminate its block there is another one. -/
theorem Executes.settle_put (hf : f.Executes op) (hinner : op.isTerminator = false) :
    ∃ g, (f.put op.out? a).settle = .ok g ∧ g.Runs := by
  obtain ⟨n, x, seen, hx, hrest, hop, hcomes⟩ := hf.place
  have hlt : n + 1 < x.instructions.length := by
    obtain ⟨x', i, hx', hi, -⟩ := id hop
    obtain rfl := Except.ok.inj (hx.symm.trans hx')
    have hle := (List.getElem?_eq_some_iff.1 hi).1
    have hne := mt (hf.runnable.consistent.terminates_iff hx hop).2 (by simp [hinner])
    omega
  have hframe : (f.put op.out? a).body = f.body ∧ (f.put op.out? a).block = f.block := by
    cases op.out? <;> exact ⟨rfl, rfl⟩
  refine ⟨f.put op.out? a, settle_of_rest ?_, hframe.1 ▸ hf.runnable, n + 1, x,
    op.out?.toList ++ seen, ?_, ?_, hlt, ?_⟩
  · rw [rest_put, hrest]
    exact List.ne_nil_of_length_pos (by rw [List.length_drop]; omega)
  · rw [hframe.1, hframe.2, hx]
  · rw [rest_put, hrest]
  · constructor
    · rw [hframe.1, hframe.2]
      exact hcomes.way.next hop hinner
    · intro v hv
      exact defines_put ((List.mem_append.1 hv).imp_right (hcomes.defines v))

/-- What the phis of a block read on the edge that is taken is there. -/
theorem Executes.exists_inputs (hf : f.Executes op) (ht : t ∈ op.targets) {y : Block} {edge : Nat}
    (hy : f.body.block t = .ok y) (hedge : y.predecessors[edge]? = some f.block) :
    ∃ inputs, y.phis.mapM (f.readPhi edge) = .ok inputs := by
  obtain ⟨n, x, seen, -, -, hop, hcomes⟩ := hf.place
  refine exists_mapM_eq_ok.2 fun phi hphi => ?_
  have hlt : edge < phi.operands.length := by
    rw [hf.runnable.consistent.arity hy phi hphi]
    exact (List.getElem?_eq_some_iff.1 hedge).1
  have hoperand := List.getElem?_eq_getElem hlt
  obtain ⟨a, ha⟩ := hcomes.defines _ (hf.runnable.safe.inputs hcomes.way ⟨op, hop, .inl ht⟩ _
    ⟨y, phi, edge, hy, hphi, hedge, hoperand⟩)
  exact ⟨(phi.out, a), readPhi_eq_ok.2 ⟨_, hoperand, ha, rfl⟩⟩

theorem Executes.settle_jump (hf : f.Executes op) (ht : t ∈ op.targets) :
    ∃ g, { f with next := some t }.settle = .ok g ∧ g.Runs := by
  obtain ⟨n, x, seen, hx, hrest, hop, hcomes⟩ := hf.place
  have hC := hf.runnable.consistent
  have hterm : op.isTerminator = true := by
    by_contra hinner
    simp [Operation.targets_eq_nil (by simpa using hinner)] at ht
  have hend := (hC.terminates_iff hx hop).1 hterm
  replace hrest : f.rest = [] := by
    rw [hrest, hend, List.drop_length]
  obtain ⟨y, hy, hpred⟩ := hC.symmetric_out (.inl (hop.jumps hC ht))
  obtain ⟨edge, hedge⟩ : ∃ edge, y.predecessors.idxOf? f.block = some edge :=
    Option.isSome_iff_exists.1 (by simpa using hpred)
  obtain ⟨inputs, hinputs⟩ := hf.exists_inputs ht hy (by
    obtain ⟨hlt, heq, -⟩ := List.idxOf?_eq_some_iff.1 hedge
    rw [List.getElem?_eq_getElem hlt]
    exact congrArg some (by simpa using heq))
  obtain ⟨j, -, hlast, -⟩ := hC.terminated hy
  have hne : y.instructions ≠ [] := by
    intro hnil
    simp [hnil] at hlast
  refine ⟨{ f.writeAll inputs with block := t, rest := y.instructions, next := none }, ?_, ?_⟩
  · have hsettle := (Frame.settle_jump (f := f) (b := t)).2
      ⟨(enter_eq_ok hy hedge).2 ⟨inputs, hinputs, rfl⟩, hne⟩
    simpa only [hrest] using hsettle
  · obtain ⟨hbody, -⟩ := writeAll_frame (f := f) inputs
    refine ⟨hbody ▸ hf.runnable, 0, y, y.phis.map (·.out) ++ seen, ?_, rfl,
      List.length_pos_iff.2 hne, ?_, fun v hv => ?_⟩
    · rw [← hy]
      exact congrArg (·.block t) hbody
    · show (f.writeAll inputs).body.Comes false t 0 _
      rw [hbody]
      exact hcomes.way.pass ⟨op, hop, .inl ht⟩ hy
    · refine defines_writeAll (f := f) ?_
      rw [keys_of_readPhi hinputs]
      exact (List.mem_append.1 hv).imp_right (hcomes.defines v)

theorem start_ensures {c : Body} (hc : c.Runnable) (arguments : List RuntimeValue) :
    (start c arguments).Ensures Runs := by
  obtain ⟨x, hx⟩ := Body.exists_block_iff.2 hc.arranged.entry
  obtain ⟨j, -, hlast, -⟩ := hc.consistent.terminated hx
  have hne : x.instructions ≠ [] := by
    intro hnil
    simp [hnil] at hlast
  refine ensures_of_eq_ok (a := { body := c, arguments, block := c.entry, rest := x.instructions })
    ?_ ⟨hc, 0, x, [], hx, rfl, List.length_pos_iff.2 hne, .start, by simp⟩
  simp [start, hx, Executing.ofBody, Except.mapError, expectRest, hne]

end Frame

/-! ### Operations -/

/-- An operation that finds its operands has an effect of its kind, or it goes wrong for a reason that
lies in the program. -/
theorem Operation.effect_ensures {h : Hierarchy} {f : Frame} {op : Operation}
    (hcall : ∀ call, op ≠ .call call) (hf : ∀ v ∈ op.operands, f.Defines v) :
    (op.effect h f).Ensures op.Has := by
  cases heffect : op.effect h f with
  | ok e => exact has_of_effect heffect
  | error e =>
    show e.blamesBody = false
    cases op with
    | call call => exact absurd rfl (hcall call)
    | cast out object name =>
      obtain ⟨a, ha⟩ := hf object (by simp [operands])
      cases a with
      | object C =>
        cases hsub : h.isSubtype C name with
        | true => simp [effect, ha, hsub] at heffect
        | false =>
          simp only [effect, ha, ok_bind, hsub] at heffect
          obtain rfl := Except.error.inj heffect
          rfl
      | _ => simp [effect, ha] at heffect
    | assumeNonNull out source origin =>
      obtain ⟨a, ha⟩ := hf source (by simp [operands])
      simp [effect, ha] at heffect
    | branch condition t e' =>
      obtain ⟨a, ha⟩ := hf condition (by simp [operands])
      simp [effect, ha] at heffect
    | ret value =>
      cases value with
      | none => cases heffect
      | some v =>
        obtain ⟨a, ha⟩ := hf v (by simp [operands])
        simp [effect, ha] at heffect
    | throw v =>
      obtain rfl := Except.error.inj heffect
      rfl
    | _ => cases heffect

/-- Looking for the target of a call is not the fault of a body. -/
theorem Hierarchy.selectTarget_ensures {h : Hierarchy} {context : TypeName} {kind : DispatchKind}
    {called : MethodRef} {arguments : List RuntimeValue} :
    Ensures (h.selectTarget context kind called arguments) fun _ => True := by
  have hdefault : ∀ start, Ensures (h.selectDefault start called) fun _ => True := by
    intro start
    unfold selectDefault
    dsimp only
    split
    · split
      · trivial
      · rfl
    · rfl
    · rfl
  have hfrom : ∀ start, Ensures (h.selectFrom start called) fun _ => True := by
    intro start
    unfold selectFrom
    dsimp only
    split
    · split
      · rfl
      · trivial
    · exact hdefault start
  unfold selectTarget
  split
  · split
    · exact hfrom _
    · exact hfrom _
    · split
      · exact hfrom _
      · rfl
  · rfl

/-! ### Machines -/

namespace Machine

variable {p : Program} {m : Machine} {f : Frame} {op : Operation} {out : Option ValueId}

/-- The current frame runs, and all others wait for the results of their calls. -/
structure Sound (m : Machine) : Prop where
  runs : m.frame.Runs
  waits : ∀ q ∈ m.callers, q.1.Waits q.2

/-- The machine that goes on is sound. -/
def Continues : Progress → Prop
  | .running m => m.Sound
  | .finished _ => True

variable (hwaits : ∀ q ∈ m.callers, q.1.Waits q.2)

include hwaits

theorem continueWith_ensures (hf : ∃ g, f.settle = .ok g ∧ g.Runs) :
    (m.continueWith f).Ensures Continues := by
  obtain ⟨g, hsettle, hg⟩ := hf
  refine ensures_of_eq_ok (a := .running { m with frame := g }) ?_ ⟨hg, hwaits⟩
  simp [continueWith, hsettle]

theorem resume_ensures (hf : f.Waits out) (result : RuntimeValue) :
    (m.resume f out result).Ensures Continues := by
  obtain ⟨op, hexecutes, hinner, rfl⟩ := hf
  exact continueWith_ensures hwaits (hexecutes.settle_put hinner)

theorem leave_ensures (result : RuntimeValue) : (m.leave result).Ensures Continues := by
  unfold leave
  split
  · trivial
  · rename_i f out callers hcallers
    rw [hcallers, List.forall_mem_cons] at hwaits
    exact resume_ensures (m := { m with callers }) hwaits.2 hwaits.1 result

variable (hp : ∀ c ∈ p.bodies, c.Runnable)

include hp

theorem call_ensures (hf : f.Waits out) (target : MethodRef) (arguments : List RuntimeValue) :
    (m.call p f out target arguments).Ensures Continues := by
  unfold call
  dsimp only
  split
  · exact resume_ensures (m := { m with calls := target :: m.calls }) hwaits hf _
  · rename_i c hbody
    split
    · rfl
    · have hc := hp c (List.mem_reverse.1 (List.mem_of_find?_eq_some hbody))
      refine (Frame.start_ensures hc arguments).bind fun frame hframe => ?_
      exact ⟨hframe, List.forall_mem_cons.2 ⟨hf, hwaits⟩⟩

theorem execute_ensures (hf : f.Executes op) : (m.execute p f op).Ensures Continues := by
  by_cases hcall : ∃ call, op = .call call
  · obtain ⟨call, rfl⟩ := hcall
    obtain ⟨arguments, harguments⟩ : ∃ arguments, call.arguments.mapM f.read = .ok arguments :=
      exists_mapM_eq_ok.2 fun v hv => hf.defines hv
    simp only [execute, harguments, ok_bind]
    exact Ensures.bind Hierarchy.selectTarget_ensures fun target _ =>
      call_ensures hwaits hp ⟨_, hf, rfl, rfl⟩ target arguments
  · rw [execute_eq_perform fun call heq => hcall ⟨call, heq⟩]
    refine (Operation.effect_ensures (fun call heq => hcall ⟨call, heq⟩)
      fun v hv => hf.defines hv).bind fun e he => ?_
    cases e with
    | write v a =>
      obtain ⟨hout, hinner⟩ := he
      exact continueWith_ensures hwaits (hout ▸ hf.settle_put hinner)
    | jump t => exact continueWith_ensures hwaits (hf.settle_jump he.2.2)
    | leave result => exact leave_ensures hwaits result

omit hwaits

theorem step_ensures (hm : m.Sound) : (m.step p).Ensures Continues := by
  obtain ⟨i, rest, op, hrest, hop, hexecutes⟩ := hm.runs.executes
  rw [step_eq_execute hrest hop]
  exact execute_ensures hm.waits hp hexecutes

theorem run_ensures (limit steps : Nat) (hm : m.Sound) :
    (run p limit steps m).Ensures fun _ => True := by
  induction steps generalizing m with
  | zero => rfl
  | succ steps ih =>
    refine (step_ensures hp hm).bind fun progress hprogress => ?_
    cases progress with
    | running m' => exact ih hprogress
    | finished calls => trivial

end Machine

theorem Program.callsOf_ensures {p : Program} (hp : ∀ c ∈ p.bodies, c.Runnable) (limit : Nat)
    (method : MethodRef) (arguments : List RuntimeValue) :
    (p.callsOf limit method arguments).Ensures fun _ => True := by
  unfold callsOf
  split
  · trivial
  · rename_i c hbody
    have hc := hp c (List.mem_reverse.1 (List.mem_of_find?_eq_some hbody))
    refine (Frame.start_ensures hc arguments).bind fun frame hframe => ?_
    refine (Machine.run_ensures hp limit limit ⟨hframe, by simp⟩).bind fun calls _ => ?_
    trivial

/-- Where nothing leads back to the entry, nothing is taken to be there from the entry on that another
block defines. -/
theorem Body.entryCovered_of_predecessors {c : Body} {caught : Bool} (hc : c.Arranged)
    (hsingle : c.SingleAssignment)
    (hentry : ∀ x, c.block c.entry = .ok x → x.phis = [] ∧ x.predecessors = []) :
    c.EntryCovered caught := by
  intro d k op v hop hout hd havail
  exfalso
  rcases havail with ⟨phi, ⟨x, hx, hphi⟩, -⟩ | ⟨i, op', r, hop', hout', hr, x, hx, hfrom⟩
  · simp [(hentry x hx).1] at hphi
  · split at hfrom
    · obtain ⟨-, y, hy, hpreds⟩ := hfrom
      simp [(hentry y hy).2] at hpreds
    · obtain ⟨n, hn⟩ := exists_at hc hop' hr
      exact hd ((hop.place_unique hc hsingle hout hn hout').1.trans hfrom.symm)

/-- A run of valid bodies does not stop because of a body: it never misses a value, a terminator or
the operand of a phi. What the check lets pass has to be excluded: that a value is defined in another
block, is taken to be there from the entry on, and is read on a way around its block. -/
theorem Program.callsOf_ne_error_of_valid {p : Program}
    (hbodies : ∀ c ∈ p.bodies, c.Made ∧ c.NamesDefinitions ∧ c.violations = .ok [] ∧
      (∀ x, c.block c.entry = .ok x → x.phis = []) ∧ c.EntryCovered false)
    (limit : Nat) (method : MethodRef) (arguments : List RuntimeValue) :
    (∀ v, p.callsOf limit method arguments ≠ .error (.undefinedValue v)) ∧
      (∀ b, p.callsOf limit method arguments ≠ .error (.missingTerminator b)) ∧
      ∀ fault, p.callsOf limit method arguments ≠ .error (.malformed fault) := by
  have hrunnable : ∀ c ∈ p.bodies, c.Runnable := by
    intro c hc
    obtain ⟨hmade, hnames, hvalid, hentry, hcovered⟩ := hbodies c hc
    have hconsistent := Body.consistent_of_valid hmade.grounded hnames hvalid
    refine ⟨hmade.grounded.toArranged, hconsistent, ?_⟩
    -- handlers are not run, so what a throw leaves undefined does not matter
    refine Body.safe_of_covered hmade.grounded.toArranged hconsistent hentry ?_ hcovered
    intro _ _ _ _ _ _ _ _ _ hcaught
    exact absurd hcaught (by simp)
  have hensures := p.callsOf_ensures hrunnable limit method arguments
  refine ⟨fun v heq => ?_, fun b heq => ?_, fun fault heq => ?_⟩ <;>
    · rw [heq] at hensures
      exact absurd hensures (by simp [Ensures, RunError.blamesBody])

/-- A loop whose guarded block creates what the phi at its head reads. -/
def Body.guardedLoop : List DraftStep :=
  [.newBlock, .newBlock, .newBlock, .newBlock, .number ⟨0⟩ 1, .goto ⟨0⟩ ⟨1⟩,
    .handler ⟨2⟩ none ⟨4⟩, .create ⟨2⟩ "A", .goto ⟨2⟩ ⟨1⟩,
    .phi ⟨1⟩ (.ofClass "A" .maybe) [(⟨0⟩, ⟨0⟩), (⟨2⟩, ⟨1⟩)], .branch ⟨1⟩ ⟨2⟩ ⟨2⟩ ⟨3⟩,
    .ret ⟨3⟩ none, .ret ⟨4⟩ none]

theorem Program.callsOf_guardedLoop_ne_error :
    ∃ made c, Body.ofSteps (.plain "A" "f") Body.guardedLoop = .ok (made, c) ∧ c.violations = .ok [] ∧
      ∀ limit v, ({ hierarchy := {}, entry := .plain "A" "f", bodies := [c] } : Program).callsOf
        limit (.plain "A" "f") [] ≠ .error (.undefinedValue v) := by
  obtain ⟨made, c, hwritten, hvalid, hblock⟩ :
      ∃ made c, Body.ofSteps (.plain "A" "f") Body.guardedLoop = .ok (made, c) ∧
        c.violations = .ok [] ∧ c.block ⟨0⟩ = .ok { instructions := [⟨0⟩, ⟨1⟩] } := by
    decide +kernel
  have hI := Body.intact_of_ofSteps hwritten
  refine ⟨made, c, hwritten, hvalid, fun limit v => ?_⟩
  refine (callsOf_ne_error_of_valid (fun d hd => ?_) limit (.plain "A" "f") []).1 v
  obtain rfl := List.mem_singleton.1 hd
  refine ⟨.written hwritten, hI.namesDefinitions, hvalid, fun x hx => ?_,
    Body.entryCovered_of_predecessors hI.toArranged hI.singleAssignment fun x hx => ?_⟩ <;>
    obtain rfl := Except.ok.inj (hx.symm.trans hblock)
  · rfl
  · exact ⟨rfl, rfl⟩

/-- The entry tests a value that a guarded block creates, and nothing but this block leads back to
the entry. -/
def Body.entryLoop : List DraftStep :=
  [.newBlock, .newBlock, .newBlock, .create ⟨1⟩ "A", .handler ⟨1⟩ none ⟨3⟩, .goto ⟨1⟩ ⟨0⟩,
    .branch ⟨0⟩ ⟨0⟩ ⟨1⟩ ⟨2⟩, .ret ⟨2⟩ none, .ret ⟨3⟩ none]

/-- The check finds nothing, and the run misses the value at once. -/
theorem Program.callsOf_entryLoop :
    ∃ made c, Body.ofSteps (.plain "A" "f") Body.entryLoop = .ok (made, c) ∧ c.Made ∧
      c.NamesDefinitions ∧ c.violations = .ok [] ∧
      (∀ x, c.block c.entry = .ok x → x.phis = []) ∧
      ({ hierarchy := {}, entry := .plain "A" "f", bodies := [c] } : Program).callsOf
        10 (.plain "A" "f") [] = .error (.undefinedValue ⟨0⟩) := by
  obtain ⟨made, c, hwritten, hvalid, hentry, hrun⟩ :
      ∃ made c, Body.ofSteps (.plain "A" "f") Body.entryLoop = .ok (made, c) ∧
        c.violations = .ok [] ∧ (∀ x, c.block c.entry = .ok x → x.phis = []) ∧
        ({ hierarchy := {}, entry := .plain "A" "f", bodies := [c] } : Program).callsOf
          10 (.plain "A" "f") [] = .error (.undefinedValue ⟨0⟩) := by
    decide +kernel
  have hI := Body.intact_of_ofSteps hwritten
  exact ⟨made, c, hwritten, .written hwritten, hI.namesDefinitions, hvalid, hentry, hrun⟩

end Devirt
