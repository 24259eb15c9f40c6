import Devirt.Body.Draft
import Devirt.Proofs.Execution.Simulation

/-!
Runs as nested executions. Executing a body and calling a method are stated here in terms of each
other, with a loop over blocks that has no bound of its own and one count of instructions for the
whole run. Every run ends, since no loop goes round without executing an instruction, and the
machine computes how it ends. A run that stays within its limit ends in the same way under a larger
one.
-/

namespace Devirt

open Relation

/-! ### Single instructions -/

/-- What the next instruction of a frame comes to. A frame goes on with what is left of it, returns
a result, or waits for the result of a call. -/
inductive Action where
  | go (f : Frame)
  | leave (result : RuntimeValue)
  | call (f : Frame) (out : Option ValueId) (target : MethodRef) (arguments : List RuntimeValue)

namespace Frame

def act (p : Program) (f : Frame) : Operation → Executing Action
  | .call c => do
    let arguments ← c.arguments.mapM f.read
    let target ← p.hierarchy.selectTarget f.body.context c.kind c.method arguments
    return .call f c.out target arguments
  | op => do
    match ← op.effect p.hierarchy f with
    | .write v a => return .go (f.put (some v) a)
    | .jump b => return .go { f with next := some b }
    | .leave result => return .leave result

def fetch (p : Program) (f : Frame) : Executing Action :=
  match f.rest with
  | [] => .error (.missingTerminator f.block)
  | i :: rest => do
    let op ← Executing.ofBody (f.body.operation i)
    { f with rest }.act p op

/-- Leaves a block at its end. -/
def turn (f : Frame) : Executing Frame :=
  match f.next with
  | some b => f.enter b
  | none => .error (.missingTerminator f.block)

/-- The first frame of a body whose entry is the given block. -/
def first (c : Body) (x : Block) (arguments : List RuntimeValue) : Frame :=
  { body := c, arguments, block := c.entry, rest := x.instructions }

variable {f g : Frame}

theorem next_of_turn (hturn : f.turn = .ok g) : g.next = none := by
  unfold turn at hturn
  split at hturn
  · simp only [enter, bind_eq_ok, pure_eq_ok] at hturn
    obtain ⟨x, -, hturn⟩ := hturn
    split at hturn <;>
    · obtain ⟨inputs, -, hturn⟩ := bind_eq_ok.1 hturn
      obtain rfl := Except.ok.inj hturn
      rfl
  · cases hturn

/-- A block that has just been entered must have something in it. -/
theorem settle_eq_expectRest (hnext : f.next = none) : f.settle = f.expectRest := by
  unfold settle expectRest
  rw [hnext]

theorem settle_eq_turn (hrest : f.rest = []) : f.settle = f.turn >>= settle := by
  cases hturn : f.turn with
  | ok g =>
    rw [ok_bind, settle_eq_expectRest (next_of_turn hturn)]
    unfold turn at hturn
    split at hturn
    · rename_i b hnext
      simp [settle, hrest, hnext, hturn]
    · cases hturn
  | error e =>
    unfold turn at hturn
    split at hturn
    · rename_i b hnext
      simp [settle, hrest, hnext, hturn]
    · rename_i hnext
      simpa [settle, hrest, hnext] using hturn

end Frame

namespace Machine

variable {p : Program} {m : Machine} {f : Frame} {limit k : Nat}

def carryOut (p : Program) (m : Machine) : Action → Executing Progress
  | .go f => m.continueWith f
  | .leave result => m.leave result
  | .call f out target arguments => m.call p f out target arguments

theorem step_eq_fetch : m.step p = m.frame.fetch p >>= m.carryOut p := by
  unfold step Frame.fetch
  cases m.frame.rest with
  | nil => rfl
  | cons i rest =>
    dsimp only
    cases hop : Executing.ofBody (m.frame.body.operation i) with
    | error e => rfl
    | ok op =>
      rw [ok_bind, ok_bind]
      by_cases hcall : ∃ call, op = .call call
      · obtain ⟨call, rfl⟩ := hcall
        simp only [execute, Frame.act, bind_assoc, pure_bind]
        rfl
      · rw [execute_eq_perform fun call h => hcall ⟨call, h⟩]
        cases op with
        | call c => exact absurd ⟨c, rfl⟩ hcall
        | _ =>
          simp only [Frame.act, bind_assoc]
          congr 1
          funext e
          cases e <;> rfl

/-- How a run goes on from what a step has led to. -/
def proceed (p : Program) (limit k : Nat) : Progress → Executing (List MethodRef)
  | .running m => run p limit k m
  | .finished calls => .ok calls

theorem run_succ : run p limit (k + 1) m = m.step p >>= proceed p limit k := by
  rw [run]
  rfl

end Machine

/-! ### Nested executions -/

/-- What the whole run counts: the instructions executed, and the methods called, latest first. -/
structure Tally where
  executed : Nat := 0
  calls : List MethodRef := []
  deriving DecidableEq

namespace Tally

def tick (t : Tally) : Tally := { t with executed := t.executed + 1 }

def note (t : Tally) (target : MethodRef) : Tally := { t with calls := target :: t.calls }

end Tally

/-- What is to be done: to execute a body from a frame on, or to call a method. -/
inductive Task where
  | execute (f : Frame)
  | invoke (target : MethodRef) (arguments : List RuntimeValue)

/-- Doing the task, with so many bodies around it and so much counted before, takes the count to the
second tally and ends with the given result. -/
inductive Runs (p : Program) (limit : Nat) :
    Nat → Tally → Task → Tally → Executing RuntimeValue → Prop
  | stop {d : Nat} {t : Tally} {f : Frame} {e : RunError} (hrest : f.rest = [])
      (hturn : f.turn = .error e) : Runs p limit d t (.execute f) t (.error e)
  | turn {d : Nat} {t t' : Tally} {f g : Frame} {r : Executing RuntimeValue} (hrest : f.rest = [])
      (hturn : f.turn = .ok g) (hgo : Runs p limit d t (.execute g) t' r) :
      Runs p limit d t (.execute f) t' r
  | exceed {d : Nat} {t : Tally} {f : Frame} (hrest : f.rest ≠ []) (hlimit : limit ≤ t.executed) :
      Runs p limit d t (.execute f) t (.error (.stepLimit limit))
  | fail {d : Nat} {t : Tally} {f : Frame} {e : RunError} (hrest : f.rest ≠ [])
      (hlimit : t.executed < limit) (hfetch : f.fetch p = .error e) :
      Runs p limit d t (.execute f) t.tick (.error e)
  | go {d : Nat} {t t' : Tally} {f g : Frame} {r : Executing RuntimeValue} (hrest : f.rest ≠ [])
      (hlimit : t.executed < limit) (hfetch : f.fetch p = .ok (.go g))
      (hgo : Runs p limit d t.tick (.execute g) t' r) : Runs p limit d t (.execute f) t' r
  | leave {d : Nat} {t : Tally} {f : Frame} {a : RuntimeValue} (hrest : f.rest ≠ [])
      (hlimit : t.executed < limit) (hfetch : f.fetch p = .ok (.leave a)) :
      Runs p limit d t (.execute f) t.tick (.ok a)
  | abort {d : Nat} {t t' : Tally} {f g : Frame} {out : Option ValueId} {target : MethodRef}
      {arguments : List RuntimeValue} {e : RunError} (hrest : f.rest ≠ [])
      (hlimit : t.executed < limit) (hfetch : f.fetch p = .ok (.call g out target arguments))
      (hcall : Runs p limit d t.tick (.invoke target arguments) t' (.error e)) :
      Runs p limit d t (.execute f) t' (.error e)
  | call {d : Nat} {t t₁ t' : Tally} {f g : Frame} {out : Option ValueId} {target : MethodRef}
      {arguments : List RuntimeValue} {a : RuntimeValue} {r : Executing RuntimeValue}
      (hrest : f.rest ≠ []) (hlimit : t.executed < limit)
      (hfetch : f.fetch p = .ok (.call g out target arguments))
      (hcall : Runs p limit d t.tick (.invoke target arguments) t₁ (.ok a))
      (hgo : Runs p limit d t₁ (.execute (g.put out a)) t' r) : Runs p limit d t (.execute f) t' r
  | leaf {d : Nat} {t : Tally} {target : MethodRef} {arguments : List RuntimeValue}
      (hbody : p.body? target = none) :
      Runs p limit d t (.invoke target arguments) (t.note target) (.ok .null)
  | deep {d : Nat} {t : Tally} {target : MethodRef} {arguments : List RuntimeValue} {c : Body}
      (hbody : p.body? target = some c) (hdepth : Machine.maxDepth ≤ d) :
      Runs p limit d t (.invoke target arguments) (t.note target) (.error .callDepth)
  | missing {d : Nat} {t : Tally} {target : MethodRef} {arguments : List RuntimeValue} {c : Body}
      {fault : Fault} (hbody : p.body? target = some c) (hdepth : d < Machine.maxDepth)
      (hentry : c.block c.entry = .error fault) :
      Runs p limit d t (.invoke target arguments) (t.note target) (.error (.malformed fault))
  | enter {d : Nat} {t t' : Tally} {target : MethodRef} {arguments : List RuntimeValue} {c : Body}
      {x : Block} {r : Executing RuntimeValue} (hbody : p.body? target = some c)
      (hdepth : d < Machine.maxDepth) (hentry : c.block c.entry = .ok x)
      (hgo : Runs p limit (d + 1) (t.note target) (.execute (Frame.first c x arguments)) t' r) :
      Runs p limit d t (.invoke target arguments) t' r

namespace Runs

variable {p : Program} {limit limit' d : Nat} {t t' t₂ : Tally} {task : Task}
  {r r₂ : Executing RuntimeValue} {f : Frame}

/-- A task is done in one way. -/
theorem functional (h : Runs p limit d t task t' r) (h₂ : Runs p limit d t task t₂ r₂) :
    t₂ = t' ∧ r₂ = r := by
  induction h generalizing t₂ r₂ with
  | stop => cases h₂ <;> simp_all
  | exceed => cases h₂ <;> simp_all <;> omega
  | fail => cases h₂ <;> simp_all; omega
  | leave => cases h₂ <;> simp_all; omega
  | leaf => cases h₂ <;> simp_all
  | deep => cases h₂ <;> simp_all <;> omega
  | missing => cases h₂ <;> simp_all; omega
  | turn hrest hturn _ ih =>
    cases h₂ with
    | turn _ hturn₂ hgo =>
      obtain rfl := Except.ok.inj (hturn.symm.trans hturn₂)
      exact ih hgo
    | _ => simp_all
  | go hrest hlimit hfetch _ ih =>
    cases h₂ with
    | go _ _ hfetch₂ hgo =>
      obtain rfl := Action.go.inj (Except.ok.inj (hfetch.symm.trans hfetch₂))
      exact ih hgo
    | exceed => omega
    | _ => simp_all
  | abort hrest hlimit hfetch _ ih =>
    cases h₂ with
    | abort _ _ hfetch₂ hcall =>
      obtain ⟨rfl, rfl, rfl, rfl⟩ := Action.call.inj (Except.ok.inj (hfetch.symm.trans hfetch₂))
      exact ih hcall
    | call _ _ hfetch₂ hcall =>
      obtain ⟨rfl, rfl, rfl, rfl⟩ := Action.call.inj (Except.ok.inj (hfetch.symm.trans hfetch₂))
      cases (ih hcall).2
    | exceed => omega
    | _ => simp_all
  | call hrest hlimit hfetch _ _ ih ih' =>
    cases h₂ with
    | abort _ _ hfetch₂ hcall =>
      obtain ⟨rfl, rfl, rfl, rfl⟩ := Action.call.inj (Except.ok.inj (hfetch.symm.trans hfetch₂))
      cases (ih hcall).2
    | call _ _ hfetch₂ hcall hgo =>
      obtain ⟨rfl, rfl, rfl, rfl⟩ := Action.call.inj (Except.ok.inj (hfetch.symm.trans hfetch₂))
      obtain ⟨rfl, hresult⟩ := ih hcall
      obtain rfl := Except.ok.inj hresult
      exact ih' hgo
    | exceed => omega
    | _ => simp_all
  | enter hbody hdepth hentry _ ih =>
    cases h₂ with
    | enter hbody₂ _ hentry₂ hgo =>
      obtain rfl := Option.some.inj (hbody.symm.trans hbody₂)
      obtain rfl := Except.ok.inj (hentry.symm.trans hentry₂)
      exact ih hgo
    | deep => omega
    | _ => simp_all

/-! ### Counting -/

theorem executed_le (h : Runs p limit d t task t' r) : t.executed ≤ t'.executed := by
  induction h with
  | stop | exceed | leaf | deep | missing => exact Nat.le_refl _
  | fail | leave => exact Nat.le_succ _
  | turn _ _ _ ih | enter _ _ _ _ ih => exact ih
  | go _ _ _ _ ih | abort _ _ _ _ ih => exact Nat.le_of_succ_le ih
  | call _ _ _ _ _ ih ih' => exact Nat.le_trans (Nat.le_of_succ_le ih) ih'

/-- A run never executes more instructions than its limit allows. -/
theorem executed_le_limit (h : Runs p limit d t task t' r) (ht : t.executed ≤ limit) :
    t'.executed ≤ limit := by
  induction h with
  | stop | exceed | leaf | deep | missing => exact ht
  | fail _ hlimit _ | leave _ hlimit _ => exact hlimit
  | turn _ _ _ ih | enter _ _ _ _ ih => exact ih ht
  | go _ hlimit _ _ ih | abort _ hlimit _ _ ih => exact ih hlimit
  | call _ hlimit _ _ _ ih ih' => exact ih' (ih hlimit)

/-- What is done within a limit is done in the same way within a larger one. -/
theorem mono (h : Runs p limit d t task t' r) (hr : r ≠ .error (.stepLimit limit))
    (hle : limit ≤ limit') : Runs p limit' d t task t' r := by
  induction h with
  | stop hrest hturn => exact .stop hrest hturn
  | exceed => exact absurd rfl hr
  | leaf hbody => exact .leaf hbody
  | deep hbody hdepth => exact .deep hbody hdepth
  | missing hbody hdepth hentry => exact .missing hbody hdepth hentry
  | fail hrest hlimit hfetch => exact .fail hrest (Nat.lt_of_lt_of_le hlimit hle) hfetch
  | leave hrest hlimit hfetch => exact .leave hrest (Nat.lt_of_lt_of_le hlimit hle) hfetch
  | turn hrest hturn _ ih => exact .turn hrest hturn (ih hr)
  | enter hbody hdepth hentry _ ih => exact .enter hbody hdepth hentry (ih hr)
  | go hrest hlimit hfetch _ ih => exact .go hrest (Nat.lt_of_lt_of_le hlimit hle) hfetch (ih hr)
  | abort hrest hlimit hfetch _ ih =>
    exact .abort hrest (Nat.lt_of_lt_of_le hlimit hle) hfetch (ih hr)
  | call hrest hlimit hfetch _ _ ih ih' =>
    exact .call hrest (Nat.lt_of_lt_of_le hlimit hle) hfetch (ih (by simp)) (ih' hr)

/-! ### Every task comes to an end -/

section Existence

variable (ih : t.executed < limit → ∀ t₁ d task, t.executed < t₁.executed →
  ∃ t' r, Runs p limit d t₁ task t' r)
include ih

private theorem exists_of_rest (hrest : f.rest ≠ []) :
    ∃ t' r, Runs p limit d t (.execute f) t' r := by
  by_cases hlimit : limit ≤ t.executed
  · exact ⟨_, _, .exceed hrest hlimit⟩
  have hlt := Nat.lt_of_not_le hlimit
  cases hfetch : f.fetch p with
  | error e => exact ⟨_, _, .fail hrest hlt hfetch⟩
  | ok action =>
    cases action with
    | leave a => exact ⟨_, _, .leave hrest hlt hfetch⟩
    | go g =>
      obtain ⟨t', r, hgo⟩ := ih hlt t.tick d (.execute g) (Nat.lt_succ_self _)
      exact ⟨t', r, .go hrest hlt hfetch hgo⟩
    | call g out target arguments =>
      obtain ⟨t₁, r, hcall⟩ := ih hlt t.tick d (.invoke target arguments) (Nat.lt_succ_self _)
      cases r with
      | error e => exact ⟨t₁, _, .abort hrest hlt hfetch hcall⟩
      | ok a =>
        obtain ⟨t', r, hgo⟩ := ih hlt t₁ d (.execute (g.put out a)) hcall.executed_le
        exact ⟨t', r, .call hrest hlt hfetch hcall hgo⟩

/-- A block that has been left is followed by one that has something in it, or by none. -/
private theorem exists_of_frame : ∃ t' r, Runs p limit d t (.execute f) t' r := by
  by_cases hrest : f.rest = []
  · cases hturn : f.turn with
    | error e => exact ⟨_, _, .stop hrest hturn⟩
    | ok g =>
      by_cases hg : g.rest = []
      · have hstop : g.turn = .error (.missingTerminator g.block) := by
          rw [Frame.turn, Frame.next_of_turn hturn]
        exact ⟨_, _, .turn hrest hturn (.stop hg hstop)⟩
      · obtain ⟨t', r, hgo⟩ := exists_of_rest ih hg
        exact ⟨t', r, .turn hrest hturn hgo⟩
  · exact exists_of_rest ih hrest

private theorem exists_of_task : ∃ t' r, Runs p limit d t task t' r := by
  cases task with
  | execute f => exact exists_of_frame ih
  | invoke target arguments =>
    cases hbody : p.body? target with
    | none => exact ⟨_, _, .leaf hbody⟩
    | some c =>
      by_cases hdepth : Machine.maxDepth ≤ d
      · exact ⟨_, _, .deep hbody hdepth⟩
      have hlt := Nat.lt_of_not_le hdepth
      cases hentry : c.block c.entry with
      | error fault => exact ⟨_, _, .missing hbody hlt hentry⟩
      | ok x =>
        obtain ⟨t', r, hgo⟩ : ∃ t' r, Runs p limit (d + 1) (t.note target)
            (.execute (Frame.first c x arguments)) t' r := exists_of_frame ih
        exact ⟨t', r, .enter hbody hlt hentry hgo⟩

end Existence

/-- The induction is on the instructions that may still be executed: between two of them there is at
most one turn to another block and one call. -/
theorem exists_runs (p : Program) (limit d : Nat) (t : Tally) (task : Task) :
    ∃ t' r, Runs p limit d t task t' r := by
  induction hleft : limit - t.executed using Nat.strong_induction_on generalizing d t task with
  | _ left ih =>
    apply exists_of_task
    intro hlt t₁ d₁ task₁ ht₁
    exact ih (limit - t₁.executed) (by omega) d₁ t₁ task₁ rfl

end Runs

/-! ### Where the limit is reported -/

/-- The computation does not complain about the number of steps. -/
def Executing.IgnoresLimit {α : Type} (x : Executing α) : Prop := ∀ n, x ≠ .error (.stepLimit n)

namespace Executing.IgnoresLimit

variable {α β : Type} {x : Executing α} {f : α → Executing β} {h : Hierarchy} {g : Frame}

theorem ok (a : α) : IgnoresLimit (.ok a) := by
  intro n hn
  cases hn

theorem error {e : RunError} (he : ∀ n, e ≠ .stepLimit n) : IgnoresLimit (.error e : Executing α) :=
  fun n hn => he n (Except.error.inj hn)

theorem bind (hx : IgnoresLimit x) (hf : ∀ a, IgnoresLimit (f a)) : IgnoresLimit (x >>= f) := by
  cases x with
  | ok a => exact hf a
  | error e => exact fun n hn => hx n (congrArg Except.error (Except.error.inj hn))

theorem mapM {l : List α} (hf : ∀ a, IgnoresLimit (f a)) : IgnoresLimit (l.mapM f) := by
  induction l with
  | nil => exact ok []
  | cons a l ih =>
    rw [List.mapM_cons]
    exact (hf a).bind fun b => ih.bind fun bs => ok (b :: bs)

theorem ofBody (y : Except Fault α) : IgnoresLimit (Executing.ofBody y) := by
  cases y with
  | ok a => exact ok a
  | error e => exact error (by simp)

theorem read (v : ValueId) : IgnoresLimit (g.read v) := by
  unfold Frame.read
  split
  · exact ok _
  · exact error (by simp)

theorem selectTarget (context : TypeName) (kind : DispatchKind) (called : MethodRef)
    (arguments : List RuntimeValue) :
    IgnoresLimit (h.selectTarget context kind called arguments) := by
  have hdefault : ∀ start, IgnoresLimit (h.selectDefault start called) := by
    intro start
    unfold Hierarchy.selectDefault
    dsimp only
    split
    · split
      · exact ok _
      · exact error (by simp)
    · exact error (by simp)
    · exact error (by simp)
  have hfrom : ∀ start, IgnoresLimit (h.selectFrom start called) := by
    intro start
    unfold Hierarchy.selectFrom
    dsimp only
    split
    · split
      · exact error (by simp)
      · exact ok _
    · exact hdefault start
  unfold Hierarchy.selectTarget
  split
  · split
    · exact hfrom _
    · exact hfrom _
    · split
      · exact hfrom _
      · exact error (by simp)
  · exact error (by simp)

theorem effect (op : Operation) : IgnoresLimit (op.effect h g) := by
  cases op with
  | cast out object name =>
    apply (read object).bind
    intro a
    split
    · split
      · exact ok _
      · exact error (by simp)
    · exact ok _
  | assumeNonNull out source origin => exact (read source).bind fun a => ok _
  | branch condition t e => exact (read condition).bind fun a => ok _
  | ret value =>
    cases value with
    | none => exact ok _
    | some v => exact (read v).bind fun a => ok _
  | call c => exact error (by simp)
  | throw exception => exact error (by simp)
  | _ => exact ok _

theorem fetch (p : Program) : IgnoresLimit (g.fetch p) := by
  unfold Frame.fetch
  split
  · exact error (by simp)
  · apply (ofBody _).bind
    intro op
    cases op with
    | call c =>
      apply (mapM fun v => read v).bind
      intro arguments
      exact (selectTarget _ _ _ _).bind fun target => ok _
    | _ =>
      apply (effect _).bind
      intro e
      cases e <;> exact ok _

theorem turn : IgnoresLimit g.turn := by
  unfold Frame.turn
  split
  · apply (ofBody _).bind
    intro x
    have hphi : ∀ edge phi, IgnoresLimit (g.readPhi edge phi) := by
      intro edge phi
      unfold Frame.readPhi
      split
      · exact (read _).bind fun a => ok _
      · exact error (by simp)
    dsimp only
    split
    · exact (mapM fun phi => hphi _ phi).bind fun inputs => ok _
    · exact (ok []).bind fun inputs => ok _
  · exact error (by simp)

end Executing.IgnoresLimit

/-- The limit is reported when that many instructions have been executed, and not before. -/
theorem Runs.executed_eq_limit {p : Program} {limit d n : Nat} {t t' : Tally} {task : Task}
    (h : Runs p limit d t task t' (.error (.stepLimit n))) (ht : t.executed ≤ limit) :
    n = limit ∧ t'.executed = limit := by
  generalize hr : (.error (.stepLimit n) : Executing RuntimeValue) = r at h
  induction h with
  | stop _ hturn =>
    cases hr
    exact absurd hturn (Executing.IgnoresLimit.turn n)
  | fail _ _ hfetch =>
    cases hr
    exact absurd hfetch (Executing.IgnoresLimit.fetch _ n)
  | exceed _ hlimit =>
    cases hr
    exact ⟨rfl, Nat.le_antisymm ht hlimit⟩
  | leave | leaf | deep | missing => cases hr
  | turn _ _ _ ih | enter _ _ _ _ ih => exact ih ht hr
  | go _ hlimit _ _ ih | abort _ hlimit _ _ ih => exact ih hlimit hr
  | call _ hlimit _ hcall _ _ ih' => exact ih' (hcall.executed_le_limit hlimit) hr

/-! ### The machine does the same -/

namespace Machine

variable {p : Program} {limit d : Nat} {t t' : Tally} {task : Task} {r : Executing RuntimeValue}

/-- With what is left of the limit, a machine whose frames are the bodies around the task goes
through the task and on to what comes after it. -/
def Follows (p : Program) (limit d : Nat) (t : Tally) (t' : Tally) (r : Executing RuntimeValue) :
    Task → Prop
  | .execute f => ∀ m : Machine, m.callers.length + 1 = d → m.calls = t.calls →
      m.continueWith f >>= proceed p limit (limit - t.executed) =
        r >>= fun a => { m with calls := t'.calls }.leave a >>=
          proceed p limit (limit - t'.executed)
  | .invoke target arguments => ∀ (m : Machine) (f : Frame) (out : Option ValueId),
      m.callers.length + 1 = d → m.calls = t.calls →
        m.call p f out target arguments >>= proceed p limit (limit - t.executed) =
          r >>= fun a => { m with calls := t'.calls }.resume f out a >>=
            proceed p limit (limit - t'.executed)

theorem continueWith_first {m : Machine} {c : Body} {x : Block} {arguments : List RuntimeValue}
    (hentry : c.block c.entry = .ok x) :
    m.continueWith (Frame.first c x arguments) =
      Frame.start c arguments >>= fun frame => .ok (.running { m with frame }) := by
  rw [continueWith, Frame.settle_eq_expectRest rfl, Frame.start, hentry]
  rfl

/-- As long as the limit leaves an instruction, a run executes the one its frame comes to. -/
theorem continueWith_proceed {m : Machine} {f : Frame} (hrest : f.rest ≠ [])
    (hlimit : t.executed < limit) :
    m.continueWith f >>= proceed p limit (limit - t.executed) =
      f.fetch p >>= fun action => { m with frame := f }.carryOut p action >>=
        proceed p limit (limit - t.tick.executed) := by
  have hleft : limit - t.executed = limit - t.tick.executed + 1 := by
    simp only [Tally.tick]
    omega
  rw [continueWith_of_rest hrest, ok_bind, proceed, hleft, run_succ, step_eq_fetch, bind_assoc]

theorem follows_of_runs (h : Runs p limit d t task t' r) : Follows p limit d t t' r task := by
  induction h with
  | stop hrest hturn =>
    intro m _ _
    simp [continueWith, Frame.settle_eq_turn hrest, hturn]
  | turn hrest hturn _ ih =>
    intro m hd hcalls
    rw [← ih m hd hcalls, continueWith, continueWith, Frame.settle_eq_turn hrest, hturn, ok_bind]
  | exceed hrest hlimit =>
    intro m _ _
    rw [continueWith_of_rest hrest, ok_bind, Nat.sub_eq_zero_of_le hlimit]
    rfl
  | fail hrest hlimit hfetch =>
    intro m _ _
    rw [continueWith_proceed hrest hlimit, hfetch]
    rfl
  | go hrest hlimit hfetch _ ih =>
    intro m hd hcalls
    rw [continueWith_proceed hrest hlimit, hfetch, ok_bind]
    exact ih { m with frame := _ } hd hcalls
  | leave hrest hlimit hfetch =>
    intro m _ hcalls
    rw [continueWith_proceed hrest hlimit, hfetch, ok_bind, ok_bind]
    cases m
    cases hcalls
    rfl
  | abort hrest hlimit hfetch _ ih =>
    intro m hd hcalls
    rw [continueWith_proceed hrest hlimit, hfetch, ok_bind]
    exact ih { m with frame := _ } _ _ hd hcalls
  | @call d t t₁ t' f g out target arguments a r hrest hlimit hfetch _ _ ih ih' =>
    intro m hd hcalls
    rw [continueWith_proceed hrest hlimit, hfetch, ok_bind]
    have hcall := ih { m with frame := f } g out hd hcalls
    have hgo := ih' { m with frame := f, calls := t₁.calls } hd rfl
    exact hcall.trans hgo
  | leaf hbody =>
    intro m f out _ hcalls
    rw [call, hbody, hcalls]
    rfl
  | deep hbody hdepth =>
    intro m f out hd _
    rw [← hd] at hdepth
    simp only [call, hbody, if_pos hdepth]
    rfl
  | missing hbody hdepth hentry =>
    intro m f out hd _
    rw [← hd] at hdepth
    simp [call, hbody, if_neg (Nat.not_le.2 hdepth), Frame.start, Executing.ofBody, hentry,
      Except.mapError]
  | @enter d t t' target arguments c x r hbody hdepth hentry _ ih =>
    intro m f out hd hcalls
    rw [← hd] at hdepth
    have hgo := ih { m with callers := (f, out) :: m.callers, calls := target :: m.calls }
      (by rw [← hd]; rfl) (congrArg (target :: ·) hcalls)
    rw [continueWith_first hentry] at hgo
    simp only [call, hbody, if_neg (Nat.not_le.2 hdepth)]
    exact hgo

/-- A step leaves no more bodies around than the machine may have. -/
theorem length_callers_of_steps {m m' : Machine} (hm : m.callers.length < maxDepth)
    (hstep : Steps p m m') : m'.callers.length < maxDepth := by
  have hcontinue : ∀ {m m' : Machine} {f : Frame}, m.continueWith f = .ok (.running m') →
      m'.callers = m.callers := by
    intro m m' f hrun
    obtain ⟨g, -, hrun⟩ := bind_eq_ok.1 hrun
    obtain rfl := Progress.running.inj (Except.ok.inj hrun)
    rfl
  rw [Steps, step_eq_fetch] at hstep
  obtain ⟨action, -, hstep⟩ := bind_eq_ok.1 hstep
  cases action with
  | go f =>
    rw [hcontinue hstep]
    exact hm
  | leave a =>
    simp only [carryOut, leave] at hstep
    split at hstep
    · cases hstep
    · rename_i f out callers hcallers
      rw [hcontinue hstep]
      rw [hcallers] at hm
      exact Nat.lt_of_succ_lt hm
  | call f out target arguments =>
    simp only [carryOut, call] at hstep
    split at hstep
    · rw [hcontinue hstep]
      exact hm
    · split at hstep
      · cases hstep
      · rename_i hdepth
        obtain ⟨frame, -, hstep⟩ := bind_eq_ok.1 hstep
        obtain rfl := Progress.running.inj (Except.ok.inj hstep)
        exact Nat.lt_of_not_le hdepth

end Machine

namespace Program

variable {p : Program} {limit : Nat} {method : MethodRef} {arguments : List RuntimeValue}
  {t : Tally} {r : Executing RuntimeValue}

theorem callsOf_of_runs (h : Runs p limit 0 {} (.invoke method arguments) t r) :
    p.callsOf limit method arguments = r >>= fun _ => .ok t.calls.reverse := by
  cases h with
  | leaf hbody => simp [callsOf, hbody, Tally.note]
  | deep _ hdepth => exact absurd hdepth (by decide)
  | missing hbody _ hentry =>
    simp [callsOf, hbody, Frame.start, Executing.ofBody, hentry, Except.mapError]
  | @enter _ _ _ _ _ c x _ hbody _ hentry hgo =>
    have hrun := Machine.follows_of_runs hgo
      { frame := Frame.first c x arguments, calls := [method] } rfl rfl
    rw [Machine.continueWith_first hentry] at hrun
    have hreverse := congrArg (· >>= fun calls => .ok calls.reverse) hrun
    simp only [bind_assoc, ok_bind] at hreverse
    simp only [callsOf, hbody]
    exact hreverse

/-- Every run ends, in one way, and the trace says how. It executes at most as many instructions as
its limit allows, and reports the limit after exactly that many. At no time are more than 256 bodies
active. A run that does not report its limit ends with the same result under every larger limit. -/
theorem traceOf_ends (p : Program) (limit : Nat) (method : MethodRef)
    (arguments : List RuntimeValue) :
    (∃ t r, Runs p limit 0 {} (.invoke method arguments) t r ∧
      (∀ t' r', Runs p limit 0 {} (.invoke method arguments) t' r' → t' = t ∧ r' = r) ∧
      (p.traceOf limit method arguments =
        r >>= fun _ => .ok (t.calls.reverse.map (·.qualifiedName))) ∧
      t.executed ≤ limit ∧
      ∀ n, r = .error (.stepLimit n) → n = limit ∧ t.executed = limit) ∧
    (∀ c frame m, p.body? method = some c → Frame.start c arguments = .ok frame →
      ReflTransGen (Machine.Steps p) { frame, calls := [method] } m → m.callers.length + 1 ≤ 256) ∧
    ∀ limit', limit ≤ limit' → p.traceOf limit method arguments ≠ .error (.stepLimit limit) →
      p.traceOf limit' method arguments = p.traceOf limit method arguments := by
  have htrace : ∀ {limit t r}, Runs p limit 0 {} (.invoke method arguments) t r →
      p.traceOf limit method arguments =
        r >>= fun _ => .ok (t.calls.reverse.map (·.qualifiedName)) := by
    intro limit t r h
    rw [traceOf, callsOf_of_runs h, bind_assoc]
    rfl
  obtain ⟨t, r, h⟩ := Runs.exists_runs p limit 0 {} (.invoke method arguments)
  refine ⟨⟨t, r, h, fun t' r' h' => h.functional h', htrace h, ?_, ?_⟩, ?_, ?_⟩
  · exact h.executed_le_limit (Nat.zero_le limit)
  · rintro n rfl
    exact h.executed_eq_limit (Nat.zero_le limit)
  · intro c frame m _ _ hsteps
    have hdepth : m.callers.length < Machine.maxDepth := by
      induction hsteps with
      | refl => exact Nat.zero_lt_succ 255
      | tail _ hstep ih => exact Machine.length_callers_of_steps ih hstep
    exact hdepth
  · intro limit' hle hne
    rw [htrace h] at hne
    have hr : r ≠ .error (.stepLimit limit) := by
      rintro rfl
      exact hne rfl
    rw [htrace h, htrace (h.mono hr hle)]

/-- A method that calls itself and then loops forever. -/
def callingItself : List DraftStep :=
  [.newBlock, .argument (.ofClass "A" .maybe), .call ⟨0⟩ .virtual (.plain "A" "f") [⟨0⟩],
    .goto ⟨0⟩ ⟨1⟩, .goto ⟨1⟩ ⟨1⟩]

def ofRecursion (c : Body) : Program where
  hierarchy := { defined := [{ name := "A", methods := [{ signature := { name := "f" } }] }] }
  entry := .plain "A" "f"
  bodies := [c]

/-- Each body executes two instructions before it calls the next one, so there are 256 of them
around the call that fails. -/
theorem traceOf_ends_callingItself :
    ∃ made c, Body.ofSteps (.plain "A" "f") callingItself = .ok (made, c) ∧
      (∃ t, Runs (ofRecursion c) 7 0 {} (.invoke (.plain "A" "f") [.object "A"]) t
        (.error (.stepLimit 7)) ∧ t.executed = 7) ∧
      ∀ limit, 512 ≤ limit →
        (ofRecursion c).traceOf limit (.plain "A" "f") [.object "A"] = .error .callDepth := by
  obtain ⟨made, c, hwritten, hshort, hdeep⟩ :
      ∃ made c, Body.ofSteps (.plain "A" "f") callingItself = .ok (made, c) ∧
        (ofRecursion c).traceOf 7 (.plain "A" "f") [.object "A"] = .error (.stepLimit 7) ∧
        (ofRecursion c).traceOf 512 (.plain "A" "f") [.object "A"] = .error .callDepth := by
    decide +kernel
  refine ⟨made, c, hwritten, ?_, fun limit hlimit => ?_⟩
  · obtain ⟨⟨t, r, hruns, -, htrace, -, hlimit⟩, -⟩ :=
      traceOf_ends (ofRecursion c) 7 (.plain "A" "f") [.object "A"]
    rw [hshort] at htrace
    cases r with
    | ok a => cases htrace
    | error e =>
      obtain rfl := Except.error.inj htrace
      exact ⟨t, hruns, (hlimit 7 rfl).2⟩
  · obtain ⟨-, -, hsame⟩ := traceOf_ends (ofRecursion c) 512 (.plain "A" "f") [.object "A"]
    rw [hsame limit hlimit (by simp [hdeep]), hdeep]

end Program

end Devirt
