import Devirt.Execution.Machine
import Devirt.Proofs.Body.Store

/-!
What frames and machines do, case by case: how a frame reads and writes values and enters blocks, the
effect that an operation has in a frame, and how a step executes the next operation.
-/

namespace Devirt

variable {p : Program} {h : Hierarchy} {f : Frame} {m : Machine}

/-! ### Reading and writing -/

namespace Frame

variable {f g : Frame} {u v : ValueId} {a : RuntimeValue} {l : List (ValueId × RuntimeValue)}

private theorem lookup_filter_ne (l : List (ValueId × RuntimeValue)) (huv : u ≠ v) :
    (l.filter (·.1 ≠ v)).lookup u = l.lookup u := by
  induction l with
  | nil => rfl
  | cons e l ih =>
    obtain ⟨w, a⟩ := e
    by_cases hwv : w = v
    · rw [List.filter_cons_of_neg (by simpa using hwv), ih, List.lookup_cons,
        beq_false_of_ne (hwv ▸ huv)]
    · rw [List.filter_cons_of_pos (by simpa using hwv), List.lookup_cons, List.lookup_cons, ih]

theorem read_write : (f.write v a).read u = if u = v then .ok a else f.read u := by
  unfold read write
  by_cases huv : u = v
  · simp [huv]
  · simp only [List.lookup_cons, beq_false_of_ne huv, lookup_filter_ne f.values huv, if_neg huv]

/-- The frame `g` holds the listed values, and everything else as `f` does. -/
structure Writes (l : List (ValueId × RuntimeValue)) (f g : Frame) : Prop where
  mem : ∀ {v a}, (v, a) ∈ l → g.read v = .ok a
  other : ∀ {v}, (∀ a, (v, a) ∉ l) → g.read v = f.read v

/-- What a call returns goes to the value that takes it, if there is one. -/
def put (f : Frame) (out : Option ValueId) (a : RuntimeValue) : Frame :=
  match out with
  | some v => f.write v a
  | none => f

theorem writes_put {out : Option ValueId} : Writes (out.toList.map (·, a)) f (f.put out a) := by
  cases out with
  | none => exact ⟨by simp, fun _ => rfl⟩
  | some v =>
    constructor
    · intro u x hmem
      obtain ⟨rfl, rfl⟩ : u = v ∧ x = a := by simpa using hmem
      exact read_write.trans (if_pos rfl)
    · intro u hnot
      have huv : u ≠ v := by
        rintro rfl
        exact hnot a (by simp)
      exact read_write.trans (if_neg huv)

theorem writes_writeAll (hl : (l.map (·.1)).Nodup) : Writes l f (f.writeAll l) := by
  induction l generalizing f with
  | nil => exact ⟨by simp, fun _ => rfl⟩
  | cons e l ih =>
    obtain ⟨v, a⟩ := e
    obtain ⟨hv, hl⟩ := List.nodup_cons.1 hl
    have hrest : Writes l (f.write v a) ((f.write v a).writeAll l) := ih hl
    constructor
    · intro u x hmem
      rcases List.mem_cons.1 hmem with heq | hmem
      · obtain ⟨rfl, rfl⟩ := Prod.mk.inj heq
        have hnot : ∀ b, (u, b) ∉ l := fun b hb => hv (List.mem_map.2 ⟨_, hb, rfl⟩)
        exact (hrest.other hnot).trans (read_write.trans (if_pos rfl))
      · exact hrest.mem hmem
    · intro u hnot
      have huv : u ≠ v := by
        rintro rfl
        exact hnot a List.mem_cons_self
      have hnot' : ∀ b, (u, b) ∉ l := fun b hb => hnot b (List.mem_cons_of_mem _ hb)
      exact (hrest.other hnot').trans (read_write.trans (if_neg huv))

end Frame

/-! ### Entering blocks -/

namespace Frame

variable {f g : Frame} {b : BlockId} {a : RuntimeValue} {v : ValueId} {edge : Nat} {phi : Phi}

/-- The frame writes the listed values and stays in its block. -/
structure Updates (l : List (ValueId × RuntimeValue)) (f g : Frame) : Prop extends Writes l f g where
  body : g.body = f.body
  arguments : g.arguments = f.arguments
  block : g.block = f.block

theorem updates_put {out : Option ValueId} {rest : List InstrId} {next : Option BlockId} :
    Updates (out.toList.map (·, a)) f ({ f with rest, next }.put out a) := by
  have hwrites : Writes (out.toList.map (·, a)) { f with rest, next }
      ({ f with rest, next }.put out a) := writes_put
  cases out with
  | none => exact ⟨⟨hwrites.mem, hwrites.other⟩, rfl, rfl, rfl⟩
  | some v => exact ⟨⟨hwrites.mem, hwrites.other⟩, rfl, rfl, rfl⟩

theorem updates_self : Updates [] f f := ⟨⟨by simp, fun _ => rfl⟩, rfl, rfl, rfl⟩

@[simp] theorem rest_put {out : Option ValueId} : (f.put out a).rest = f.rest := by
  cases out <;> rfl

theorem writeAll_frame (l : List (ValueId × RuntimeValue)) :
    (f.writeAll l).body = f.body ∧ (f.writeAll l).arguments = f.arguments := by
  induction l generalizing f with
  | nil => exact ⟨rfl, rfl⟩
  | cons e l ih => exact ih

theorem readPhi_eq_ok :
    f.readPhi edge phi = .ok (v, a) ↔
      ∃ w, phi.operands[edge]? = some w ∧ f.read w = .ok a ∧ phi.out = v := by
  unfold readPhi
  cases phi.operands[edge]? <;> simp

theorem keys_of_readPhi {phis : List Phi} {inputs : List (ValueId × RuntimeValue)}
    (hinputs : phis.mapM (f.readPhi edge) = .ok inputs) :
    inputs.map (·.1) = phis.map (·.out) := by
  replace hinputs := mapM_eq_ok.1 hinputs
  induction hinputs with
  | nil => rfl
  | cons hread _ ih =>
    obtain ⟨-, -, -, hout⟩ := readPhi_eq_ok.1 hread
    rw [List.map_cons, List.map_cons, ih, hout]

/-- On an edge, control enters a block with what its phis read. -/
theorem enter_eq_ok {x : Block} (hx : f.body.block b = .ok x)
    (hedge : x.predecessors.idxOf? f.block = some edge) :
    f.enter b = .ok g ↔ ∃ inputs, x.phis.mapM (f.readPhi edge) = .ok inputs ∧
      { f.writeAll inputs with block := b, rest := x.instructions, next := none } = g := by
  simp [enter, Executing.ofBody, hx, hedge, Except.mapError]

private theorem writeAll_with (l : List (ValueId × RuntimeValue)) (rest : List InstrId)
    (next : Option BlockId) :
    { f with rest, next }.writeAll l = { f.writeAll l with rest, next } := by
  induction l generalizing f with
  | nil => rfl
  | cons e l ih => exact @ih (f.write e.1 e.2)

/-- How a frame enters a block does not depend on what it has left in the last one. -/
theorem enter_with (rest : List InstrId) (next : Option BlockId) :
    { f with rest, next }.enter b = f.enter b := by
  unfold enter
  simp only [writeAll_with]
  rfl

theorem settle_of_rest (hrest : f.rest ≠ []) : f.settle = .ok f := by
  simp [settle, hrest]

theorem expectRest_eq_ok : f.expectRest = .ok g ↔ f.rest ≠ [] ∧ f = g := by
  unfold expectRest
  split <;> simp_all

theorem settle_jump : { f with rest := [], next := some b }.settle = .ok g ↔
    f.enter b = .ok g ∧ g.rest ≠ [] := by
  simp only [settle, enter_with, List.isEmpty_nil, if_true, bind_eq_ok, expectRest_eq_ok]
  constructor
  · rintro ⟨g', henter, hne, rfl⟩
    exact ⟨henter, hne⟩
  · rintro ⟨henter, hne⟩
    exact ⟨g, henter, hne, rfl⟩

end Frame

/-! ### What operations do -/

/-- What an operation that is not a call does to the machine. -/
inductive Effect where
  | write (v : ValueId) (a : RuntimeValue)
  | jump (target : BlockId)
  | leave (result : RuntimeValue)

/-- The effect of an operation that is not a call, in the frame `f`. -/
def Operation.effect (h : Hierarchy) (f : Frame) : Operation → Executing Effect
  | .argument out index => return .write out (f.arguments[index]?.getD .null)
  | .number out value => return .write out (.int value)
  | .null out => return .write out .null
  | .create out name => return .write out (.object name)
  | .cast out object name => do
    let x ← f.read object
    match x with
    | .object source =>
      if h.isSubtype source name then return .write out x else .error (.badCast source name)
    | _ => return .write out x
  | .assumeNonNull out source _ => do return .write out (← f.read source)
  | .goto target => return .jump target
  | .branch condition t e => do return .jump (if (← f.read condition).isTrue then t else e)
  | .ret none => return .leave .null
  | .ret (some v) => do return .leave (← f.read v)
  | .call _ | .throw _ => .error (.thrown f.body.method)

namespace Machine

def perform (m : Machine) (f : Frame) : Effect → Executing Progress
  | .write v a => m.continueWith (f.put (some v) a)
  | .jump target => m.continueWith { f with next := some target }
  | .leave result => m.leave result

theorem execute_eq_perform {op : Operation} (hop : ∀ call, op ≠ .call call) :
    m.execute p f op = op.effect p.hierarchy f >>= m.perform f := by
  cases op with
  | call call => exact absurd rfl (hop call)
  | cast out object name =>
    cases hread : f.read object with
    | error e => simp [execute, Operation.effect, hread]
    | ok x =>
      cases x with
      | object source =>
        cases hsub : p.hierarchy.isSubtype source name <;>
          simp [execute, Operation.effect, perform, Frame.put, hread, hsub]
      | _ => simp [execute, Operation.effect, perform, Frame.put, hread]
  | assumeNonNull out source origin =>
    cases hread : f.read source <;> simp [execute, Operation.effect, perform, Frame.put, hread]
  | branch condition t e =>
    cases hread : f.read condition <;> simp [execute, Operation.effect, perform, hread]
  | ret value =>
    cases value with
    | none => rfl
    | some v => cases hread : f.read v <;> simp [execute, Operation.effect, perform, hread]
  | _ => rfl

end Machine

namespace Operation

variable {op op₀ : Operation} {e : Effect}

theorem effect_cast {out object : ValueId} {name : TypeName} :
    (Operation.cast out object name).effect h f = .ok e ↔
      ∃ a, f.read object = .ok a ∧ (∀ C, a = .object C → h.isSubtype C name = true) ∧
        .write out a = e := by
  cases hread : f.read object with
  | error _ => simp [effect, hread]
  | ok a =>
    cases a with
    | object C => cases hsub : h.isSubtype C name <;> simp [effect, hread, hsub]
    | _ => simp [effect, hread]

/-- The operation is of a kind that has such effects. -/
def Has (op : Operation) : Effect → Prop
  | .write v _ => op.out? = some v ∧ op.isTerminator = false
  | .jump t => op.out? = none ∧ op.isTerminator = true ∧ t ∈ op.targets
  | .leave _ => True

theorem has_of_effect (he : op.effect h f = .ok e) : op.Has e := by
  cases op with
  | cast out object name =>
    obtain ⟨a, -, -, rfl⟩ := effect_cast.1 he
    exact ⟨rfl, rfl⟩
  | assumeNonNull out source origin =>
    obtain ⟨a, -, he⟩ := bind_eq_ok.1 he
    obtain rfl := Except.ok.inj he
    exact ⟨rfl, rfl⟩
  | branch condition t e' =>
    obtain ⟨a, -, he⟩ := bind_eq_ok.1 he
    obtain rfl := Except.ok.inj he
    refine ⟨rfl, rfl, ?_⟩
    split <;> simp [targets]
  | goto t =>
    obtain rfl := Except.ok.inj he
    exact ⟨rfl, rfl, by simp [targets]⟩
  | ret value =>
    cases value with
    | none =>
      obtain rfl := Except.ok.inj he
      trivial
    | some v =>
      obtain ⟨a, -, he⟩ := bind_eq_ok.1 he
      obtain rfl := Except.ok.inj he
      trivial
  | call _ => cases he
  | throw _ => cases he
  | _ =>
    obtain rfl := Except.ok.inj he
    exact ⟨rfl, rfl⟩

end Operation

/-! ### Steps -/

namespace Machine

variable {i : InstrId} {rest : List InstrId} {op : Operation} {progress : Progress}

theorem step_eq_execute (hrest : m.frame.rest = i :: rest)
    (hop : m.frame.body.operation i = .ok op) :
    m.step p = m.execute p { m.frame with rest } op := by
  simp [step, hrest, hop, Executing.ofBody, Except.mapError]

theorem exists_execute (hstep : m.step p = .ok progress) :
    ∃ i rest op, m.frame.rest = i :: rest ∧ m.frame.body.operation i = .ok op ∧
      m.execute p { m.frame with rest } op = .ok progress := by
  unfold step at hstep
  split at hstep
  · cases hstep
  · rename_i i rest hrest
    obtain ⟨op, hop, hexecute⟩ := bind_eq_ok.1 hstep
    exact ⟨i, rest, op, hrest, mapError_eq_ok.1 hop, hexecute⟩

theorem continueWith_of_rest (hrest : f.rest ≠ []) :
    m.continueWith f = .ok (.running { m with frame := f }) := by
  simp [continueWith, Frame.settle_of_rest hrest]

end Machine

end Devirt
