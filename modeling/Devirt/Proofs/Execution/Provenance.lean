import Devirt.Proofs.Body.Checked
import Devirt.Proofs.Body.Records
import Devirt.Proofs.Body.Ways
import Devirt.Proofs.Execution.Steps

/-!
Where the values of a run come from. In a body without violations each value has one definition, so
what a frame holds for the output of a cast, a non-null assumption or a phi has been passed on: some
frame of the same body holds it in the same run as an operand of that definition.
-/

namespace Devirt

namespace Body

variable {c : Body} {i j : InstrId} {b : BlockId} {v : ValueId} {phi : Phi}

/-! ### One definition for each value -/

section Valid

variable (hc : c.Grounded) (hvalid : c.violations = .ok [])
include hc hvalid

theorem eq_of_sites_of_valid {s s' : DefinitionSite} (hs : c.Sites s) (hs' : c.Sites s')
    (hvalue : s.value = s'.value) : s = s' := by
  obtain ⟨t, ht⟩ := hc.exists_dominators
  obtain ⟨sites, hsites, hmem⟩ := exists_definitionSites hc.toArranged
  obtain ⟨placed, hplaced, -⟩ := hc.exists_placed
  have hnodup := (DefinitionSite.violations_eq_nil.1
    ((violations_eq_nil hc.toArranged ht hsites hplaced).1 hvalid).1).1
  exact List.inj_on_of_nodup_map hnodup ((hmem s).2 hs) ((hmem s').2 hs') hvalue

/-- A body without violations defines each value once, whatever its values say of that. -/
theorem singleAssignment_of_valid : c.SingleAssignment := by
  have hplace : ∀ {i v}, c.Outputs i v → ∃ b x, ∃ n : Nat, c.block b = .ok x ∧
      x.instructions[n]? = some i ∧ c.Sites ⟨v, b, some n, none⟩ := by
    intro i v hi
    obtain ⟨op, hop, -⟩ := id hi
    obtain ⟨b, x, -, hx, hmem⟩ := hc.exists_place hop
    obtain ⟨n, hn⟩ := List.mem_iff_getElem?.1 hmem
    exact ⟨b, x, n, hx, hn, .inr ⟨x, i, n, hx, hn, hi, rfl, rfl⟩⟩
  constructor
  · intro i j v hi hj
    obtain ⟨b, x, n, hx, hn, hs⟩ := hplace hi
    obtain ⟨b', x', n', hx', hn', hs'⟩ := hplace hj
    have heq := eq_of_sites_of_valid hc hvalid hs hs' rfl
    simp only [DefinitionSite.mk.injEq, Option.some.injEq, true_and, and_true] at heq
    obtain ⟨rfl, rfl⟩ := heq
    obtain rfl := Except.ok.inj (hx.symm.trans hx')
    exact Option.some.inj (hn.symm.trans hn')
  · intro b phi i hphi hi
    obtain ⟨y, hy, hmem⟩ := hphi
    obtain ⟨b', x, n, -, -, hs⟩ := hplace hi
    have hs' : c.Sites ⟨phi.out, b, none, some (phi.operands.length, y.predecessors.length)⟩ :=
      .inl ⟨y, phi, hy, hmem, rfl, rfl, rfl⟩
    have heq := eq_of_sites_of_valid hc hvalid hs hs' rfl
    simp at heq

end Valid

end Body

/-! ### What frames hold -/

namespace Frame

variable {f g : Frame} {u v : ValueId} {a x : RuntimeValue} {b : BlockId}
  {l : List (ValueId × RuntimeValue)}

/-- The frame holds this for the value. -/
def Holds (f : Frame) (v : ValueId) (x : RuntimeValue) : Prop := (v, x) ∈ f.values

theorem holds_of_read (hread : f.read v = .ok x) : f.Holds v x := by
  unfold read at hread
  split at hread
  · rename_i y hlookup
    obtain rfl := Except.ok.inj hread
    obtain ⟨l, l', heq, -⟩ := List.lookup_eq_some_iff.1 hlookup
    unfold Holds
    rw [heq]
    simp
  · cases hread

theorem holds_write : (f.write v a).Holds u x ↔ u = v ∧ x = a ∨ f.Holds u x ∧ u ≠ v := by
  unfold Holds write
  simp

theorem holds_put {out : Option ValueId} :
    (f.put out a).Holds u x ↔ out = some u ∧ x = a ∨ f.Holds u x ∧ out ≠ some u := by
  cases out with
  | none => simp [put]
  | some v => simp [put, holds_write, eq_comm]

@[simp] theorem body_put {out : Option ValueId} : (f.put out a).body = f.body := by
  cases out <;> rfl

theorem holds_or_mem_of_writeAll (hg : (f.writeAll l).Holds u x) : (u, x) ∈ l ∨ f.Holds u x := by
  induction l generalizing f with
  | nil => exact .inr hg
  | cons e l ih =>
    rcases ih hg with hmem | hwrite
    · exact .inl (List.mem_cons_of_mem e hmem)
    · rcases holds_write.1 hwrite with ⟨rfl, rfl⟩ | ⟨hold, -⟩
      · exact .inl List.mem_cons_self
      · exact .inr hold

theorem Holds.writeAll (hf : f.Holds u x) (hnot : ∀ a, (u, a) ∉ l) : (f.writeAll l).Holds u x := by
  induction l generalizing f with
  | nil => exact hf
  | cons e l ih =>
    apply ih
    · refine holds_write.2 (.inr ⟨hf, ?_⟩)
      rintro rfl
      exact hnot e.2 List.mem_cons_self
    · exact fun a ha => hnot a (List.mem_cons_of_mem e ha)

/-- A block is entered with what its phis read. -/
theorem enter_cases (henter : f.enter b = .ok g) :
    g.body = f.body ∧ ∃ inputs, g.values = (f.writeAll inputs).values ∧
      ∀ u x, (u, x) ∈ inputs → ∃ phi o, f.body.HasPhi b phi ∧ phi.out = u ∧ o ∈ phi.operands ∧
        f.read o = .ok x := by
  unfold enter at henter
  obtain ⟨y, hy, hg⟩ := bind_eq_ok.1 henter
  dsimp only at hg
  split at hg
  · rename_i edge hedge
    obtain ⟨inputs, hinputs, hg⟩ := bind_eq_ok.1 hg
    obtain rfl := Except.ok.inj hg
    refine ⟨(writeAll_frame inputs).1, inputs, rfl, fun u x hmem => ?_⟩
    obtain ⟨phi, hphi, hread⟩ := (mem_of_mapM_eq_ok hinputs).1 hmem
    obtain ⟨o, ho, hread, hout⟩ := readPhi_eq_ok.1 hread
    exact ⟨phi, o, ⟨y, mapError_eq_ok.1 hy, hphi⟩, hout, List.mem_of_getElem? ho, hread⟩
  · obtain rfl := Except.ok.inj hg
    exact ⟨rfl, [], rfl, by simp⟩

/-- Control goes on in the same block, or it enters another one. -/
theorem settle_cases (hsettle : f.settle = .ok g) :
    g.body = f.body ∧ ∃ inputs, g.values = (f.writeAll inputs).values ∧
      ∀ u x, (u, x) ∈ inputs → ∃ b phi o, f.body.HasPhi b phi ∧ phi.out = u ∧ o ∈ phi.operands ∧
        f.read o = .ok x := by
  unfold settle at hsettle
  split at hsettle
  · split at hsettle
    · rename_i b hnext
      obtain ⟨g', henter, hrest⟩ := bind_eq_ok.1 hsettle
      obtain ⟨-, rfl⟩ := expectRest_eq_ok.1 hrest
      obtain ⟨hbody, inputs, hvalues, hinputs⟩ := enter_cases henter
      exact ⟨hbody, inputs, hvalues, fun u x hmem => ⟨b, hinputs u x hmem⟩⟩
    · cases hsettle
  · obtain rfl := Except.ok.inj hsettle
    exact ⟨rfl, [], rfl, by simp⟩

end Frame

namespace Machine

/-- The active frames, the current one first. -/
def frames (m : Machine) : List Frame := m.frame :: m.callers.map (·.1)

/-- A frame of the body holds this for the value. -/
def Holds (c : Body) (m : Machine) (v : ValueId) (x : RuntimeValue) : Prop :=
  ∃ f ∈ m.frames, f.body = c ∧ f.Holds v x

end Machine

/-! ### Explained values -/

/-- No number. -/
def RuntimeValue.isReference : RuntimeValue → Bool
  | .int _ => false
  | .null | .object _ => true

/-- A definition that passes a value on has it from an operand, and has made sure of what it is
there for. -/
structure Body.Explains (h : Hierarchy) (held : ValueId → RuntimeValue → Prop) (c : Body)
    (v : ValueId) (x : RuntimeValue) : Prop where
  cast : ∀ {i object name}, c.operation i = .ok (.cast v object name) →
    held object x ∧ x.isReference = true ∧ ∀ C, x = .object C → h.isSubtype C name = true
  assumeNonNull : ∀ {i source origin}, c.operation i = .ok (.assumeNonNull v source origin) →
    held source x ∧ x ≠ .null
  phi : ∀ {b phi}, c.HasPhi b phi → phi.out = v → ∃ o ∈ phi.operands, held o x

/-- The operation is no cast of a number and no non-null assumption on null. -/
def Operation.Sane (f : Frame) : Operation → Prop
  | .cast _ object _ => ∀ x, f.read object = .ok x → x.isReference = true
  | .assumeNonNull _ source _ => ∀ x, f.read source = .ok x → x ≠ .null
  | _ => True

instance decidableSane (f : Frame) : (op : Operation) → Decidable (op.Sane f)
  | .cast _ object _ => inferInstanceAs (Decidable (∀ x, f.read object = .ok x → _))
  | .assumeNonNull _ source _ => inferInstanceAs (Decidable (∀ x, f.read source = .ok x → _))
  | .argument .. | .number .. | .null .. | .create .. | .call .. | .goto .. | .branch .. | .ret ..
  | .throw .. => isTrue trivial

/-- In a frame of the body, the next operation is sane. -/
def Machine.Sane (c : Body) (m : Machine) : Prop :=
  m.frame.body = c → ∀ i ∈ m.frame.rest.head?, ∀ op, c.operation i = .ok op → op.Sane m.frame

instance decidableMachineSane (c : Body) (m : Machine) : Decidable (m.Sane c) :=
  inferInstanceAs (Decidable (m.frame.body = c → ∀ i ∈ m.frame.rest.head?, _))

/-- What a frame of the body holds is explained. -/
def Frame.Explained (h : Hierarchy) (held : ValueId → RuntimeValue → Prop) (c : Body)
    (f : Frame) : Prop :=
  f.body = c → ∀ v x, f.Holds v x → c.Explains h held v x

/-- The value takes the result of a call. -/
def Body.TakesResult (c : Body) (v : ValueId) : Prop :=
  ∃ i call, c.operation i = .ok (.call call) ∧ call.out = some v

/-- What a waiting frame of the body holds is explained, and it waits for a call to return. -/
def Frame.ExplainedWaiting (h : Hierarchy) (held : ValueId → RuntimeValue → Prop) (c : Body)
    (q : Frame × Option ValueId) : Prop :=
  q.1.Explained h held c ∧ (q.1.body = c → ∀ v ∈ q.2, c.TakesResult v)

structure Machine.Explained (h : Hierarchy) (held : ValueId → RuntimeValue → Prop) (c : Body)
    (m : Machine) : Prop where
  frame : m.frame.Explained h held c
  callers : ∀ q ∈ m.callers, Frame.ExplainedWaiting h held c q

section Explained

variable {p : Program} {h : Hierarchy} {held : ValueId → RuntimeValue → Prop} {c : Body}
  {i : InstrId} {v : ValueId} {a : RuntimeValue} {f g : Frame} {op : Operation}
  {out : Option ValueId} {m m' : Machine}

/-- Whatever else outputs the value is the same operation. -/
theorem Body.SingleAssignment.operation_eq (hS : c.SingleAssignment) {j : InstrId} {op' : Operation}
    (hop : c.operation i = .ok op) (hout : op.out? = some v) (hop' : c.operation j = .ok op')
    (hout' : op'.out? = some v) : op' = op := by
  obtain rfl := hS.outputs ⟨op', hop', hout'⟩ ⟨op, hop, hout⟩
  exact Except.ok.inj (hop'.symm.trans hop)

/-- The effect of an operation on its output is explained by what the frame holds. -/
theorem Body.SingleAssignment.explains_of_effect (hS : c.SingleAssignment)
    (hop : c.operation i = .ok op) (heffect : op.effect h f = .ok (.write v a))
    (hheld : ∀ u x, f.Holds u x → held u x) (hsane : op.Sane f) : c.Explains h held v a := by
  have hout : op.out? = some v := (Operation.has_of_effect heffect).1
  constructor
  · intro j object name hcast
    obtain rfl := hS.operation_eq hop hout hcast rfl
    obtain ⟨x, hread, hsub, heq⟩ := Operation.effect_cast.1 heffect
    obtain rfl : x = a := by simpa using heq
    exact ⟨hheld _ _ (Frame.holds_of_read hread), hsane x hread, hsub⟩
  · intro j source origin hassume
    obtain rfl := hS.operation_eq hop hout hassume rfl
    obtain ⟨x, hread, heq⟩ := bind_eq_ok.1 heffect
    obtain rfl : x = a := by simpa using heq
    exact ⟨hheld _ _ (Frame.holds_of_read hread), hsane x hread⟩
  · intro b phi hphi hphiOut
    exact absurd ⟨op, hop, hphiOut ▸ hout⟩ (hS.outputs_phi hphi)

/-- The result of a call is passed on by no definition. -/
theorem Body.SingleAssignment.explains_of_takesResult (hS : c.SingleAssignment)
    (hv : c.TakesResult v) : c.Explains h held v a := by
  obtain ⟨i, call, hop, hout⟩ := hv
  constructor
  · intro j object name hcast
    cases hS.operation_eq hop hout hcast rfl
  · intro j source origin hassume
    cases hS.operation_eq hop hout hassume rfl
  · intro b phi hphi hphiOut
    exact absurd ⟨.call call, hop, hphiOut ▸ hout⟩ (hS.outputs_phi hphi)

/-- A frame that starts holds nothing. -/
theorem Frame.explained_of_start {d : Body} {arguments : List RuntimeValue}
    (hstart : Frame.start d arguments = .ok g) : g.Explained h held c := by
  obtain ⟨y, -, hg⟩ := bind_eq_ok.1 hstart
  obtain ⟨-, rfl⟩ := expectRest_eq_ok.1 hg
  exact fun _ v x hx => absurd hx List.not_mem_nil

section Settle

variable (hc : c.Recorded) (hS : c.SingleAssignment) (hbody : f.body = c)
  (hsettle : f.settle = .ok g)
include hS hbody hsettle

/-- What an instruction has put out is still there when control has gone on. -/
theorem Frame.Holds.settle (hf : f.Holds v a) (hout : c.Outputs i v) : g.Holds v a := by
  obtain ⟨-, inputs, hvalues, hinputs⟩ := settle_cases hsettle
  have hnot : ∀ x, (v, x) ∉ inputs := by
    intro x hmem
    obtain ⟨b, phi, o, hphi, hphiOut, -⟩ := hinputs v x hmem
    exact hS.outputs_phi (hbody ▸ hphi) (hphiOut ▸ hout)
  unfold Holds
  rw [hvalues]
  exact hf.writeAll hnot

include hc

/-- Going on writes only what phis read. -/
theorem Frame.explained_of_settle (hf : ∀ v x, f.Holds v x → held v x ∧ c.Explains h held v x) :
    g.Explained h held c := by
  obtain ⟨-, inputs, hvalues, hinputs⟩ := settle_cases hsettle
  intro _ v x hg
  unfold Holds at hg
  rw [hvalues] at hg
  rcases holds_or_mem_of_writeAll hg with hmem | hold
  · obtain ⟨b, phi, o, hphi, rfl, ho, hread⟩ := hinputs v x hmem
    rw [hbody] at hphi
    have hpassed : held o x := (hf o x (holds_of_read hread)).1
    constructor
    · intro j object name hcast
      exact absurd ⟨_, hcast, rfl⟩ (hS.outputs_phi hphi)
    · intro j source origin hassume
      exact absurd ⟨_, hassume, rfl⟩ (hS.outputs_phi hphi)
    · intro s q hq hout
      obtain ⟨-, rfl⟩ := hc.eq_of_out hq hphi hout
      exact ⟨o, ho, hpassed⟩
  · exact (hf v x hold).2

end Settle

theorem Machine.Explained.explains (hm : m.Explained h held c) (hv : m.Holds c v a) :
    c.Explains h held v a := by
  obtain ⟨f, hf, hbody, hfv⟩ := hv
  rcases List.mem_cons.1 hf with rfl | hf
  · exact hm.frame hbody v a hfv
  · obtain ⟨q, hq, rfl⟩ := List.mem_map.1 hf
    exact (hm.callers q hq).1 hbody v a hfv

namespace Machine

variable (hc : c.Recorded) (hS : c.SingleAssignment)
include hc hS

/-- A frame that goes on with a new value is explained if the new value is. -/
theorem explained_of_continueWith (f : Frame) (out : Option ValueId) (a : RuntimeValue)
    (hcallers : ∀ q ∈ m.callers, Frame.ExplainedWaiting h held c q) (hf : f.Explained h held c)
    (hheld : f.body = c → ∀ v x, f.Holds v x → held v x)
    (hout : f.body = c → ∀ v ∈ out, c.Explains h held v a ∧ ∃ i, c.Outputs i v)
    (hheld' : ∀ v x, m'.Holds c v x → held v x)
    (hrun : m.continueWith (f.put out a) = .ok (.running m')) : m'.Explained h held c := by
  obtain ⟨g, hsettle, heq⟩ := bind_eq_ok.1 hrun
  obtain rfl : { m with frame := g } = m' := by simpa using heq
  refine ⟨?_, hcallers⟩
  show g.Explained h held c
  intro hbody
  obtain ⟨hsame, -⟩ := Frame.settle_cases hsettle
  have hbody' : (f.put out a).body = c := hsame ▸ hbody
  rw [Frame.body_put] at hbody'
  apply Frame.explained_of_settle hc hS (by rwa [Frame.body_put]) hsettle _ hbody
  intro v x hput
  rcases Frame.holds_put.1 hput with ⟨hv, rfl⟩ | ⟨hold, -⟩
  · obtain ⟨hexplains, i, houtputs⟩ := hout hbody' v hv
    -- a phi may read the new value within this step, so it must be held in the state after it
    have hg : g.Holds v x := hput.settle hS (by rwa [Frame.body_put]) hsettle houtputs
    exact ⟨hheld' v x ⟨g, List.mem_cons_self, hbody, hg⟩, hexplains⟩
  · exact ⟨hheld hbody' v x hold, hf hbody' v x hold⟩

/-- A frame that has waited for a call goes on with the result. -/
theorem explained_of_resume (f : Frame) (out : Option ValueId) (result : RuntimeValue)
    (hcallers : ∀ q ∈ m.callers, Frame.ExplainedWaiting h held c q)
    (hf : Frame.ExplainedWaiting h held c (f, out))
    (hheld : f.body = c → ∀ v x, f.Holds v x → held v x)
    (hheld' : ∀ v x, m'.Holds c v x → held v x)
    (hrun : m.resume f out result = .ok (.running m')) : m'.Explained h held c := by
  apply explained_of_continueWith hc hS f out result hcallers hf.1 hheld _ hheld' hrun
  intro hbody v hv
  obtain ⟨i, call, hop, hout⟩ := hf.2 hbody v hv
  exact ⟨hS.explains_of_takesResult ⟨i, call, hop, hout⟩, i, .call call, hop, hout⟩

theorem explained_of_leave {result : RuntimeValue}
    (hcallers : ∀ q ∈ m.callers, Frame.ExplainedWaiting h held c q)
    (hheld : ∀ q ∈ m.callers, q.1.body = c → ∀ v x, q.1.Holds v x → held v x)
    (hheld' : ∀ v x, m'.Holds c v x → held v x)
    (hrun : m.leave result = .ok (.running m')) : m'.Explained h held c := by
  unfold leave at hrun
  split at hrun
  · cases hrun
  · rename_i f out callers heq
    rw [heq, List.forall_mem_cons] at hcallers hheld
    exact explained_of_resume hc hS f out result (m := { m with callers }) hcallers.2 hcallers.1
      hheld.1 hheld' hrun

theorem explained_of_call {target : MethodRef} {arguments : List RuntimeValue}
    (hcallers : ∀ q ∈ m.callers, Frame.ExplainedWaiting h held c q)
    (hf : Frame.ExplainedWaiting h held c (f, out))
    (hheld : f.body = c → ∀ v x, f.Holds v x → held v x)
    (hheld' : ∀ v x, m'.Holds c v x → held v x)
    (hrun : m.call p f out target arguments = .ok (.running m')) : m'.Explained h held c := by
  unfold Machine.call at hrun
  dsimp only at hrun
  split at hrun
  · exact explained_of_resume hc hS f out .null (m := { m with calls := target :: m.calls })
      hcallers hf hheld hheld' hrun
  · split at hrun
    · cases hrun
    · obtain ⟨g, hstart, heq⟩ := bind_eq_ok.1 hrun
      cases heq
      exact ⟨Frame.explained_of_start hstart, List.forall_mem_cons.2 ⟨hf, hcallers⟩⟩

/-- One step of a run. What the frames of the body hold before and after it is held in the run. -/
theorem Explained.step (hm : m.Explained p.hierarchy held c) (hsane : m.Sane c)
    (hheld : ∀ v x, m.Holds c v x → held v x) (hheld' : ∀ v x, m'.Holds c v x → held v x)
    (hstep : m.step p = .ok (.running m')) : m'.Explained p.hierarchy held c := by
  obtain ⟨i, rest, op, hrest, hop, hexecute⟩ := exists_execute hstep
  have hframe : m.frame.body = c → ∀ v x, m.frame.Holds v x → held v x :=
    fun hbody v x hf => hheld v x ⟨_, List.mem_cons_self, hbody, hf⟩
  cases op with
  | call call =>
    simp only [execute, bind_eq_ok] at hexecute
    obtain ⟨arguments, -, target, -, hcall⟩ := hexecute
    have hwaits : Frame.ExplainedWaiting p.hierarchy held c ({ m.frame with rest }, call.out) :=
      ⟨hm.frame, fun hbody v hv => ⟨i, call, hbody ▸ hop, hv⟩⟩
    exact explained_of_call hc hS hm.callers hwaits hframe hheld' hcall
  | _ =>
    rw [execute_eq_perform (by simp)] at hexecute
    obtain ⟨effect, heffect, hperform⟩ := bind_eq_ok.1 hexecute
    cases effect with
    | write v a =>
      apply explained_of_continueWith hc hS { m.frame with rest } (some v) a hm.callers hm.frame
        hframe _ hheld' hperform
      intro hbody u hu
      obtain rfl : v = u := by simpa using hu
      have hop' := hbody ▸ hop
      have hnext : i ∈ m.frame.rest.head? := by simp [hrest]
      exact ⟨hS.explains_of_effect hop' heffect (hframe hbody) (hsane hbody i hnext _ hop'), i, _,
        hop', (Operation.has_of_effect heffect).1⟩
    | jump target =>
      exact explained_of_continueWith hc hS { m.frame with rest, next := some target } none .null
        hm.callers hm.frame hframe (by simp) hheld' hperform
    | leave result =>
      apply explained_of_leave hc hS hm.callers _ hheld' hperform
      intro q hq hbody v x hf
      exact hheld v x ⟨q.1, List.mem_cons_of_mem _ (List.mem_map_of_mem hq), hbody, hf⟩

end Machine

end Explained

/-! ### Runs -/

namespace Machine

/-- The states that a run comes to in so many steps, the first one included. -/
def states (p : Program) : Nat → Machine → List Machine
  | 0, m => [m]
  | steps + 1, m =>
    m :: match m.step p with
      | .ok (.running m') => states p steps m'
      | .ok (.finished _) | .error _ => []

variable {p : Program} {held : ValueId → RuntimeValue → Prop} {c : Body} {m m' : Machine}
  {steps : Nat}

theorem mem_states_self : m ∈ states p steps m := by
  cases steps <;> exact List.mem_cons_self

/-- A run keeps what its steps keep. The last state is one that the run does not go on from. -/
theorem states_invariant {motive : Machine → Prop} (hm : motive m)
    (hstep : ∀ m₁ ∈ (states p steps m).dropLast, ∀ m₂ ∈ states p steps m, motive m₁ →
      m₁.step p = .ok (.running m₂) → motive m₂) : ∀ m' ∈ states p steps m, motive m' := by
  induction steps generalizing m with
  | zero =>
    intro m' hm'
    obtain rfl := List.mem_singleton.1 hm'
    exact hm
  | succ steps ih =>
    unfold states at hstep ⊢
    cases hnext : m.step p with
    | error e => simpa using hm
    | ok progress =>
      cases progress with
      | finished calls => simpa using hm
      | running m₁ =>
        have hfirst : m₁ ∈ states p steps m₁ := mem_states_self
        simp only [hnext, List.dropLast_cons_of_ne_nil (List.ne_nil_of_mem hfirst)] at hstep
        have hm₁ := hstep m List.mem_cons_self m₁ (List.mem_cons_of_mem m hfirst) hm hnext
        have hrest := ih hm₁ fun m₂ h₂ m₃ h₃ =>
          hstep m₂ (List.mem_cons_of_mem m h₂) m₃ (List.mem_cons_of_mem m h₃)
        exact List.forall_mem_cons.2 ⟨hm, hrest⟩

end Machine

namespace Program

/-- The states of a run from a method. A run that cannot begin has none. -/
def statesOf (p : Program) (limit : Nat) (method : MethodRef) (arguments : List RuntimeValue) :
    List Machine :=
  match p.body? method with
  | none => []
  | some c =>
    match Frame.start c arguments with
    | .ok frame => Machine.states p limit { frame, calls := [method] }
    | .error _ => []

variable {p : Program} {c : Body} {limit : Nat} {method : MethodRef} {arguments : List RuntimeValue}

/-- A frame of the body holds this for the value at some time of the run. -/
def HoldsIn (p : Program) (c : Body) (limit : Nat) (method : MethodRef)
    (arguments : List RuntimeValue) (v : ValueId) (x : RuntimeValue) : Prop :=
  ∃ m ∈ p.statesOf limit method arguments, m.Holds c v x

variable (hc : c.Recorded) (hS : c.SingleAssignment)
  (hsane : ∀ m ∈ (p.statesOf limit method arguments).dropLast, m.Sane c)
include hc hS hsane

theorem explained_of_mem_statesOf {held : ValueId → RuntimeValue → Prop}
    (hheld : ∀ m ∈ p.statesOf limit method arguments, ∀ v x, m.Holds c v x → held v x) :
    ∀ m ∈ p.statesOf limit method arguments, m.Explained p.hierarchy held c := by
  unfold statesOf at hheld hsane ⊢
  split
  · simp
  · rename_i d hd
    rw [hd] at hheld hsane
    split
    · rename_i g hstart
      simp only [hstart] at hheld hsane
      apply Machine.states_invariant
      · exact ⟨Frame.explained_of_start hstart, by simp⟩
      · intro m₁ h₁ m₂ h₂ hm₁ hstep
        exact hm₁.step hc hS (hsane m₁ h₁) (hheld m₁ (List.mem_of_mem_dropLast h₁)) (hheld m₂ h₂)
          hstep
    · simp

/-- Whatever is held in a run is explained by what is held in it. -/
theorem explains_of_holdsIn {v : ValueId} {x : RuntimeValue}
    (hv : p.HoldsIn c limit method arguments v x) :
    c.Explains p.hierarchy (p.HoldsIn c limit method arguments) v x := by
  obtain ⟨m, hm, hholds⟩ := hv
  have hheld : ∀ m ∈ p.statesOf limit method arguments, ∀ v x, m.Holds c v x →
      p.HoldsIn c limit method arguments v x := fun m hm v x hx => ⟨m, hm, hx⟩
  exact (explained_of_mem_statesOf hc hS hsane hheld m hm).explains hholds

end Program

end Devirt
