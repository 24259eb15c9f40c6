import Devirt.Proofs.Body.Consistency
import Devirt.Proofs.Body.Draft

/-!
Ways through a body. Control runs through the instructions of a block, leaves it for one of the
targets of its terminator and, where exceptions are caught, for a handler at an instruction that
throws; on the way it defines values. The body is safe if nothing is read on any way before it is
defined. A consistent body need not be: what a block defines at or after a throw can be missing
behind its handlers, and what counts as there from the entry on is missing when the body is entered
from outside. These are the only gaps.
-/

namespace Devirt

open Relation

theorem Operation.out?_of_isTerminator {op : Operation} (h : op.isTerminator = true) :
    op.out? = none := by
  cases op <;> simp_all [isTerminator, out?]

/-- A path that gets to a node gets there for the first time. -/
theorem eq_or_exists_avoids {α : Type} {r : α → α → Prop} {e a : α} (h : ReflTransGen r e a) :
    e = a ∨ ∃ p, Avoids r e a p ∧ r p a := by
  have hpath : ∀ {b}, ReflTransGen r e b →
      (e = a ∨ ∃ p, Avoids r e a p ∧ r p a) ∨ Avoids r e a b := by
    intro b hb
    induction hb with
    | refl =>
      by_cases hea : e = a
      · exact .inl (.inl hea)
      · exact .inr ⟨hea, .refl⟩
    | @tail x y _ hstep ih =>
      rcases ih with ih | ih
      · exact .inl ih
      · by_cases hya : y = a
        · exact .inl (.inr ⟨x, ih, hya ▸ hstep⟩)
        · exact .inr (ih.tail hstep hya)
  exact (hpath h).resolve_right fun hself => hself.ne rfl

theorem Avoids.mono {α : Type} {r q : α → α → Prop} {e a b : α} (hrq : ∀ x y, r x y → q x y)
    (h : Avoids r e a b) : Avoids q e a b :=
  ⟨h.1, ReflTransGen.mono (fun x y hxy => ⟨hrq x y hxy.1, hxy.2⟩) _ _ h.2⟩

namespace Body

/-- No value has two definitions. -/
structure SingleAssignment (c : Body) : Prop where
  outputs : ∀ {i j v}, c.Outputs i v → c.Outputs j v → i = j
  outputs_phi : ∀ {b phi i}, c.HasPhi b phi → ¬ c.Outputs i phi.out

/-- The operation stands at the index of the block. -/
def At (c : Body) (b : BlockId) (n : Nat) (op : Operation) : Prop :=
  ∃ x i, c.block b = .ok x ∧ x.instructions[n]? = some i ∧ c.operation i = .ok op

/-- Control may leave the block for another one at the index: by the terminator or, if exceptions
are caught, by a handler. -/
def Leaves (c : Body) (caught : Bool) (b : BlockId) (n : Nat) (s : BlockId) : Prop :=
  ∃ op, c.At b n op ∧
    (s ∈ op.targets ∨ (caught = true ∧ op.canThrow = true ∧ c.Handles b s))

/-- Control may pass from one block to the other. -/
def Proceeds (c : Body) (caught : Bool) (b s : BlockId) : Prop := ∃ n, c.Leaves caught b n s

/-- Control comes to an index of a block after the values `seen` have been defined. An instruction
that throws has not defined its output. -/
inductive Comes (c : Body) (caught : Bool) : BlockId → Nat → List ValueId → Prop
  | start : Comes c caught c.entry 0 []
  | next {b : BlockId} {n : Nat} {seen : List ValueId} {op : Operation}
      (h : Comes c caught b n seen) (hop : c.At b n op) (hinner : op.isTerminator = false) :
      Comes c caught b (n + 1) (op.out?.toList ++ seen)
  | pass {b s : BlockId} {n : Nat} {seen : List ValueId} {y : Block}
      (h : Comes c caught b n seen) (hleaves : c.Leaves caught b n s) (hy : c.block s = .ok y) :
      Comes c caught s 0 (y.phis.map (·.out) ++ seen)

/-- A phi of the second block reads the value on an edge from the first one. -/
def PhiReads (c : Body) (b s : BlockId) (v : ValueId) : Prop :=
  ∃ y phi, ∃ e : Nat, c.block s = .ok y ∧ phi ∈ y.phis ∧ y.predecessors[e]? = some b ∧
    phi.operands[e]? = some v

/-- Whatever is read on a way has been defined on it before. -/
structure Safe (c : Body) (caught : Bool) : Prop where
  operands : ∀ {b n seen op}, c.Comes caught b n seen → c.At b n op → ∀ v ∈ op.operands, v ∈ seen
  inputs : ∀ {b n seen s}, c.Comes caught b n seen → c.Leaves caught b n s →
    ∀ v, c.PhiReads b s v → v ∈ seen

/-- The value is read by an instruction of the block, or by a phi when control leaves the block. -/
def ReadIn (c : Body) (caught : Bool) (b : BlockId) (v : ValueId) : Prop :=
  (∃ n op, c.At b n op ∧ v ∈ op.operands) ∨ ∃ s, c.Proceeds caught b s ∧ c.PhiReads b s v

/-- What the block `d` defines at or after an instruction that throws is read neither by a phi of
the handler nor on a way from the handler that does not lead through `d` again. -/
def ThrowCovered (c : Body) (caught : Bool) : Prop :=
  ∀ {d n k op op' v s}, ReflTransGen (c.Proceeds caught) c.entry d → c.At d n op →
    caught = true → op.canThrow = true → c.Handles d s → n ≤ k → c.At d k op' →
    op'.out? = some v →
      ¬ c.PhiReads d s v ∧ ∀ b, Avoids (c.Proceeds caught) s d b → ¬ c.ReadIn caught b v

/-- What another block `d` defines, and what is still taken to be there from the entry on, is not
read on a way from the entry that does not lead through `d`. -/
def EntryCovered (c : Body) (caught : Bool) : Prop :=
  ∀ {d k op v}, c.At d k op → op.out? = some v → d ≠ c.entry → c.AvailableFrom v c.entry →
    ∀ b, Avoids (c.Proceeds caught) c.entry d b → ¬ c.ReadIn caught b v

variable {c : Body} {caught : Bool} {a b d r s : BlockId} {i : InstrId} {k m n : Nat}
  {op op' : Operation} {seen : List ValueId} {v : ValueId}

theorem Intact.singleAssignment (hc : c.Intact) : c.SingleAssignment :=
  ⟨hc.eq_of_outputs, hc.not_outputs_phi⟩

/-! ### Places of operations -/

theorem At.eq (h : c.At b n op) (h' : c.At b n op') : op = op' := by
  obtain ⟨x, i, hx, hi, hop⟩ := h
  obtain ⟨x', i', hx', hi', hop'⟩ := h'
  obtain rfl := Except.ok.inj (hx.symm.trans hx')
  obtain rfl := Option.some.inj (hi.symm.trans hi')
  exact Except.ok.inj (hop.symm.trans hop')

section Places

variable (hA : c.Arranged)
include hA

theorem At.of_le (h : c.At b n op) (hmn : m ≤ n) : ∃ op', c.At b m op' := by
  obtain ⟨x, i, hx, hi, -⟩ := h
  have hlt : m < x.instructions.length :=
    Nat.lt_of_le_of_lt hmn (List.getElem?_eq_some_iff.1 hi).1
  obtain ⟨op', hop'⟩ := hA.exists_operation hx (List.getElem_mem hlt)
  exact ⟨op', x, _, hx, List.getElem?_eq_getElem hlt, hop'⟩

theorem At.exists_outputs (h : c.At b n op) (hout : op.out? = some v) :
    ∃ x i, c.block b = .ok x ∧ x.instructions[n]? = some i ∧ c.Outputs i v ∧
      c.blockOf i = .ok b := by
  obtain ⟨x, i, hx, hi, hop⟩ := h
  exact ⟨x, i, hx, hi, ⟨op, hop, hout⟩, hA.placed hx i (List.mem_of_getElem? hi)⟩

theorem exists_at (hop : c.operation i = .ok op) (hof : c.blockOf i = .ok b) :
    ∃ n, c.At b n op := by
  obtain ⟨x, hx, hmem⟩ := hA.recorded hof
  obtain ⟨n, hn⟩ := List.mem_iff_getElem?.1 hmem
  exact ⟨n, x, i, hx, hn, hop⟩

/-- A value is defined at one place only. -/
theorem At.place_unique (hS : c.SingleAssignment) (h : c.At b n op) (hout : op.out? = some v)
    (h' : c.At s m op') (hout' : op'.out? = some v) : b = s ∧ n = m := by
  obtain ⟨x, i, hx, hi, houtputs, hof⟩ := h.exists_outputs hA hout
  obtain ⟨y, j, hy, hj, houtputs', hof'⟩ := h'.exists_outputs hA hout'
  obtain rfl := hS.outputs houtputs houtputs'
  obtain rfl := Except.ok.inj (hof.symm.trans hof')
  obtain rfl := Except.ok.inj (hx.symm.trans hy)
  refine ⟨rfl, ?_⟩
  exact (List.getElem?_inj (List.getElem?_eq_some_iff.1 hi).1 (hA.nodup hx)).1 (hi.trans hj.symm)

end Places

section Consistent

variable (hC : c.Consistent)
include hC

/-- Only the last operation of a block is a terminator. -/
theorem At.isTerminator_eq_false (h : c.At b n op) (h' : c.At b m op') (hnm : n < m) :
    op.isTerminator = false := by
  obtain ⟨x, i, hx, hi, hop⟩ := h
  obtain ⟨x', j, hx', hj, -⟩ := h'
  obtain rfl := Except.ok.inj (hx.symm.trans hx')
  refine hC.inner hx i (List.mem_of_getElem? (i := n) ?_) op hop
  have hlt := (List.getElem?_eq_some_iff.1 hj).1
  rw [List.getElem?_dropLast, if_pos (by omega), hi]

theorem At.jumps (h : c.At b n op) (hs : s ∈ op.targets) : c.Jumps b s := by
  obtain ⟨x, i, hx, hi, hop⟩ := h
  obtain ⟨j, op', hlast, hop', -⟩ := hC.terminated hx
  by_cases hend : n + 1 = x.instructions.length
  · rw [List.getLast?_eq_getElem?, ← hend, Nat.add_sub_cancel, hi] at hlast
    obtain rfl := Option.some.inj hlast
    exact ⟨x, i, op, hx, by rw [List.getLast?_eq_getElem?, ← hend, Nat.add_sub_cancel, hi], hop, hs⟩
  · -- before the end there is no terminator, so nothing is jumped to
    have hlt := (List.getElem?_eq_some_iff.1 hi).1
    have hinner := hC.inner hx i (List.mem_of_getElem? (i := n) (by
      rw [List.getElem?_dropLast, if_pos (by omega), hi])) op hop
    rw [Operation.targets_eq_nil hinner] at hs
    simp at hs

theorem Leaves.edge (h : c.Leaves caught b n s) : c.Edge b s := by
  obtain ⟨op, hop, hs | ⟨-, -, hs⟩⟩ := h
  · exact .inl (hop.jumps hC hs)
  · exact .inr hs

theorem Proceeds.edge (h : c.Proceeds caught b s) : c.Edge b s := by
  obtain ⟨n, hn⟩ := h
  exact hn.edge hC

/-- Control leaves a block at an instruction whose output is still missing only by a handler. -/
theorem Leaves.of_le (hleaves : c.Leaves caught b n s) (hnk : n ≤ k) (hk : c.At b k op')
    (hout : op'.out? = some v) :
    ∃ op, c.At b n op ∧ caught = true ∧ op.canThrow = true ∧ c.Handles b s := by
  obtain ⟨op, hop, hs | hthrow⟩ := hleaves
  · exfalso
    rcases Nat.lt_or_eq_of_le hnk with hlt | rfl
    · rw [Operation.targets_eq_nil (hop.isTerminator_eq_false hC hk hlt)] at hs
      simp at hs
    · obtain rfl := hop.eq hk
      by_cases hterm : op.isTerminator = true
      · simp [Operation.out?_of_isTerminator hterm] at hout
      · rw [Operation.targets_eq_nil (by simpa using hterm)] at hs
        simp at hs
  · exact ⟨op, hop, hthrow⟩

end Consistent

/-! ### What may be missing -/

theorem Comes.reaches (h : c.Comes caught b n seen) :
    ReflTransGen (c.Proceeds caught) c.entry b := by
  induction h with
  | start => exact .refl
  | next _ _ _ ih => exact ih
  | pass _ hleaves _ ih => exact ih.tail ⟨_, hleaves⟩

/-- A way on which the output of a phi is missing does not lead through its block. -/
theorem Comes.avoids_of_phi (hentry : ∀ x, c.block c.entry = .ok x → x.phis = []) {phi : Phi}
    (hphi : c.HasPhi d phi) (h : c.Comes caught b n seen) (hv : phi.out ∉ seen) :
    Avoids (c.Proceeds caught) c.entry d b := by
  obtain ⟨x, hx, hmem⟩ := hphi
  induction h with
  | start =>
    refine ⟨fun heq => ?_, .refl⟩
    subst heq
    simp [hentry x hx] at hmem
  | next _ _ _ ih => exact ih fun hseen => hv (List.mem_append_right _ hseen)
  | @pass b s n seen y _ hleaves hy ih =>
    refine (ih fun hseen => hv (List.mem_append_right _ hseen)).tail ⟨n, hleaves⟩ ?_
    rintro rfl
    obtain rfl := Except.ok.inj (hx.symm.trans hy)
    exact hv (List.mem_append_left _ (List.mem_map_of_mem hmem))

/-- The ways on which an instruction has not defined its output yet: they have come up to it in its
block, they do not lead through the block, or they have left it by a handler and have not come
back. -/
inductive Lacks (c : Body) (caught : Bool) (d : BlockId) (k : Nat) (b : BlockId) (n : Nat) : Prop
  | here (hb : b = d) (hn : n ≤ k)
  | around (h : Avoids (c.Proceeds caught) c.entry d b)
  | thrown {m : Nat} {op : Operation} {s : BlockId}
      (hreach : ReflTransGen (c.Proceeds caught) c.entry d) (hop : c.At d m op)
      (hcaught : caught = true) (hthrow : op.canThrow = true) (hhandles : c.Handles d s)
      (hm : m ≤ k) (h : Avoids (c.Proceeds caught) s d b)

/-- On its way to the next block control still lacks the value, unless that block defines it. -/
theorem Lacks.pass (h : c.Lacks caught d k b n) (hbd : b ≠ d) (hpass : c.Proceeds caught b s) :
    c.Lacks caught d k s 0 := by
  by_cases hsd : s = d
  · exact .here hsd (Nat.zero_le k)
  · cases h with
    | here hb _ => exact absurd hb hbd
    | around h => exact .around (h.tail hpass hsd)
    | thrown hreach hop hcaught hthrow hhandles hm h =>
      exact .thrown hreach hop hcaught hthrow hhandles hm (h.tail hpass hsd)

theorem Comes.lacks (hC : c.Consistent) (hk : c.At d k op') (hout : op'.out? = some v)
    (h : c.Comes caught b n seen) (hv : v ∉ seen) : c.Lacks caught d k b n := by
  induction h with
  | start =>
    by_cases hd : c.entry = d
    · exact .here hd (Nat.zero_le k)
    · exact .around ⟨hd, .refl⟩
  | @next b n seen op _ hop _ ih =>
    rw [List.mem_append, not_or] at hv
    cases ih hv.2 with
    | here hb hn =>
      subst hb
      refine .here rfl (Nat.lt_of_le_of_ne hn ?_)
      rintro rfl
      obtain rfl := hop.eq hk
      exact hv.1 (by simp [hout])
    | around h => exact .around h
    | thrown hreach hm hcaught hthrow hhandles hmk h =>
      exact .thrown hreach hm hcaught hthrow hhandles hmk h
  | @pass b s n seen y hcomes hleaves hy ih =>
    rw [List.mem_append, not_or] at hv
    have hlacks := ih hv.2
    by_cases hbd : b = d
    · subst hbd
      cases hlacks with
      | around h => exact absurd rfl h.ne
      | thrown _ _ _ _ _ _ h => exact absurd rfl h.ne
      | here _ hn =>
        obtain ⟨op, hop, hcaught, hthrow, hhandles⟩ := hleaves.of_le hC hn hk hout
        by_cases hsb : s = b
        · exact .here hsb (Nat.zero_le k)
        · exact .thrown hcomes.reaches hop hcaught hthrow hhandles hn ⟨hsb, .refl⟩
    · exact hlacks.pass hbd ⟨n, hleaves⟩

/-! ### Consistent bodies without gaps are safe -/

/-- A value that is available at the start of a block is there on every way to it. -/
theorem not_lacks_of_available (hC : c.Consistent) (hthrow : c.ThrowCovered caught)
    (henter : c.EntryCovered caught) (hk : c.At d k op') (hout : op'.out? = some v)
    (hdb : b ≠ d) (hfrom : c.ResultFrom op' d a)
    (havail : c.AvailableFrom v a) (hdom : c.Dominates a b) (hread : c.ReadIn caught b v) :
    ¬ c.Lacks caught d k b n := by
  have hedge : ∀ x y, c.Proceeds caught x y → c.Edge x y := fun _ _ h => h.edge hC
  intro hlacks
  cases hlacks with
  | here hb _ => exact hdb hb
  | thrown hreach hop hcaught hcan hhandles hm h =>
    exact (hthrow hreach hop hcaught hcan hhandles hm hk hout).2 b h hread
  | around h =>
    obtain ⟨x, -, hfrom⟩ := hfrom
    split at hfrom
    · obtain ⟨-, y, hy, hpreds⟩ := hfrom
      by_cases hentry : a = c.entry
      · exact henter hk hout h.1.symm (hentry ▸ havail) b h hread
      · -- every way to the block from which on the value is there leads through `d`
        rcases (h.mono hedge).or_of a with hab | hda
        · exact hdom hab
        · rcases hda.2.cases_tail with heq | ⟨p, hp, hstep⟩
          · exact hentry heq
          · obtain ⟨z, hz, hmem⟩ := hC.symmetric_out hstep.1
            obtain rfl := Except.ok.inj (hy.symm.trans hz)
            rw [hpreds, List.mem_singleton] at hmem
            exact Avoids.ne ⟨hda.1, hp⟩ hmem
    · subst hfrom
      exact hdom (h.mono hedge)

theorem mem_seen_of_available (hA : c.Arranged) (hC : c.Consistent)
    (hentry : ∀ x, c.block c.entry = .ok x → x.phis = []) (hthrow : c.ThrowCovered caught)
    (henter : c.EntryCovered caught) (hcomes : c.Comes caught b n seen)
    (helse : ∀ i, c.Outputs i v → c.blockOf i ≠ .ok b) (havail : c.AvailableFrom v a)
    (hdom : c.Dominates a b) (hread : c.ReadIn caught b v) : v ∈ seen := by
  by_contra hv
  rcases id havail with ⟨phi, hphi, rfl⟩ | ⟨i, op, r, hop, hout, hof, hfrom⟩
  · exact hdom ((hcomes.avoids_of_phi hentry hphi hv).mono fun _ _ h => h.edge hC)
  · obtain ⟨k, hk⟩ := exists_at hA hop hof
    have hbr : b ≠ r := by
      rintro rfl
      exact helse i ⟨op, hop, hout⟩ hof
    exact not_lacks_of_available hC hthrow henter hk hout hbr hfrom havail hdom hread
      (hcomes.lacks hC hk hout hv)

/-- In the block that defines it a value is missing only up to its definition. -/
theorem Lacks.le (h : c.Lacks caught b k b n) : n ≤ k := by
  cases h with
  | here _ hn => exact hn
  | around h => exact absurd rfl h.ne
  | thrown _ _ _ _ _ _ h => exact absurd rfl h.ne

theorem safe_of_covered (hA : c.Arranged) (hC : c.Consistent)
    (hentry : ∀ x, c.block c.entry = .ok x → x.phis = []) (hthrow : c.ThrowCovered caught)
    (henter : c.EntryCovered caught) : c.Safe caught := by
  have hreachable : ∀ {b n seen}, c.Comes caught b n seen → c.Reachable b := fun hcomes =>
    ReflTransGen.mono (fun _ _ h => Proceeds.edge hC h) _ _ hcomes.reaches
  constructor
  · intro b n seen op hcomes hat v hv
    obtain ⟨x, i, hx, hi, hop⟩ := id hat
    rcases (hC.operands hx hi hop v hv).2 (hreachable hcomes) with
      ⟨j, x', k, ⟨op', hop', hout⟩, hx', hk, hlt⟩ | ⟨helse, a, havail, hdom⟩
    · by_contra hnot
      have := (hcomes.lacks hC ⟨x', j, hx', hk, hop'⟩ hout hnot).le
      omega
    · exact mem_seen_of_available hA hC hentry hthrow henter hcomes helse havail hdom
        (.inl ⟨n, op, hat, hv⟩)
  · rintro b n seen s hcomes hleaves v ⟨y, phi, e, hy, hphi, hpred, hoperand⟩
    have hzip : (v, b) ∈ phi.operands.zip y.predecessors :=
      List.mem_of_getElem? (List.getElem?_zip_eq_some.2 ⟨hoperand, hpred⟩)
    have hread : c.PhiReads b s v := ⟨y, phi, e, hy, hphi, hpred, hoperand⟩
    rcases (hC.inputs hy hphi _ hzip).2 (hreachable hcomes) with
      ⟨i, op, hop, hout, hof, -⟩ | ⟨helse, a, havail, hdom⟩
    · -- the block that control leaves defines the value
      obtain ⟨k, hk⟩ := exists_at hA hop hof
      by_contra hnot
      have hle := (hcomes.lacks hC hk hout hnot).le
      obtain ⟨op', hop', hcaught, hcan, hhandles⟩ := hleaves.of_le hC hle hk hout
      exact (hthrow hcomes.reaches hop' hcaught hcan hhandles hle hk hout).1 hread
    · exact mem_seen_of_available hA hC hentry hthrow henter hcomes helse havail hdom
        (.inr ⟨s, ⟨n, hleaves⟩, hread⟩)

/-! ### Safe bodies have no gaps -/

section Converse

variable (hA : c.Arranged) (hS : c.SingleAssignment) (hC : c.Consistent)

include hA hC in
/-- Control runs from the start of a block to any of its operations. -/
theorem Comes.run (hcomes : c.Comes caught b 0 seen) (hop : c.At b n op) (hv : v ∉ seen)
    (hbefore : ∀ m op', m < n → c.At b m op' → op'.out? ≠ some v) :
    ∃ seen', c.Comes caught b n seen' ∧ v ∉ seen' := by
  induction n generalizing op with
  | zero => exact ⟨seen, hcomes, hv⟩
  | succ n ih =>
    obtain ⟨op', hop'⟩ := hop.of_le hA (Nat.le_succ n)
    obtain ⟨seen', hcomes', hv'⟩ := ih hop' fun m op'' hm => hbefore m op'' (Nat.lt_succ_of_lt hm)
    have hout := hbefore n op' (Nat.lt_succ_self n) hop'
    refine ⟨_, hcomes'.next hop' (hop'.isTerminator_eq_false hC hop (Nat.lt_succ_self n)), ?_⟩
    rw [List.mem_append, Option.mem_toList, not_or]
    exact ⟨hout, hv'⟩

variable (hk : c.At d k op') (hout : op'.out? = some v)

include hA hS hC hk hout in
/-- Control passes to the next block and does not meet the definition there. -/
theorem Comes.pass_notMem (hcomes : c.Comes caught b n seen) (hv : v ∉ seen)
    (hleaves : c.Leaves caught b n s) : ∃ seen', c.Comes caught s 0 seen' ∧ v ∉ seen' := by
  obtain ⟨y, hy⟩ := exists_block_iff.2 (hC.closed b s (hleaves.edge hC))
  refine ⟨_, hcomes.pass hleaves hy, ?_⟩
  rw [List.mem_append, not_or]
  refine ⟨fun hmem => ?_, hv⟩
  obtain ⟨phi, hphi, rfl⟩ := List.mem_map.1 hmem
  obtain ⟨_, i, _, _, houtputs, -⟩ := hk.exists_outputs hA hout
  exact hS.outputs_phi ⟨y, hy, hphi⟩ houtputs

include hA hS hk hout in
theorem out?_ne_of_ne (hbd : b ≠ d) (hop : c.At b m op) : op.out? ≠ some v :=
  fun heq => hbd (hop.place_unique hA hS heq hk hout).1

include hA hS hC hk hout in
/-- Along a way that does not lead through its block a value stays missing. -/
theorem Comes.along (hcomes : c.Comes caught s 0 seen) (hv : v ∉ seen)
    (havoids : Avoids (c.Proceeds caught) s d b) : ∃ seen', c.Comes caught b 0 seen' ∧ v ∉ seen' := by
  obtain ⟨hsd, hpath⟩ := havoids
  induction hpath with
  | refl => exact ⟨seen, hcomes, hv⟩
  | @tail x y hx hstep ih =>
    obtain ⟨seen', hcomes', hv'⟩ := ih
    obtain ⟨⟨n, hleaves⟩, -⟩ := hstep
    have hxd : x ≠ d := Avoids.ne ⟨hsd, hx⟩
    obtain ⟨op, hop, -⟩ := id hleaves
    obtain ⟨seen'', hcomes'', hv''⟩ := hcomes'.run hA hC hop hv' fun m op'' _ hop'' =>
      out?_ne_of_ne hA hS hk hout hxd hop''
    exact hcomes''.pass_notMem hA hS hC hk hout hv'' hleaves

include hA hS hC hk hout in
/-- Control comes to the block of a definition for a first time. -/
theorem exists_comes_of_reaches (hreach : ReflTransGen (c.Proceeds caught) c.entry d) :
    ∃ seen, c.Comes caught d 0 seen ∧ v ∉ seen := by
  rcases eq_or_exists_avoids hreach with rfl | ⟨p, havoids, n, hleaves⟩
  · exact ⟨[], .start, by simp⟩
  · obtain ⟨seen, hcomes, hv⟩ := Comes.start.along hA hS hC hk hout (by simp) havoids
    obtain ⟨op, hop, -⟩ := id hleaves
    obtain ⟨seen', hcomes', hv'⟩ := hcomes.run hA hC hop hv fun m op'' _ hop'' =>
      out?_ne_of_ne hA hS hk hout havoids.ne hop''
    exact hcomes'.pass_notMem hA hS hC hk hout hv' hleaves

include hA hS hC hk hout in
theorem Safe.not_readIn (hsafe : c.Safe caught) (hcomes : c.Comes caught b 0 seen) (hv : v ∉ seen)
    (hbd : b ≠ d) : ¬ c.ReadIn caught b v := by
  have hrun : ∀ {n op}, c.At b n op → ∃ seen', c.Comes caught b n seen' ∧ v ∉ seen' :=
    fun hop => hcomes.run hA hC hop hv fun m op'' _ hop'' => out?_ne_of_ne hA hS hk hout hbd hop''
  rintro (⟨n, op, hop, hmem⟩ | ⟨s, ⟨n, hleaves⟩, hread⟩)
  · obtain ⟨seen', hcomes', hv'⟩ := hrun hop
    exact hv' (hsafe.operands hcomes' hop v hmem)
  · obtain ⟨op, hop, -⟩ := id hleaves
    obtain ⟨seen', hcomes', hv'⟩ := hrun hop
    exact hv' (hsafe.inputs hcomes' hleaves v hread)

include hA hS hC in
theorem Safe.entryCovered (hsafe : c.Safe caught) : c.EntryCovered caught := by
  intro d k op v hk hout _ _ b havoids
  obtain ⟨seen, hcomes, hv⟩ := Comes.start.along hA hS hC hk hout (by simp) havoids
  exact hsafe.not_readIn hA hS hC hk hout hcomes hv havoids.ne

include hA hS hC in
theorem Safe.throwCovered (hsafe : c.Safe caught) : c.ThrowCovered caught := by
  intro d n k op op' v s hreach hop hcaught hthrow hhandles hnk hk hout
  obtain ⟨seen, hcomes, hv⟩ := exists_comes_of_reaches hA hS hC hk hout hreach
  obtain ⟨seen', hcomes', hv'⟩ := hcomes.run hA hC hop hv fun m op'' hm hop'' heq => by
    have := (hop''.place_unique hA hS heq hk hout).2
    omega
  have hleaves : c.Leaves caught d n s := ⟨op, hop, .inr ⟨hcaught, hthrow, hhandles⟩⟩
  refine ⟨fun hread => hv' (hsafe.inputs hcomes' hleaves v hread), fun b havoids => ?_⟩
  obtain ⟨seen₁, hcomes₁, hv₁⟩ := hcomes'.pass_notMem hA hS hC hk hout hv' hleaves
  obtain ⟨seen₂, hcomes₂, hv₂⟩ := hcomes₁.along hA hS hC hk hout hv₁ havoids
  exact hsafe.not_readIn hA hS hC hk hout hcomes₂ hv₂ havoids.ne

end Converse

/-- In a valid body nothing is read before it is defined, on any way that control may take, exactly
if both kinds of values that the check may miss are not read where they are missing. -/
theorem safe_iff_covered {method : MethodRef} {steps : List DraftStep} {made : List Created}
    (hwritten : Body.ofSteps method steps = .ok (made, c)) (hvalid : c.violations = .ok [])
    (hentry : ∀ x, c.block c.entry = .ok x → x.phis = []) (caught : Bool) :
    c.Safe caught ↔ c.ThrowCovered caught ∧ c.EntryCovered caught := by
  have hI := intact_of_ofSteps hwritten
  have hC := (violations_eq_nil_iff hI).1 hvalid
  have hS := hI.singleAssignment
  constructor
  · intro hsafe
    exact ⟨hsafe.throwCovered hI.toArranged hS hC, hsafe.entryCovered hI.toArranged hS hC⟩
  · intro ⟨hthrow, henter⟩
    exact safe_of_covered hI.toArranged hC hentry hthrow henter

/-- A guarded call whose handler returns its receiver. -/
def handledCall : List DraftStep :=
  [.newBlock, .newBlock, .argument (.ofClass "A" .maybe), .handler ⟨0⟩ none ⟨1⟩,
    .call ⟨0⟩ .virtual (.plain "A" "f") [⟨0⟩], .goto ⟨0⟩ ⟨2⟩, .ret ⟨1⟩ (some ⟨0⟩), .ret ⟨2⟩ none]

theorem safe_handledCall :
    ∃ made c, Body.ofSteps (.plain "A" "f") handledCall = .ok (made, c) ∧ c.violations = .ok [] ∧
      c.Proceeds true c.entry ⟨1⟩ ∧ c.Safe true := by
  obtain ⟨made, c, hwritten, hvalid, hblock, hinstructions⟩ :
      ∃ made c, Body.ofSteps (.plain "A" "f") handledCall = .ok (made, c) ∧
        c.violations = .ok [] ∧
        c.block ⟨0⟩ = .ok { instructions := [⟨0⟩, ⟨1⟩, ⟨2⟩], handlers := [⟨none, ⟨1⟩⟩] } ∧
        c.instructions = [⟨⟨0⟩, .argument ⟨0⟩ 0⟩,
          ⟨⟨0⟩, .call { kind := .virtual, method := .plain "A" "f", arguments := [⟨0⟩] }⟩,
          ⟨⟨0⟩, .goto ⟨2⟩⟩, ⟨⟨1⟩, .ret (some ⟨0⟩)⟩, ⟨⟨2⟩, .ret none⟩] := by
    decide +kernel
  have hargument : c.At ⟨0⟩ 0 (.argument ⟨0⟩ 0) := by
    refine ⟨_, ⟨0⟩, hblock, rfl, operation_eq_ok.2 ⟨⟨⟨0⟩, .argument ⟨0⟩ 0⟩, ?_, rfl⟩⟩
    simp [instruction_eq_ok, hinstructions]
  have hcall : c.At ⟨0⟩ 1 (.call
      { kind := .virtual, method := .plain "A" "f", arguments := [⟨0⟩] }) := by
    refine ⟨_, ⟨1⟩, hblock, rfl, operation_eq_ok.2 ⟨⟨⟨0⟩, .call
      { kind := .virtual, method := .plain "A" "f", arguments := [⟨0⟩] }⟩, ?_, rfl⟩⟩
    simp [instruction_eq_ok, hinstructions]
  have hA := (intact_of_ofSteps hwritten).toArranged
  have hS := (intact_of_ofSteps hwritten).singleAssignment
  -- nothing but the argument is defined
  have honly : ∀ {b n op v}, c.At b n op → op.out? = some v → b = ⟨0⟩ ∧ n = 0 := by
    rintro b n op v hop hout
    obtain ⟨x, ⟨i⟩, -, -, hi⟩ := id hop
    obtain ⟨y, hy, rfl⟩ := operation_eq_ok.1 hi
    rw [instruction_eq_ok, hinstructions] at hy
    have hv : v = ⟨0⟩ := by
      match i with
      | 0 =>
        obtain rfl : ⟨⟨0⟩, .argument ⟨0⟩ 0⟩ = y := by simpa using hy
        simpa [Operation.out?, eq_comm] using hout
      | 1 | 2 | 3 | 4 =>
        simp only [List.getElem?_cons_succ, List.getElem?_cons_zero, Option.some.injEq] at hy
        subst hy
        simp [Operation.out?] at hout
      | i + 5 => simp at hy
    subst hv
    exact hop.place_unique hA hS hout hargument rfl
  refine ⟨made, c, hwritten, hvalid, ⟨1, _, hcall, .inr ⟨rfl, rfl, _, hblock, _, .head _, rfl⟩⟩, ?_⟩
  refine (safe_iff_covered hwritten hvalid (fun x hx => ?_) true).2 ⟨?_, ?_⟩
  · obtain rfl := Except.ok.inj (hx.symm.trans hblock)
    rfl
  · intro d n k op op' v s _ hop _ hthrow _ hnk hk hout
    obtain ⟨rfl, rfl⟩ := honly hk hout
    obtain rfl : n = 0 := Nat.le_zero.1 hnk
    obtain rfl := hop.eq hargument
    simp [Operation.canThrow] at hthrow
  · intro d k op v hk hout hd
    exact absurd (honly hk hout).1 hd

/-- A guarded call, and a number defined after it that the handler returns. -/
def lateNumber : List DraftStep :=
  [.newBlock, .newBlock, .argument (.ofClass "A" .maybe), .handler ⟨0⟩ none ⟨1⟩,
    .call ⟨0⟩ .virtual (.plain "A" "f") [⟨0⟩], .number ⟨0⟩ 1, .goto ⟨0⟩ ⟨2⟩,
    .ret ⟨1⟩ (some ⟨1⟩), .ret ⟨2⟩ none]

/-- If the call throws, the handler returns a number that has not been defined. -/
theorem not_safe_lateNumber :
    ∃ made c, Body.ofSteps (.plain "A" "f") lateNumber = .ok (made, c) ∧ c.violations = .ok [] ∧
      (∀ x, c.block c.entry = .ok x → x.phis = []) ∧ ¬ c.Safe true := by
  obtain ⟨made, c, hwritten, hvalid, hentry, hhandler, hargument, hcall, hret⟩ :
      ∃ made c, Body.ofSteps (.plain "A" "f") lateNumber = .ok (made, c) ∧
        c.violations = .ok [] ∧
        c.block ⟨0⟩ = .ok { instructions := [⟨0⟩, ⟨1⟩, ⟨2⟩, ⟨3⟩], handlers := [⟨none, ⟨1⟩⟩] } ∧
        c.block ⟨1⟩ = .ok { instructions := [⟨4⟩], predecessors := [⟨0⟩] } ∧
        c.operation ⟨0⟩ = .ok (.argument ⟨0⟩ 0) ∧
        c.operation ⟨1⟩ = .ok (.call
          { kind := .virtual, method := .plain "A" "f", arguments := [⟨0⟩] }) ∧
        c.operation ⟨4⟩ = .ok (.ret (some ⟨1⟩)) := by
    decide +kernel
  refine ⟨made, c, hwritten, hvalid, fun x hx => ?_, fun hsafe => ?_⟩
  · obtain rfl := Except.ok.inj (hx.symm.trans hentry)
    rfl
  · have hcomes : c.Comes true ⟨0⟩ 1 [⟨0⟩] := Comes.start.next ⟨_, _, hentry, rfl, hargument⟩ rfl
    have hleaves : c.Leaves true ⟨0⟩ 1 ⟨1⟩ :=
      ⟨_, ⟨_, _, hentry, rfl, hcall⟩, .inr ⟨rfl, rfl, _, hentry, _, .head _, rfl⟩⟩
    have hmem := hsafe.operands (hcomes.pass hleaves hhandler) ⟨_, _, hhandler, rfl, hret⟩ ⟨1⟩
      (by simp [Operation.operands])
    simp at hmem

end Body

end Devirt
