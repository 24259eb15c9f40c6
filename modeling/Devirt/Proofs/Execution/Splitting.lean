import Devirt.Proofs.Body.Checked
import Devirt.Proofs.Body.Splitting
import Devirt.Proofs.Execution.Steps

/-!
Splitting a block does not change what a program does. A frame of the split body stands where the
frame of the whole one does. Only at the end of the head it makes a step of its own, by which it
comes to the tail. So the two runs have the same outcome, and the one through the split body takes at
most twice as many steps.
-/

namespace Devirt

/-! ### Computations that go alike -/

namespace Executing

variable {α α' β β' : Type} {r : α → β → Prop} {q : α' → β' → Prop} {x : Executing α}
  {y : Executing β} {f : α → Executing α'} {g : β → Executing β'}

/-- Both computations fail for the same reason, or both give results that are related. -/
inductive Alike (r : α → β → Prop) : Executing α → Executing β → Prop
  | ok {a : α} {b : β} (h : r a b) : Alike r (.ok a) (.ok b)
  | error (e : RunError) : Alike r (.error e) (.error e)

theorem Alike.refl {r : α → α → Prop} (hr : ∀ a, r a a) (x : Executing α) : Alike r x x := by
  cases x with
  | ok a => exact .ok (hr a)
  | error e => exact .error e

theorem Alike.bind (hx : Alike r x y) (hf : ∀ a b, r a b → Alike q (f a) (g b)) :
    Alike q (x >>= f) (y >>= g) := by
  cases hx with
  | ok h => exact hf _ _ h
  | error e => exact .error e

end Executing

open Executing

/-! ### A body and its split form -/

namespace Body

variable {c d : Body} {b s t new : BlockId} {i : InstrId} {op : Operation} {x y : Block}
  {index : Nat} {l l' : List InstrId} {jumps : List BlockId}

/-- Control goes through `d` as through `c`, except that the instruction `jump` leads it from the head
of a block to its tail, which is the block `new`. -/
structure Halving (c d : Body) where
  block : BlockId
  new : BlockId
  jump : InstrId
  head : List InstrId
  tail : List InstrId
  arranged : c.Arranged
  controlled : c.Controlled
  method : d.method = c.method
  entry : d.entry = c.entry
  operation : ∀ {i op}, c.operation i = .ok op → d.operation i = .ok op
  operation_jump : d.operation jump = .ok (.goto new)
  whole : ∃ x, c.block block = .ok x ∧ x.instructions = head ++ tail
  new_ne : new ≠ block
  tail_ne_nil : tail ≠ []
  tail_block : ∃ z, d.block new = .ok z ∧ z.instructions = tail ∧ z.phis = []
  old_block : ∀ {s y}, c.block s = .ok y →
    ∃ z, d.block s = .ok z ∧ z.instructions = if s = block then head ++ [jump] else y.instructions
  /-- Phis read the same when control comes from where it would have come. -/
  inputs : ∀ {q s y z}, c.Jumps q s → c.block s = .ok y → d.block s = .ok z →
    ∃ edge, y.predecessors.idxOf? q = some edge ∧
      z.predecessors.idxOf? (if q = block then new else q) = some edge ∧
      List.Forall₂ (fun phi phi' => phi'.out = phi.out ∧
        phi'.operands[edge]? = phi.operands[edge]?) y.phis z.phis

/-- Renaming an entry of a list to something new leaves it in its place. -/
private theorem idxOf?_rename {preds : List BlockId} {q : BlockId} (hnew : new ∉ preds)
    (hq : q ∈ preds) :
    (preds.map fun p => if p = b then new else p).idxOf? (if q = b then new else q) =
      preds.idxOf? q := by
  induction preds with
  | nil => simp at hq
  | cons p preds ih =>
    have hpnew : p ≠ new := fun h => hnew (by simp [h])
    have hsame : (if p = b then new else p) = (if q = b then new else q) ↔ p = q := by
      have hqnew : q ≠ new := fun h => hnew (h ▸ hq)
      split <;> split <;> simp_all [eq_comm]
    rw [List.map_cons, List.idxOf?_cons, List.idxOf?_cons]
    by_cases hpq : p = q
    · simp [hpq]
    · rw [beq_false_of_ne hpq, beq_false_of_ne (mt hsame.1 hpq),
        ih (fun h => hnew (List.mem_cons_of_mem _ h)) ((List.mem_cons.1 hq).resolve_left (Ne.symm hpq))]

section Splitted

variable (hc : c.Controlled) (hx : c.block b = .ok x) (hindex : index < x.instructions.length)
  (hjumps : c.normalSuccessors b = .ok jumps)
include hc hx hjumps

/-- The edges that jumps take into a block, and what its phis read there. -/
theorem inputs_splitted {q : BlockId} {z : Block} (hedge : c.Jumps q s) (hy : c.block s = .ok y)
    (hz : (c.splitted b index x jumps).block s = .ok z) :
    ∃ edge, y.predecessors.idxOf? q = some edge ∧
      z.predecessors.idxOf? (if q = b then ⟨c.blocks.length⟩ else q) = some edge ∧
      List.Forall₂ (fun phi phi' => phi'.out = phi.out ∧
        phi'.operands[edge]? = phi.operands[edge]?) y.phis z.phis := by
  have hnew : (⟨c.blocks.length⟩ : BlockId) ≠ b := (hasBlock_of_block hx).ne_next.symm
  obtain ⟨y', hy', hpred⟩ := hc.symmetric_out (.inl hedge)
  obtain rfl := Except.ok.inj (hy.symm.trans hy')
  obtain ⟨edge, hfound⟩ : ∃ edge, y.predecessors.idxOf? q = some edge :=
    Option.isSome_iff_exists.1 (by simpa using hpred)
  refine ⟨edge, hfound, ?_⟩
  -- of the block only its edges matter, which are the relinked ones also in the split block
  suffices hrelinked : (relinked b ⟨c.blocks.length⟩ jumps x.handlers s y).predecessors.idxOf?
        (if q = b then ⟨c.blocks.length⟩ else q) = some edge ∧
      List.Forall₂ (fun phi phi' => phi'.out = phi.out ∧
        phi'.operands[edge]? = phi.operands[edge]?) y.phis
        (relinked b ⟨c.blocks.length⟩ jumps x.handlers s y).phis by
    rw [block_splitted_old hy] at hz
    obtain rfl := Except.ok.inj hz
    by_cases hsb : s = b
    · rw [if_pos hsb]
      exact hrelinked
    · rw [if_neg hsb]
      exact hrelinked
  have hfresh : (⟨c.blocks.length⟩ : BlockId) ∉ y.predecessors := by
    intro hmem
    obtain ⟨z', hz'⟩ := (hc.symmetric_in hy _ hmem).exists_block
    exact (hasBlock_of_block hz').ne_next rfl
  by_cases hs : s ∈ jumps
  · rw [relinked_of_mem hnew hs]
    refine ⟨(idxOf?_rename hfresh hpred).trans hfound, ?_⟩
    exact List.forall₂_same.2 fun _ _ => ⟨rfl, rfl⟩
  · have hqb : q ≠ b := by
      rintro rfl
      exact hs ((mem_normalSuccessors hjumps).2 hedge)
    rw [relinked_of_notMem hs, if_neg hqb]
    cases hidx : y.predecessors.idxOf? b with
    | none =>
      rw [iterate_shareEdge_of_notMem (List.idxOf?_eq_none_iff.1 hidx)]
      exact ⟨hfound, List.forall₂_same.2 fun _ _ => ⟨rfl, rfl⟩⟩
    | some edge' =>
      rw [iterate_shareEdge_of_idxOf? hidx]
      constructor
      · simp only [List.idxOf?] at hfound ⊢
        rw [List.findIdx?_append, hfound]
        rfl
      · rw [List.forall₂_map_right_iff]
        refine List.forall₂_same.2 fun phi hphi => ⟨rfl, List.getElem?_append_left ?_⟩
        rw [hc.arity hy phi hphi]
        exact (List.idxOf?_eq_some_iff.1 hfound).1

include hindex

def halvingSplitted (hA : c.Arranged) : Halving c (c.splitted b index x jumps) where
  block := b
  new := ⟨c.blocks.length⟩
  jump := ⟨c.instructions.length⟩
  head := x.instructions.take index
  tail := x.instructions.drop index
  arranged := hA
  controlled := hc
  method := rfl
  entry := rfl
  operation hop := operation_splitted.2 (.inl hop)
  operation_jump := operation_splitted.2 (.inr ⟨rfl, rfl⟩)
  whole := ⟨x, hx, (List.take_append_drop index x.instructions).symm⟩
  new_ne := (hasBlock_of_block hx).ne_next.symm
  tail_ne_nil := by
    rw [ne_eq, List.drop_eq_nil_iff]
    omega
  tail_block := ⟨_, block_splitted_tail, rfl, rfl⟩
  old_block {s y} hy := by
    refine ⟨_, block_splitted_old hy, ?_⟩
    by_cases hs : s = b
    · subst hs
      obtain rfl := Except.ok.inj (hx.symm.trans hy)
      simp
    · simp [hs]
  inputs hedge hy hz := inputs_splitted hc hx hjumps hedge hy hz

end Splitted

/-- A block of a body without violations can be split at each of its instructions. -/
theorem Controlled.exists_split (hc : c.Controlled) (hA : c.Arranged) (hx : c.block b = .ok x)
    (hindex : index < x.instructions.length) :
    ∃ new d, c.split b index = .ok (new, d) ∧ Nonempty (Halving c d) := by
  obtain ⟨jumps, hjumps⟩ := hA.exists_normalSuccessors hx
  refine ⟨_, _, split_eq_ok hx hindex ?_ hjumps ?_ ?_, ⟨halvingSplitted hc hx hindex hjumps hA⟩⟩
  · exact fun i hi => exists_instruction_iff.1 ((hA.exists_instruction hx hi).imp fun _ h => h.1)
  · exact fun s hs => hc.closed b s (.inl ((mem_normalSuccessors hjumps).1 hs))
  · exact fun h hh => hc.closed b h.target (.inr ⟨x, hx, h, hh, rfl⟩)

namespace Halving

/-- Where control stands in a block of the whole body and in one of the split body, and what is left
of these blocks. -/
inductive Halfway (H : Halving c d) : BlockId → List InstrId → BlockId → List InstrId → Prop
  | other {s : BlockId} {y : Block} {l : List InstrId} (hs : s ≠ H.block) (hy : c.block s = .ok y)
      (hl : l <:+ y.instructions) : H.Halfway s l s l
  | head {l : List InstrId} (hl : l <:+ H.head) :
      H.Halfway H.block (l ++ H.tail) H.block (l ++ [H.jump])
  | tail {l : List InstrId} (hl : l <:+ H.tail) : H.Halfway H.block l H.new l

variable (H : Halving c d)

/-- Both sides start an old block together. -/
theorem halfway_start {z : Block} (hy : c.block t = .ok y) (hz : d.block t = .ok z) :
    H.Halfway t y.instructions t z.instructions ∧ y.instructions ≠ [] ∧ z.instructions ≠ [] := by
  have hne := H.controlled.instructions_ne_nil hy
  obtain ⟨z', hz', hinstructions⟩ := H.old_block hy
  obtain rfl := Except.ok.inj (hz.symm.trans hz')
  by_cases ht : t = H.block
  · subst ht
    obtain ⟨x, hx, hparts⟩ := H.whole
    obtain rfl := Except.ok.inj (hx.symm.trans hy)
    rw [if_pos rfl] at hinstructions
    refine ⟨?_, hne, by simp [hinstructions]⟩
    rw [hinstructions, hparts]
    exact .head List.suffix_rfl
  · rw [if_neg ht] at hinstructions
    rw [hinstructions]
    exact ⟨.other ht hy List.suffix_rfl, hne, hne⟩

theorem Halfway.suffix {H : Halving c d} (hw : H.Halfway s l t l') :
    ∃ y, c.block s = .ok y ∧ l <:+ y.instructions := by
  obtain ⟨x, hx, hparts⟩ := H.whole
  cases hw with
  | other _ hy hl => exact ⟨_, hy, hl⟩
  | head hl =>
    obtain ⟨front, hfront⟩ := hl
    exact ⟨x, hx, front, by rw [hparts, ← hfront, List.append_assoc]⟩
  | tail hl => exact ⟨x, hx, hparts ▸ hl.trans (List.suffix_append _ _)⟩

/-- The split side has come to the end of the head, or both sides are before the same instruction,
which either is the last of the block on both sides or on none. -/
theorem Halfway.next {H : Halving c d} (hw : H.Halfway s (i :: l) t l') :
    (s = H.block ∧ i :: l = H.tail ∧ t = H.block ∧ l' = [H.jump]) ∨
      ∃ op, c.operation i = .ok op ∧
        ((op.isTerminator = false ∧ l ≠ [] ∧ ∃ r, l' = i :: r ∧ r ≠ [] ∧ H.Halfway s l t r) ∨
          (op.isTerminator = true ∧ l = [] ∧ l' = [i] ∧ t = (if s = H.block then H.new else s) ∧
            ∀ q ∈ op.targets, c.Jumps s q)) := by
  obtain ⟨y, hy, hl⟩ := hw.suffix
  obtain ⟨op, hop⟩ := H.arranged.exists_operation hy (hl.subset List.mem_cons_self)
  have hiff := H.controlled.terminates_iff hy hl hop
  have htargets : l = [] → ∀ q ∈ op.targets, c.Jumps s q := by
    rintro rfl q hq
    obtain ⟨front, hfront⟩ := hl
    exact ⟨y, i, op, hy, by simp [← hfront], hop, hq⟩
  -- both sides have the instruction, and the same is left of the block
  have hlevel : t = (if s = H.block then H.new else s) → H.Halfway s l t l →
      (op.isTerminator = false ∧ l ≠ [] ∧ ∃ r, i :: l = i :: r ∧ r ≠ [] ∧ H.Halfway s l t r) ∨
        (op.isTerminator = true ∧ l = [] ∧ i :: l = [i] ∧
          t = (if s = H.block then H.new else s) ∧ ∀ q ∈ op.targets, c.Jumps s q) := by
    intro ht hnext
    by_cases hnil : l = []
    · exact .inr ⟨hiff.2 hnil, hnil, by rw [hnil], ht, htargets hnil⟩
    · exact .inl ⟨by simpa [hnil] using hiff, hnil, l, rfl, hnil, hnext⟩
  generalize hrest : i :: l = rest at hw
  cases hw with
  | other hs hy' hl' =>
    subst hrest
    exact .inr ⟨op, hop, hlevel (if_neg hs).symm (.other hs hy' ((List.suffix_cons i l).trans hl'))⟩
  | @head front hl' =>
    cases front with
    | nil => exact .inl ⟨rfl, rfl, rfl, rfl⟩
    | cons j front =>
      obtain ⟨rfl, rfl⟩ := List.cons.inj hrest
      have hne : front ++ H.tail ≠ [] := by simp [H.tail_ne_nil]
      exact .inr ⟨op, hop, .inl ⟨by simpa [hne] using hiff, hne, front ++ [H.jump], rfl, by simp,
        .head ((List.suffix_cons i front).trans hl')⟩⟩
  | tail hl' =>
    subst hrest
    exact .inr ⟨op, hop, hlevel (if_pos rfl).symm (.tail ((List.suffix_cons i l).trans hl'))⟩

end Halving

end Body

/-! ### Frames -/

namespace Frame

variable {f g : Frame} {v : ValueId} {edge : Nat} {l : List (ValueId × RuntimeValue)}

/-- The frames read the same. -/
structure SameStore (f g : Frame) : Prop where
  method : g.body.method = f.body.method
  arguments : g.arguments = f.arguments
  values : g.values = f.values

namespace SameStore

variable (h : SameStore f g)
include h

theorem read : g.read v = f.read v := by
  unfold Frame.read
  rw [h.values]

theorem put (out : Option ValueId) (a : RuntimeValue) : SameStore (f.put out a) (g.put out a) := by
  cases out with
  | none => exact h
  | some v => exact ⟨h.method, h.arguments, by simp [Frame.put, write, h.values]⟩

theorem writeAll : SameStore (f.writeAll l) (g.writeAll l) := by
  induction l generalizing f g with
  | nil => exact h
  | cons e l ih => exact ih (h.put (some e.1) e.2)

/-- Phis with the same operands on an edge read the same there. -/
theorem mapM_readPhi {phis phis' : List Phi}
    (hphis : List.Forall₂ (fun phi phi' => phi'.out = phi.out ∧
      phi'.operands[edge]? = phi.operands[edge]?) phis phis') :
    phis'.mapM (g.readPhi edge) = phis.mapM (f.readPhi edge) := by
  induction hphis with
  | nil => rfl
  | cons hphi _ ih =>
    rw [List.mapM_cons, List.mapM_cons, ih]
    simp only [readPhi, hphi.1, hphi.2, h.read]

theorem effect {hierarchy : Hierarchy} {op : Operation} :
    op.effect hierarchy g = op.effect hierarchy f := by
  cases op with
  | ret value => cases value <;> simp [Operation.effect, h.read]
  | _ => simp [Operation.effect, h.read, h.arguments, h.method]

end SameStore

end Frame

open Body Devirt.Frame

section Halving

variable {c d : Body} {H : Halving c d} {f g : Frame} {op : Operation} {t : BlockId}

/-- The frames belong to the whole body and to the split one, and control stands in the same place. -/
structure Frame.Crosses (H : Halving c d) (f g : Frame) : Prop where
  store : f.SameStore g
  body : f.body = c
  body' : g.body = d
  place : H.Halfway f.block f.rest g.block g.rest
  rest : f.rest ≠ []
  rest' : g.rest ≠ []

/-- The frames are equal, or they belong to the whole body and to the split one. -/
inductive Frame.Mirrors (H : Halving c d) : Frame → Frame → Prop
  | same (f : Frame) : Mirrors H f f
  | crosses {f g : Frame} (h : Crosses H f g) : Mirrors H f g

/-- What is put into the frames does not move them. -/
theorem Frame.Mirrors.settle_put (hM : Mirrors H f g) (out : Option ValueId) (a : RuntimeValue) :
    Alike (Mirrors H) (f.put out a).settle (g.put out a).settle := by
  cases hM with
  | same => exact .refl .same _
  | crosses hC =>
    have hcrosses : Crosses H (f.put out a) (g.put out a) := by
      cases out with
      | none => exact hC
      | some v => exact ⟨hC.store.put (some v) a, hC.body, hC.body', hC.place, hC.rest, hC.rest'⟩
    rw [settle_of_rest hcrosses.rest, settle_of_rest hcrosses.rest']
    exact .ok (.crosses hcrosses)

/-- A jump enters the same block with the same values. -/
theorem Frame.settle_mirrors (H : Halving c d) (hstore : f.SameStore g) (hbody : f.body = c)
    (hbody' : g.body = d) (hblock : g.block = if f.block = H.block then H.new else f.block)
    (hjump : c.Jumps f.block t) :
    Alike (Mirrors H) { f with rest := [], next := some t }.settle
      { g with rest := [], next := some t }.settle := by
  obtain ⟨y, hy, -⟩ := H.controlled.symmetric_out (.inl hjump)
  obtain ⟨z, hz, -⟩ := H.old_block hy
  obtain ⟨edge, hedge, hedge', hphis⟩ := H.inputs hjump hy hz
  obtain ⟨hplace, hne, hne'⟩ := H.halfway_start hy hz
  rw [← hblock] at hedge'
  subst hbody hbody'
  have henter : f.enter t = y.phis.mapM (f.readPhi edge) >>= fun inputs =>
      .ok { f.writeAll inputs with block := t, rest := y.instructions, next := none } := by
    simp [enter, ofBody, hy, hedge, Except.mapError]
  have henter' : g.enter t = y.phis.mapM (f.readPhi edge) >>= fun inputs =>
      .ok { g.writeAll inputs with block := t, rest := z.instructions, next := none } := by
    simp [enter, ofBody, hz, hedge', Except.mapError, hstore.mapM_readPhi hphis]
  simp only [settle, enter_with, List.isEmpty_nil, if_true, henter, henter']
  cases y.phis.mapM (f.readPhi edge) with
  | error e => exact .error e
  | ok inputs =>
    simp only [ok_bind, expectRest, List.isEmpty_iff, hne, hne', if_false]
    have hstore' : (f.writeAll inputs).SameStore (g.writeAll inputs) := hstore.writeAll
    exact .ok (.crosses ⟨⟨hstore'.method, hstore'.arguments, hstore'.values⟩,
      (writeAll_frame inputs).1, (writeAll_frame inputs).1, hplace, hne, hne'⟩)

/-- At the end of the head control passes to the tail. -/
theorem Frame.settle_tail (H : Halving c d) (hbody' : g.body = d) :
    { g with rest := [], next := some H.new }.settle =
      .ok { g with block := H.new, rest := H.tail, next := none } := by
  obtain ⟨z, hz, hinstructions, hphis⟩ := H.tail_block
  subst hbody'
  refine Frame.settle_jump.2 ⟨?_, H.tail_ne_nil⟩
  cases hidx : z.predecessors.idxOf? g.block with
  | none => simp [enter, ofBody, hz, Except.mapError, hidx, hinstructions, writeAll]
  | some edge => simp [enter, ofBody, hz, Except.mapError, hidx, hphis, hinstructions, writeAll]

theorem Frame.start_mirrors (H : Halving c d) (arguments : List RuntimeValue) :
    Alike (Mirrors H) (Frame.start c arguments) (Frame.start d arguments) := by
  obtain ⟨y, hy⟩ := exists_block_iff.2 H.arranged.entry
  obtain ⟨z, hz, -⟩ := H.old_block hy
  obtain ⟨hplace, hne, hne'⟩ := H.halfway_start hy hz
  have hentry : d.block d.entry = .ok z := H.entry ▸ hz
  simp only [Frame.start, ofBody, hy, hentry, Except.mapError, ok_bind, expectRest,
    List.isEmpty_iff, hne, hne', if_false]
  refine .ok (.crosses ⟨⟨H.method, rfl, rfl⟩, rfl, rfl, ?_, hne, hne'⟩)
  rw [H.entry]
  exact hplace

end Halving

/-! ### Machines -/

/-- The programs differ in a body that one has whole and the other split. -/
structure Program.HalvedBy (p p' : Program) (c d : Body) : Prop where
  hierarchy : p'.hierarchy = p.hierarchy
  body : ∀ method, Option.Rel (fun e e' => e = e' ∨ (e = c ∧ e' = d)) (p.body? method)
    (p'.body? method)

namespace Machine

variable {p p' : Program} {c d : Body} {H : Halving c d} {m m' : Machine} {f g : Frame}
  {op : Operation} {out : Option ValueId} {i : InstrId} {rest : List InstrId}

structure Mirrors (H : Halving c d) (m m' : Machine) : Prop where
  frame : Frame.Mirrors H m.frame m'.frame
  callers : List.Forall₂ (fun w w' => Frame.Mirrors H w.1 w'.1 ∧ w'.2 = w.2) m.callers m'.callers
  calls : m'.calls = m.calls

inductive ProgressMirrors (H : Halving c d) : Progress → Progress → Prop
  | running {m m' : Machine} (h : Mirrors H m m') : ProgressMirrors H (.running m) (.running m')
  | finished (calls : List MethodRef) : ProgressMirrors H (.finished calls) (.finished calls)

variable (hm : Mirrors H m m')
include hm

theorem continueWith_mirrors (hf : Alike (Frame.Mirrors H) f.settle g.settle) :
    Alike (ProgressMirrors H) (m.continueWith f) (m'.continueWith g) :=
  hf.bind fun _ _ h => .ok (.running ⟨h, hm.callers, hm.calls⟩)

theorem leave_mirrors (result : RuntimeValue) :
    Alike (ProgressMirrors H) (m.leave result) (m'.leave result) := by
  have hcallers := hm.callers
  unfold leave
  generalize m.callers = callers at hcallers
  generalize m'.callers = callers' at hcallers
  cases hcallers with
  | nil =>
    rw [hm.calls]
    exact .ok (.finished _)
  | @cons w w' callers callers' hw hcallers =>
    obtain ⟨f, out⟩ := w
    obtain ⟨g, out'⟩ := w'
    obtain ⟨hfg, rfl⟩ : Frame.Mirrors H f g ∧ out' = out := hw
    have hrest : Mirrors H { m with callers } { m' with callers := callers' } :=
      ⟨hm.frame, hcallers, hm.calls⟩
    exact continueWith_mirrors hrest (hfg.settle_put out' result)

variable (hp : p.HalvedBy p' c d)
include hp

theorem call_mirrors (hfg : Frame.Mirrors H f g) (target : MethodRef)
    (arguments : List RuntimeValue) :
    Alike (ProgressMirrors H) (m.call p f out target arguments)
      (m'.call p' g out target arguments) := by
  have hm' : Mirrors H { m with calls := target :: m.calls }
      { m' with calls := target :: m'.calls } := ⟨hm.frame, hm.callers, by rw [hm.calls]⟩
  have hbody := hp.body target
  unfold call
  generalize p.body? target = o at hbody
  generalize p'.body? target = o' at hbody
  cases hbody with
  | none => exact continueWith_mirrors hm' (hfg.settle_put out .null)
  | @some e e' he =>
    have hdepth : m'.callers.length = m.callers.length := hm.callers.length_eq.symm
    dsimp only
    rw [hdepth]
    split
    · exact .error _
    · have hstart : Alike (Frame.Mirrors H) (Frame.start e arguments) (Frame.start e' arguments) := by
        rcases he with rfl | ⟨rfl, rfl⟩
        · exact .refl .same _
        · exact start_mirrors H arguments
      exact hstart.bind fun _ _ hframe =>
        .ok (.running ⟨hframe, .cons ⟨hfg, rfl⟩ hm.callers, hm'.calls⟩)

/-- The same operation does the same in both frames, from which it has already been taken. -/
theorem execute_mirrors (hstore : f.SameStore g)
    (hstay : op.isTerminator = false → Frame.Mirrors H f g)
    (hjump : ∀ t ∈ op.targets, Alike (Frame.Mirrors H) { f with next := some t }.settle
      { g with next := some t }.settle) :
    Alike (ProgressMirrors H) (m.execute p f op) (m'.execute p' g op) := by
  by_cases hcall : ∃ call, op = .call call
  · obtain ⟨call, rfl⟩ := hcall
    have hread : g.read = f.read := funext fun _ => hstore.read
    have hcontext : g.body.context = f.body.context := congrArg MethodRef.holder hstore.method
    simp only [execute, hread, hcontext, hp.hierarchy]
    refine (Alike.refl (r := Eq) (fun _ => rfl) _).bind fun arguments _ heq => ?_
    subst heq
    refine (Alike.refl (r := Eq) (fun _ => rfl) _).bind fun target _ heq => ?_
    subst heq
    exact call_mirrors hm hp (hstay rfl) target arguments
  · have hother : ∀ call, op ≠ .call call := fun call heq => hcall ⟨call, heq⟩
    rw [execute_eq_perform hother, execute_eq_perform hother, hp.hierarchy, hstore.effect]
    cases heffect : op.effect p.hierarchy f with
    | error e => exact .error e
    | ok e =>
      have hhas := Operation.has_of_effect heffect
      cases e with
      | write v a => exact continueWith_mirrors hm ((hstay hhas.2).settle_put (some v) a)
      | jump t => exact continueWith_mirrors hm (hjump t hhas.2.2)
      | leave result => exact leave_mirrors hm result

/-- Two machines in the whole and in the split body step alike, unless one has come to the end of the
head. -/
theorem step_crosses (hC : Crosses H m.frame m'.frame) :
    Alike (ProgressMirrors H) (m.step p) (m'.step p') ∨
      (m.frame.block = H.block ∧ m.frame.rest = H.tail ∧ m'.frame.block = H.block ∧
        m'.frame.rest = [H.jump]) := by
  obtain ⟨i, l, hrest⟩ := List.exists_cons_of_ne_nil hC.rest
  have hplace := hC.place
  rw [hrest] at hplace
  rcases hplace.next with ⟨hs, htail, ht, hl'⟩ | ⟨op, hop, hnext⟩
  · exact .inr ⟨hs, hrest.trans htail, ht, hl'⟩
  have hop₁ : m.frame.body.operation i = .ok op := hC.body ▸ hop
  have hop₂ : m'.frame.body.operation i = .ok op := hC.body' ▸ H.operation hop
  have hstore : ∀ l l', SameStore { m.frame with rest := l } { m'.frame with rest := l' } :=
    fun _ _ => ⟨hC.store.method, hC.store.arguments, hC.store.values⟩
  rcases hnext with ⟨hinner, hne, r, hl', hne', hw⟩ | ⟨hterm, hnil, hl', ht, hjumps⟩
  · rw [step_eq_execute hrest hop₁, step_eq_execute hl' hop₂]
    refine .inl (execute_mirrors hm hp (hstore _ _) (fun _ => ?_) fun t ht => ?_)
    · exact .crosses ⟨hstore _ _, hC.body, hC.body', hw, hne, hne'⟩
    · simp [Operation.targets_eq_nil hinner] at ht
  · subst hnil
    rw [step_eq_execute hrest hop₁, step_eq_execute hl' hop₂]
    refine .inl (execute_mirrors hm hp (hstore _ _) (fun hinner => ?_) fun t ht' => ?_)
    · simp [hterm] at hinner
    · exact settle_mirrors H (hstore _ _) hC.body hC.body' ht (hjumps t ht')

/-- Both machines step alike, if need be after the one of the split program has passed from the head
to the tail. -/
theorem step_mirrors :
    Alike (ProgressMirrors H) (m.step p) (m'.step p') ∨
      ∃ m₁, m'.step p' = .ok (.running m₁) ∧ Mirrors H m m₁ ∧
        Alike (ProgressMirrors H) (m.step p) (m₁.step p') := by
  have hframe := hm.frame
  generalize hf : m.frame = f at hframe
  generalize hg : m'.frame = g at hframe
  cases hframe with
  | same =>
    left
    unfold step
    rw [hf, hg]
    split
    · exact .error _
    · refine (Alike.refl (r := Eq) (fun _ => rfl) _).bind fun op _ heq => ?_
      subst heq
      exact execute_mirrors hm hp ⟨rfl, rfl, rfl⟩ (fun _ => .same _) fun _ _ => .refl .same _
  | crosses hC =>
    subst hf hg
    rcases step_crosses hm hp hC with hstep | ⟨hs, htail, ht, hjump⟩
    · exact .inl hstep
    right
    have hop : m'.frame.body.operation H.jump = .ok (.goto H.new) := hC.body' ▸ H.operation_jump
    have hcross : Crosses H m.frame { m'.frame with block := H.new, rest := H.tail, next := none } := by
      refine ⟨⟨hC.store.method, hC.store.arguments, hC.store.values⟩, hC.body, hC.body', ?_, hC.rest,
        H.tail_ne_nil⟩
      rw [hs, htail]
      exact .tail List.suffix_rfl
    have hm₁ : Mirrors H m
        { m' with frame := { m'.frame with block := H.new, rest := H.tail, next := none } } :=
      ⟨.crosses hcross, hm.callers, hm.calls⟩
    refine ⟨_, ?_, hm₁, (step_crosses hm₁ hp hcross).resolve_right fun h => H.new_ne h.2.2.1⟩
    rw [step_eq_execute hjump hop]
    simp only [execute, continueWith, settle_tail H hC.body', ok_bind, pure_eq_ok]

omit hm hp

/-! ### Runs -/

/-- The run from the machine takes this number of steps and has this outcome. -/
inductive Ends (p : Program) : Machine → Nat → Executing (List MethodRef) → Prop
  | error {m : Machine} {e : RunError} (h : m.step p = .error e) : Ends p m 1 (.error e)
  | finished {m : Machine} {calls : List MethodRef} (h : m.step p = .ok (.finished calls)) :
      Ends p m 1 (.ok calls)
  | running {m m₁ : Machine} {n : Nat} {r : Executing (List MethodRef)}
      (h : m.step p = .ok (.running m₁)) (hrest : Ends p m₁ n r) : Ends p m (n + 1) r

variable {n n' steps limit : Nat} {r r' : Executing (List MethodRef)}

theorem Ends.run_eq (h : Ends p m n r) (hn : n ≤ steps) : run p limit steps m = r := by
  induction h generalizing steps with
  | error h | finished h =>
    obtain ⟨k, rfl⟩ := Nat.exists_eq_add_of_le' hn
    rw [run, h]
    rfl
  | running h _ ih =>
    obtain ⟨k, rfl⟩ := Nat.exists_eq_add_of_le' (Nat.le_of_add_left_le hn)
    rw [run, h]
    exact ih (by omega)

theorem exists_ends (h : run p limit steps m ≠ .error (.stepLimit limit)) :
    ∃ n ≤ steps, Ends p m n (run p limit steps m) := by
  induction steps generalizing m with
  | zero => exact absurd rfl h
  | succ steps ih =>
    unfold run at h ⊢
    cases hstep : m.step p with
    | error e => exact ⟨1, by omega, .error hstep⟩
    | ok progress =>
      rw [hstep] at h
      cases progress with
      | finished calls => exact ⟨1, by omega, .finished hstep⟩
      | running m₁ =>
        obtain ⟨n, hn, hends⟩ := ih h
        exact ⟨n + 1, by omega, .running hstep hends⟩

/-- A run has one outcome. -/
theorem Ends.unique (h : Ends p m n r) (h' : Ends p m n' r') : r = r' := by
  have hrun : run p 0 (n + n') m = r := h.run_eq (by omega)
  exact hrun.symm.trans (h'.run_eq (by omega))

variable (hp : p.HalvedBy p' c d)
include hp

/-- The run through the split body ends as the other one does, after at most twice as many steps. -/
theorem Ends.mirrored (hm : Mirrors H m m') (h : Ends p m n r) : ∃ n' ≤ 2 * n, Ends p' m' n' r := by
  -- the step that the split program may make first
  have hcatch : ∀ {m m'}, Mirrors H m m' → ∃ m₁ k, k ≤ 1 ∧
      Alike (ProgressMirrors H) (m.step p) (m₁.step p') ∧
        ∀ {n r}, Ends p' m₁ n r → Ends p' m' (n + k) r := by
    intro m m' hm
    rcases step_mirrors hm hp with hstep | ⟨m₁, hfirst, -, hstep⟩
    · exact ⟨m', 0, by omega, hstep, id⟩
    · exact ⟨m₁, 1, by omega, hstep, .running hfirst⟩
  induction h generalizing m' with
  | error h =>
    obtain ⟨m₁, k, hk, hstep, hends⟩ := hcatch hm
    rw [h] at hstep
    generalize hx : m₁.step p' = x at hstep
    cases hstep
    exact ⟨1 + k, by omega, hends (.error hx)⟩
  | finished h =>
    obtain ⟨m₁, k, hk, hstep, hends⟩ := hcatch hm
    rw [h] at hstep
    generalize hx : m₁.step p' = x at hstep
    cases hstep with
    | ok hprogress =>
      cases hprogress
      exact ⟨1 + k, by omega, hends (.finished hx)⟩
  | running h _ ih =>
    obtain ⟨m₁, k, hk, hstep, hends⟩ := hcatch hm
    rw [h] at hstep
    generalize hx : m₁.step p' = x at hstep
    cases hstep with
    | ok hprogress =>
      cases hprogress with
      | running hnext =>
        obtain ⟨n', hn', hrest⟩ := ih hnext
        exact ⟨n' + 1 + k, by omega, hends (.running hx hrest)⟩

/-- The run through the whole body ends as the other one does, after no more steps. -/
theorem Ends.of_mirrored (hm : Mirrors H m m') (h : Ends p' m' n r) : ∃ n' ≤ n, Ends p m n' r := by
  induction h generalizing m with
  | error h =>
    rcases step_mirrors hm hp with hstep | ⟨m₁, hfirst, -⟩
    · rw [h] at hstep
      generalize hx : m.step p = x at hstep
      cases hstep
      exact ⟨1, by omega, .error hx⟩
    · simp [h] at hfirst
  | finished h =>
    rcases step_mirrors hm hp with hstep | ⟨m₁, hfirst, -⟩
    · rw [h] at hstep
      generalize hx : m.step p = x at hstep
      cases hstep with
      | ok hprogress =>
        cases hprogress
        exact ⟨1, by omega, .finished hx⟩
    · simp [h] at hfirst
  | running h _ ih =>
    rcases step_mirrors hm hp with hstep | ⟨m₁, hfirst, hm₁, -⟩
    · rw [h] at hstep
      generalize hx : m.step p = x at hstep
      cases hstep with
      | ok hprogress =>
        cases hprogress with
        | running hnext =>
          obtain ⟨n', hn', hrest⟩ := ih hnext
          exact ⟨n' + 1, by omega, .running hx hrest⟩
    · obtain rfl : _ = m₁ := by simpa using h.symm.trans hfirst
      obtain ⟨n', hn', hrest⟩ := ih hm₁
      exact ⟨n', by omega, hrest⟩

end Machine

/-! ### Programs -/

namespace Program

variable {p p' : Program} {c d : Body} {method : MethodRef} {arguments : List RuntimeValue}
  {limit limit' n : Nat}

/-- Both programs have the same trace at once, or they run machines that mirror each other. -/
theorem HalvedBy.traceOf_cases (hp : p.HalvedBy p' c d) (H : Halving c d) (method : MethodRef)
    (arguments : List RuntimeValue) :
    (∃ r, ∀ limit, p.traceOf limit method arguments = r ∧ p'.traceOf limit method arguments = r) ∨
      ∃ (m m' : Machine) (view : List MethodRef → List String), Machine.Mirrors H m m' ∧ ∀ limit,
        p.traceOf limit method arguments = view <$> Machine.run p limit limit m ∧
        p'.traceOf limit method arguments = view <$> Machine.run p' limit limit m' := by
  have hbody := hp.body method
  unfold traceOf callsOf
  generalize p.body? method = o at hbody
  generalize p'.body? method = o' at hbody
  cases hbody with
  | none => exact .inl ⟨_, fun _ => ⟨rfl, rfl⟩⟩
  | @some e e' he =>
    have hstart : Alike (Frame.Mirrors H) (Frame.start e arguments) (Frame.start e' arguments) := by
      rcases he with rfl | ⟨rfl, rfl⟩
      · exact .refl .same _
      · exact start_mirrors H arguments
    dsimp only
    generalize Frame.start e arguments = x at hstart
    generalize Frame.start e' arguments = x' at hstart
    cases hstart with
    | error e => exact .inl ⟨.error e, fun _ => ⟨rfl, rfl⟩⟩
    | @ok f g hframe =>
      refine .inr ⟨{ frame := f, calls := [method] }, { frame := g, calls := [method] },
        fun calls => calls.reverse.map (·.qualifiedName), ⟨hframe, .nil, rfl⟩, fun limit => ⟨?_, ?_⟩⟩
      · cases hrun : Machine.run p limit limit { frame := f, calls := [method] } <;> simp [hrun]
      · cases hrun : Machine.run p' limit limit { frame := g, calls := [method] } <;> simp [hrun]

/-- Puts another body in the place of the body with the given number. -/
def setBody (p : Program) (n : Nat) (d : Body) : Program := { p with bodies := p.bodies.set n d }

theorem halvedBy_setBody (hbody : p.bodies[n]? = some c) (hmethod : d.method = c.method) :
    p.HalvedBy (p.setBody n d) c d := by
  have hset : ∀ (l : List Body) (n : Nat), l[n]? = some c →
      List.Forall₂ (fun e e' => e = e' ∨ (e = c ∧ e' = d)) l (l.set n d) := by
    intro l
    induction l with
    | nil => simp
    | cons e l ih =>
      intro n hn
      cases n with
      | zero => exact .cons (.inr ⟨by simpa using hn, rfl⟩) (List.forall₂_same.2 fun _ _ => .inl rfl)
      | succ n => exact .cons (.inl rfl) (ih n (by simpa using hn))
  refine ⟨rfl, fun method => ?_⟩
  have hlists := List.forall₂_reverse_iff.2 (hset p.bodies n hbody)
  unfold body? setBody
  generalize p.bodies.reverse = l at hlists
  generalize (p.bodies.set n d).reverse = l' at hlists
  induction hlists with
  | nil => exact .none
  | @cons e e' l l' he _ ih =>
    have hsame : e'.method = e.method := by
      rcases he with rfl | ⟨rfl, rfl⟩
      · rfl
      · exact hmethod
    rw [List.find?_cons, List.find?_cons, hsame]
    split
    · exact .some he
    · exact ih

/-- Splitting a block of a valid body does not change what the program does. Runs through the whole
and through the split body have the same trace or fail for the same reason, whenever neither exceeds
its limit. The whole body never needs more steps than the split one, and the split one at most twice
as many. -/
theorem traceOf_split {x : Block} {b : BlockId} {index : Nat} (hbody : p.bodies[n]? = some c)
    (hmade : c.Made) (hvalid : c.violations = .ok []) (hx : c.block b = .ok x)
    (hindex : index < x.instructions.length) :
    ∃ new d, c.split b index = .ok (new, d) ∧ ∀ method arguments,
      (∀ limit limit', p.traceOf limit method arguments ≠ .error (.stepLimit limit) →
        (p.setBody n d).traceOf limit' method arguments ≠ .error (.stepLimit limit') →
          (p.setBody n d).traceOf limit' method arguments = p.traceOf limit method arguments) ∧
      (∀ limit, (p.setBody n d).traceOf limit method arguments ≠ .error (.stepLimit limit) →
        p.traceOf limit method arguments = (p.setBody n d).traceOf limit method arguments) ∧
      ∀ limit, p.traceOf limit method arguments ≠ .error (.stepLimit limit) →
        (p.setBody n d).traceOf (2 * limit) method arguments = p.traceOf limit method arguments := by
  obtain ⟨new, d, hsplit, ⟨H⟩⟩ :=
    (Body.controlled_of_valid hmade.grounded.toArranged hvalid).exists_split
      hmade.grounded.toArranged hx hindex
  have hp := halvedBy_setBody hbody H.method
  refine ⟨new, d, hsplit, fun method arguments => ?_⟩
  rcases hp.traceOf_cases H method arguments with ⟨r, hr⟩ | ⟨m, m', view, hm, hview⟩
  · simp only [hr, implies_true, and_self]
  -- a trace that does not exceed its limit is the outcome of a run that ends within it
  have hends : ∀ {p : Program} {m : Machine} {limit : Nat},
      view <$> Machine.run p limit limit m ≠ .error (.stepLimit limit) →
        ∃ n ≤ limit, Machine.Ends p m n (Machine.run p limit limit m) := by
    intro p m limit hne
    refine Machine.exists_ends fun hrun => hne ?_
    rw [hrun]
    rfl
  simp only [hview]
  refine ⟨fun limit limit' hne hne' => ?_, fun limit hne => ?_, fun limit hne => ?_⟩
  · obtain ⟨k, -, hrun⟩ := hends hne
    obtain ⟨k', -, hrun'⟩ := hends hne'
    obtain ⟨k₁, -, hmirrored⟩ := hrun.mirrored hp hm
    rw [hrun'.unique hmirrored]
  · obtain ⟨k, hk, hrun⟩ := hends hne
    obtain ⟨k₁, hk₁, hmirrored⟩ := hrun.of_mirrored hp hm
    rw [hmirrored.run_eq (by omega)]
  · obtain ⟨k, hk, hrun⟩ := hends hne
    obtain ⟨k₁, hk₁, hmirrored⟩ := hrun.mirrored hp hm
    rw [hmirrored.run_eq (by omega)]

end Program

/-- A block that jumps back to itself, under a handler that it also jumps to. -/
def Body.callingLoop : List DraftStep :=
  [.newBlock, .newBlock, .create ⟨0⟩ "A", .goto ⟨0⟩ ⟨1⟩, .null ⟨1⟩,
    .phi ⟨1⟩ (.ofClass "A" .maybe) [(⟨0⟩, ⟨0⟩), (⟨1⟩, ⟨1⟩)],
    .call ⟨1⟩ .virtual (.plain "A" "g") [⟨0⟩], .handler ⟨1⟩ none ⟨2⟩, .branch ⟨1⟩ ⟨2⟩ ⟨1⟩ ⟨2⟩,
    .ret ⟨2⟩ none]

def Program.ofLoop (c : Body) : Program where
  hierarchy :=
    { defined := [{ name := "A", methods := [
        { signature := { name := "f" } }, { signature := { name := "g" } }] }] }
  entry := .plain "A" "f"
  bodies := [c]

theorem Program.traceOf_split_callingLoop :
    ∃ made c, Body.ofSteps (.plain "A" "f") Body.callingLoop = .ok (made, c) ∧
      c.violations = .ok [] ∧ ∃ new d, c.split ⟨1⟩ 1 = .ok (new, d) ∧
        ((ofLoop c).setBody 0 d).traceOf 18 (.plain "A" "f") [] = .ok ["A::f", "A::g", "A::g"] := by
  obtain ⟨made, c, hwritten, hvalid, ⟨x, hx, hindex⟩, htrace⟩ :
      ∃ made c, Body.ofSteps (.plain "A" "f") Body.callingLoop = .ok (made, c) ∧
        c.violations = .ok [] ∧ (∃ x, c.block ⟨1⟩ = .ok x ∧ 1 < x.instructions.length) ∧
        (ofLoop c).traceOf 9 (.plain "A" "f") [] = .ok ["A::f", "A::g", "A::g"] := by
    decide +kernel
  obtain ⟨new, d, hsplit, hruns⟩ :=
    traceOf_split (p := ofLoop c) (n := 0) rfl (.written hwritten) hvalid hx hindex
  refine ⟨made, c, hwritten, hvalid, new, d, hsplit, ?_⟩
  rw [(hruns (.plain "A" "f") []).2.2 9 (by simp [htrace]), htrace]

end Devirt
