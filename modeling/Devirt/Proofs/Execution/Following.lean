import Devirt.Proofs.Execution.Frames

/-!
How a frame of the rewritten body follows a frame of the original one. What both have left to execute
differs only in the casts and jumps that are new, and so the follower reaches every instruction of
the original after at most one of each.
-/

namespace Devirt

namespace Body

open Devirt.Frame

variable {h : Hierarchy} {c₀ c : Body} {b p q s t : BlockId} {i k : InstrId} {u v w r : ValueId}
  {x x₀ y : Block} {n e : Nat} {name C : TypeName} {op op₀ : Operation} {f f' g g' : Frame}
  {a : RuntimeValue} {l rest rest' : List InstrId}

/-- Bodies in single-assignment form, of which one is a faithful rewriting of the other. -/
structure Refines (h : Hierarchy) (c₀ c : Body) : Prop extends Faithful h c₀ c where
  intact_old : c₀.Intact
  consistent_old : c₀.Consistent
  intact : c.Intact
  consistent : c.Consistent
  rewritten : Rewritten c₀ c

/-! ### What is left to execute -/

/-- The instructions of a block of the original body, together with the casts that are new beside
them, are `l` from some place on, and the rewritten body has `l'` left in its block. Where the block
has been cut, it ends in a jump to the rest of `l`. -/
inductive Ahead (c₀ c : Body) : List InstrId → List InstrId → Prop
  | nil : Ahead c₀ c [] []
  | jump {k i : InstrId} {t : BlockId} {y : Block} {l : List InstrId} (hk : ¬ c₀.HasInstruction k)
      (hop : c.operation k = .ok (.goto t)) (hnew : ¬ c₀.HasBlock t) (hy : c.block t = .ok y)
      (hi : c₀.HasInstruction i) (hins : y.instructions = i :: l) : Ahead c₀ c (i :: l) [k]
  | cons {j : InstrId} {l l' : List InstrId} (hl : Ahead c₀ c l l') : Ahead c₀ c (j :: l) (j :: l')

theorem Ahead.refl (l : List InstrId) : Ahead c₀ c l l := by
  induction l with
  | nil => exact .nil
  | cons j l ih => exact .cons ih

theorem Ahead.append {l l₁ l₂ : List InstrId} (hl : Ahead c₀ c l₁ l₂) :
    Ahead c₀ c (l ++ l₁) (l ++ l₂) := by
  induction l with
  | nil => exact hl
  | cons j l ih => exact .cons ih

/-- The instruction comes next, or a new jump does. -/
def Nears (c₀ c : Body) (i : InstrId) (l : List InstrId) : Prop :=
  (∃ rest, l = i :: rest) ∨ ∃ k t, l = [k] ∧ ¬ c₀.HasInstruction k ∧
    c.operation k = .ok (.goto t) ∧ ¬ c₀.HasBlock t

theorem Ahead.nears {l' : List InstrId} (hl : Ahead c₀ c (i :: l) l') : Nears c₀ c i l' := by
  cases hl with
  | @jump k _ t _ _ hk hop hnew _ _ _ => exact .inr ⟨k, t, rfl, hk, hop, hnew⟩
  | @cons _ _ l' _ => exact .inl ⟨l', rfl⟩

/-- What two frames have left to execute, the second one from the place `n` of its block on. -/
structure Remains (c₀ c : Body) (f f' : Frame) (n : Nat) : Prop where
  place : ∃ y, c.block f'.block = .ok y ∧ f'.rest = y.instructions.drop n
  ahead : ∃ x₀ done l, c₀.block f.block = .ok x₀ ∧ Spells c₀ c x₀ (done ++ l) ∧
    f.rest = c₀.own l ∧ Ahead c₀ c l f'.rest

namespace Remains

theorem place_cons (hM : Remains c₀ c f f' n) (hrest' : f'.rest = k :: rest') :
    ∃ y, c.block f'.block = .ok y ∧ y.instructions[n]? = some k ∧
      rest' = y.instructions.drop (n + 1) := by
  obtain ⟨y, hy, hdrop⟩ := hM.place
  rw [hrest'] at hdrop
  refine ⟨y, hy, ?_, ?_⟩
  · have := congrArg (·[0]?) hdrop
    simpa using this.symm
  · have := congrArg List.tail hdrop
    simpa using this

theorem place_last (hM : Remains c₀ c f f' n) (hrest' : f'.rest = [k]) :
    ∃ y, c.block f'.block = .ok y ∧ y.instructions[n]? = some k ∧
      y.instructions.length = n + 1 := by
  obtain ⟨y, hy, hn, hdrop⟩ := hM.place_cons hrest'
  have hle := List.drop_eq_nil_iff.1 hdrop.symm
  have hlt := (List.getElem?_eq_some_iff.1 hn).1
  exact ⟨y, hy, hn, by omega⟩

/-- Before the next instruction of the original, the follower has at most one cast, which is made
for that instruction, and one jump. -/
theorem cases (hM : Remains c₀ c f f' n) (hrest : f.rest = i :: rest) :
    Nears c₀ c i f'.rest ∨ ∃ k rest', f'.rest = k :: rest' ∧ ¬ c₀.HasInstruction k ∧
      Anchors c₀ c k i ∧ Nears c₀ c i rest' := by
  obtain ⟨x₀, done, l, -, hspells, hl, hahead⟩ := hM.ahead
  rw [hrest] at hl
  cases l with
  | nil => cases hl
  | cons j l =>
    by_cases hj : c₀.HasInstruction j
    · rw [own_cons hj] at hl
      obtain ⟨rfl, -⟩ := List.cons.inj hl
      exact .inl hahead.nears
    · right
      rw [own_cons_of_not hj] at hl
      generalize f'.rest = l' at hahead
      cases hahead with
      | jump _ _ _ _ hi _ => exact absurd hi hj
      | @cons _ _ l' hahead =>
        cases l with
        | nil => cases hl
        | cons j' l =>
          have hanchors := List.isChain_iff_forall_rel_of_append_cons_cons.1 hspells.anchored rfl hj
          have hj' : c₀.HasInstruction j' := by
            obtain ⟨-, -, -, call₀, -, -, hcall, -⟩ := hanchors
            exact hasInstruction_of_operation hcall
          rw [own_cons hj'] at hl
          obtain ⟨rfl, -⟩ := List.cons.inj hl
          exact ⟨j, l', rfl, hj, hanchors, hahead.nears⟩

/-- Both frames have executed the same instruction. -/
theorem advance (hM : Remains c₀ c f f' n) (hi : c₀.HasInstruction i) (hrest : f.rest = i :: rest)
    (hrest' : f'.rest = i :: rest') (hg : g.block = f.block) (hgr : g.rest = rest)
    (hg' : g'.block = f'.block) (hgr' : g'.rest = rest') : Remains c₀ c g g' (n + 1) := by
  obtain ⟨y, hy, -, hdrop⟩ := hM.place_cons hrest'
  refine ⟨⟨y, hg' ▸ hy, hgr' ▸ hdrop⟩, ?_⟩
  obtain ⟨x₀, done, l, hx₀, hspells, hl, hahead⟩ := hM.ahead
  rw [hrest'] at hahead
  cases hahead with
  | jump hk => exact absurd hi hk
  | @cons _ l _ hahead =>
    rw [hrest, own_cons hi] at hl
    refine ⟨x₀, done ++ [i], l, hg ▸ hx₀, by simpa using hspells, ?_, hgr' ▸ hahead⟩
    rw [hgr]
    exact (List.cons.inj hl).2

/-- The follower has executed a new cast. -/
theorem skip (hM : Remains c₀ c f f' n) (hk : ¬ c₀.HasInstruction k)
    (hop : c.operation k = .ok (.cast u r name)) (hrest' : f'.rest = k :: rest')
    (hg' : g'.block = f'.block) (hgr' : g'.rest = rest') : Remains c₀ c f g' (n + 1) := by
  obtain ⟨y, hy, -, hdrop⟩ := hM.place_cons hrest'
  refine ⟨⟨y, hg' ▸ hy, hgr' ▸ hdrop⟩, ?_⟩
  obtain ⟨x₀, done, l, hx₀, hspells, hl, hahead⟩ := hM.ahead
  rw [hrest'] at hahead
  cases hahead with
  | jump _ hop' =>
    rw [hop] at hop'
    cases hop'
  | @cons _ l _ hahead =>
    rw [own_cons_of_not hk] at hl
    exact ⟨x₀, done ++ [k], l, hx₀, by simpa using hspells, hl, hgr' ▸ hahead⟩

/-- The follower has jumped to the tail of a block that has been cut. -/
theorem jump (hM : Remains c₀ c f f' n) (hrest : f.rest = i :: rest) (hk : ¬ c₀.HasInstruction k)
    (hop : c.operation k = .ok (.goto t)) (hrest' : f'.rest = [k]) (hy : c.block t = .ok y)
    (hg' : g'.block = t) (hgr' : g'.rest = y.instructions) :
    Remains c₀ c f g' 0 ∧ ∃ rest', g'.rest = i :: rest' := by
  obtain ⟨x₀, done, l, hx₀, hspells, hl, hahead⟩ := hM.ahead
  rw [hrest'] at hahead
  cases hahead with
  | jump _ hop' _ hy' hi hins =>
    obtain rfl := Operation.goto.inj (Except.ok.inj (hop.symm.trans hop'))
    obtain rfl := Except.ok.inj (hy.symm.trans hy')
    refine ⟨⟨⟨y, hg' ▸ hy, hgr'⟩, x₀, done, _, hx₀, hspells, hl, ?_⟩, ?_⟩
    · rw [hgr', hins]
      exact .refl _
    · rw [hrest, own_cons hi] at hl
      rw [hgr', hins, (List.cons.inj hl).1]
      exact ⟨_, rfl⟩
  | cons hahead =>
    cases hahead with
    | nil =>
      rw [hrest, own_cons_of_not hk] at hl
      cases hl

/-- Both frames are at the start of a block of the original body. -/
theorem enter (hr : Rewritten c₀ c) (hx₀ : c₀.block s = .ok x₀) (hx : c.block s = .ok x)
    (hg : g.block = s) (hgr : g.rest = x₀.instructions) (hg' : g'.block = s)
    (hgr' : g'.rest = x.instructions) : Remains c₀ c g g' 0 := by
  refine ⟨⟨x, hg' ▸ hx, hgr'⟩, ?_⟩
  rw [hg, hgr, hgr']
  rcases hr.contents hx₀ hx with hspells | ⟨t, hcut⟩
  · exact ⟨x₀, [], x.instructions, hx₀, hspells, hspells.old.symm, .refl _⟩
  · obtain ⟨l, k, y, i, rest, hins, hk, hop, hy, hyins, ⟨⟨call₀, hcall₀⟩, -⟩, hspells, -⟩ :=
      hcut.parts
    refine ⟨x₀, [], l ++ y.instructions, hx₀, hspells, hspells.old.symm, ?_⟩
    rw [hins, hyins]
    exact .append (.jump hk hop hcut.new hy (hasInstruction_of_operation hcall₀) hyins)

theorem rest_ne_nil (hM : Remains c₀ c f f' n) (hrest : f.rest ≠ []) : f'.rest ≠ [] := by
  obtain ⟨x₀, done, l, -, -, hl, hahead⟩ := hM.ahead
  intro hnil
  rw [hnil] at hahead
  cases hahead
  exact hrest hl

theorem instructions_eq (hM : Remains c₀ c f f' n) :
    ∃ x₀ done, c₀.block f.block = .ok x₀ ∧ x₀.instructions = done ++ f.rest := by
  obtain ⟨x₀, done, l, hx₀, hspells, hl, -⟩ := hM.ahead
  refine ⟨x₀, c₀.own done, hx₀, ?_⟩
  rw [← hspells.old, List.filter_append, hl]
  rfl

theorem jumps (hM : Remains c₀ c f f' n) (hrest : f.rest = [i]) (hop₀ : c₀.operation i = .ok op₀)
    (hs : s ∈ op₀.targets) : c₀.Jumps f.block s := by
  obtain ⟨x₀, done, hx₀, hins⟩ := hM.instructions_eq
  exact ⟨x₀, i, op₀, hx₀, by simp [hins, hrest], hop₀, hs⟩

/-- An instruction ends the block of the original exactly if it is a terminator. -/
theorem rest_eq_nil_iff (hM : Remains c₀ c f f' n) (hc₀ : c₀.Consistent)
    (hrest : f.rest = i :: rest) (hop₀ : c₀.operation i = .ok op₀) :
    rest = [] ↔ op₀.isTerminator = true := by
  obtain ⟨x₀, done, hx₀, hins⟩ := hM.instructions_eq
  rw [hrest] at hins
  constructor
  · rintro rfl
    obtain ⟨j, op, hlast, hop, hterminator⟩ := hc₀.terminated hx₀
    obtain rfl : i = j := by simpa [hins] using hlast
    obtain rfl := Except.ok.inj (hop₀.symm.trans hop)
    exact hterminator
  · intro hterminator
    by_contra hne
    have hinner : i ∈ x₀.instructions.dropLast := by
      rw [hins, List.dropLast_append_of_ne_nil (by simp), List.dropLast_cons_of_ne_nil hne]
      simp
    rw [hc₀.inner hx₀ i hinner op₀ hop₀] at hterminator
    cases hterminator

/-- A terminator ends the block of the follower too. -/
theorem rest_eq_nil (hM : Remains c₀ c f f' n) (hi : c₀.HasInstruction i) (hrest : f.rest = [i])
    (hrest' : f'.rest = i :: rest') : rest' = [] := by
  obtain ⟨x₀, done, l, hx₀, hspells, hl, hahead⟩ := hM.ahead
  rw [hrest'] at hahead
  cases hahead with
  | jump hk => exact absurd hi hk
  | @cons _ l _ hahead =>
    rw [hrest, own_cons hi] at hl
    have hnew : ∀ j ∈ l, ¬ c₀.HasInstruction j := by
      intro j hj hold
      have hmem := mem_own hold hj
      rw [← (List.cons.inj hl).2] at hmem
      cases hmem
    cases l using List.reverseRecOn with
    | nil =>
      cases hahead
      rfl
    | append_singleton l j _ =>
      -- the last of the instructions is an old one
      have hlast : x₀.instructions.getLast? = some j := by
        rw [← hspells.last, ← List.cons_append, ← List.append_assoc, List.getLast?_concat]
      have hmem : j ∈ c₀.own (done ++ i :: (l ++ [j])) := by
        rw [own, hspells.old]
        exact List.mem_of_getLast? hlast
      exact absurd (hasInstruction_of_mem_own hmem) (hnew j (by simp))

end Remains

/-! ### Frames side by side -/

/-- The frames belong to the same activation, and their values agree at the place `n` of the block
of the second one. -/
structure Beside (h : Hierarchy) (c₀ c : Body) (f f' : Frame) (n : Nat) : Prop where
  body : f.body = c₀
  body_new : f'.body = c
  arguments : f'.arguments = f.arguments
  origin : Origin c₀ c f'.block f.block
  reachable : c.Reachable f'.block
  agree : Agree h c₀ c f f' f'.block n

/-- A new value that stands for another one is the output of a new cast. -/
theorem Stands.outputs (hu : Stands c₀ c u w) (hnew : ¬ c₀.HasValue u) :
    ∃ k, ¬ c₀.HasInstruction k ∧ c.Outputs k u := by
  cases hu with
  | old hw => exact absurd hw hnew
  | cast hk hop _ => exact ⟨_, hk, _, hop, rfl⟩

/-- No old instruction outputs a new value. -/
theorem not_outputs_old (hr : Rewritten c₀ c) (hI₀ : c₀.Intact) (hop₀ : c₀.operation i = .ok op₀)
    (hnew : ¬ c₀.HasValue u) : ¬ c.Outputs i u := by
  rintro ⟨op, hop, hout⟩
  obtain ⟨op', hop', hrenders⟩ := hr.operation hop₀
  obtain rfl := Except.ok.inj (hop.symm.trans hop')
  rw [hrenders.out?_eq] at hout
  exact hnew (hI₀.hasValue hop₀ u (by simp [Operation.mentions, hout]))

/-- On the edge from `p` to `s`, the rewritten body has the edge of the same number. -/
theorem Refines.idxOf?_eq (hR : Refines h c₀ c) (hx₀ : c₀.block s = .ok x₀)
    (hx : c.block s = .ok x) (hq : Origin c₀ c q p) (hjump₀ : c₀.Jumps p s) (hjump : c.Jumps q s)
    (he : x₀.predecessors.idxOf? p = some e) : x.predecessors.idxOf? q = some e := by
  have hr := hR.rewritten
  have h₀ := hR.intact_old.toArranged
  have hclosed := hR.consistent_old.closed
  have hflow := hr.inflow hx₀ hx
  obtain ⟨hlt, hp, hfirst⟩ := List.idxOf?_eq_some_iff.1 he
  obtain ⟨q', hq', hsource⟩ := hflow.sources e p (List.getElem?_eq_some_iff.2 ⟨hlt, hp⟩)
  obtain rfl : q' = q := by
    rcases hsource with ⟨rfl, hwhole⟩ | ⟨htail, -⟩
    · rcases hq.2 with rfl | htail
      · rfl
      · exact absurd htail (hwhole hjump₀ q)
    · rcases hq.2 with rfl | htail'
      · -- a block that has been cut jumps to its tail only
        obtain ⟨_, _, _, hx', hcut⟩ := hr.exists_cut h₀ hclosed htail
        obtain rfl := (hcut.jumps_head hx').1 hjump
        exact absurd (hasBlock_of_block hx₀) htail.2
      · exact hr.tailOf_unique h₀ hclosed htail htail'
  obtain ⟨hlt', hget⟩ := List.getElem?_eq_some_iff.1 hq'
  refine List.idxOf?_eq_some_iff.2 ⟨hlt', hget, ?_⟩
  intro j hj heq
  obtain ⟨e₀, q'', p', hq'', hp', horigin, hsame, -⟩ := hflow.back j (by omega)
  obtain rfl : q'' = q' := by
    rw [List.getElem?_eq_getElem (by omega), heq] at hq''
    exact (Option.some.inj hq'').symm
  obtain rfl := hsame (by omega)
  obtain rfl := hr.origin_unique h₀ hclosed horigin hq
  exact hfirst e₀ hj (List.getElem?_eq_some_iff.1 hp').2

namespace Beside

/-- An instruction of the rewritten body reads what the original one reads. -/
theorem read (hB : Beside h c₀ c f f' n) (hR : Refines h c₀ c) (hy : c.block f'.block = .ok y)
    (hn : y.instructions[n]? = some i) (hop : c.operation i = .ok op) (hu : u ∈ op.operands)
    (hstands : Stands c₀ c u w) (hw : f.read w = .ok a) :
    f'.read u = .ok a ∧ ∀ C, a = .object C → Passes h c₀ c C u w :=
  hB.agree.read hR.rewritten hstands
    (fun _ => (hR.consistent.operands hy hn hop u hu).2 hB.reachable) hw

/-- Both frames have executed the same instruction. -/
theorem update (hB : Beside h c₀ c f f' n) (hR : Refines h c₀ c) (hy : c.block f'.block = .ok y)
    (hn : y.instructions[n]? = some i) (hop₀ : c₀.operation i = .ok op₀)
    (hg : Updates (op₀.out?.toList.map (·, a)) f g)
    (hg' : Updates (op₀.out?.toList.map (·, a)) f' g') : Beside h c₀ c g g' (n + 1) where
  body := hg.body.trans hB.body
  body_new := hg'.body.trans hB.body_new
  arguments := by rw [hg'.arguments, hg.arguments, hB.arguments]
  origin := by
    rw [hg'.block, hg.block]
    exact hB.origin
  reachable := by
    rw [hg'.block]
    exact hB.reachable
  agree := by
    rw [hg'.block]
    apply hB.agree.write hR.intact hg.toWrites hg'.toWrites
    · intro v a' hmem
      have hout : op₀.out? = some v := by
        obtain ⟨v', hv', heq⟩ := List.mem_map.1 hmem
        rw [← (Prod.mk.inj heq).1]
        simpa using hv'
      obtain ⟨op, hop, hrenders⟩ := hR.rewritten.operation hop₀
      refine ⟨hR.intact_old.hasValue hop₀ v (by simp [Operation.mentions, hout]), .inl ?_⟩
      exact ⟨i, y, n, ⟨op, hop, hrenders.out?_eq.trans hout⟩, hy, hn, rfl⟩
    · intro u w hu hnew hready
      apply hready.of_succ hy
      intro j hj
      obtain rfl := Option.some.inj (hj.symm.trans hn)
      exact not_outputs_old hR.rewritten hR.intact_old hop₀ hnew

/-- The follower executes a new cast, which an object known to the original passes. -/
theorem cast (hB : Beside h c₀ c f f' n) (hR : Refines h c₀ c) (hy : c.block f'.block = .ok y)
    (hn : y.instructions[n]? = some k) (hk : ¬ c₀.HasInstruction k)
    (hop : c.operation k = .ok (.cast u r name)) (hr : Stands c₀ c r w)
    (hw : f.read w = .ok (.object C)) {z : Value} (hz : c₀.value w = .ok z)
    (hC : h.isInstantiated C = true) (hconforms : z.Conforms h C) :
    f'.read r = .ok (.object C) ∧ h.isSubtype C name = true ∧
      ∀ {g'}, Updates [(u, .object C)] f' g' → Beside h c₀ c f g' (n + 1) := by
  obtain ⟨hread, hpasses⟩ := hB.read hR hy hn hop (by simp [Operation.operands]) hr hw
  have hsub := hR.casts hz hconforms hC hk hop (hpasses C rfl)
  refine ⟨hread, hsub, ?_⟩
  intro g' hg'
  constructor
  · exact hB.body
  · exact hg'.body.trans hB.body_new
  · exact hg'.arguments.trans hB.arguments
  · rw [hg'.block]
    exact hB.origin
  · rw [hg'.block]
    exact hB.reachable
  · rw [hg'.block]
    refine hB.agree.pass hR.rewritten hR.intact hy hn hk hop (.cast hk hop hr) hw ?_ hg'.toWrites
    intro D hD
    obtain rfl := RuntimeValue.object.inj hD
    exact .cast hk hop hsub (hpasses C rfl)

/-- The follower jumps to the tail of a block that has been cut. -/
theorem jump (hB : Beside h c₀ c f f' n) (hR : Refines h c₀ c) (hy : c.block f'.block = .ok y)
    (hn : y.instructions[n]? = some k) (hlast : y.instructions.length = n + 1)
    (hop : c.operation k = .ok (.goto t)) (hnew : ¬ c₀.HasBlock t) :
    ∃ z g', c.block t = .ok z ∧ f'.enter t = .ok g' ∧ g'.block = t ∧ g'.rest = z.instructions ∧
      Beside h c₀ c f g' 0 := by
  have h₀ := hR.intact_old.toArranged
  have hclosed := hR.consistent_old.closed
  have hjump : c.Jumps f'.block t := by
    refine ⟨y, k, _, hy, ?_, hop, by simp [Operation.targets]⟩
    rw [List.getLast?_eq_getElem?, hlast]
    exact hn
  obtain ⟨z, hz, -⟩ := hR.consistent.symmetric_out (.inl hjump)
  obtain ⟨hblock, htail⟩ : f'.block = f.block ∧ TailOf c₀ c f.block t := by
    rcases hR.rewritten.jumps_origin h₀ hclosed hB.origin hjump with hhead | hjump₀
    · exact hhead
    · exact absurd (hclosed f.block t (.inl hjump₀)) hnew
  obtain ⟨hpreds, hphis⟩ := hR.rewritten.predecessors_tail h₀ hclosed htail hz
  have hz' : f'.body.block t = .ok z := by
    rw [hB.body_new]
    exact hz
  have hedge : z.predecessors.idxOf? f'.block = some 0 := by
    rw [hpreds, hblock]
    simp [List.idxOf?_cons]
  have henter : f'.enter t = .ok { f' with block := t, rest := z.instructions, next := none } :=
    (enter_eq_ok hz' hedge).2 ⟨[], by simp [hphis], rfl⟩
  refine ⟨z, _, hz, henter, rfl, rfl, hB.body, hB.body_new, hB.arguments, ?_, ?_, ?_⟩
  · exact ⟨hB.origin.1, .inr htail⟩
  · exact hB.reachable.tail (.inl hjump)
  · have hold : Writes [] f f := updates_self.toWrites
    have hnew : Writes [] f' { f' with block := t, rest := z.instructions, next := none } :=
      ⟨by simp, fun _ => rfl⟩
    apply hB.agree.write hR.intact hold hnew (by simp)
    intro u w hu hnewu hready
    obtain ⟨k', -, hout⟩ := hu.outputs hnewu
    have hend := hready.of_jump hR.intact hR.consistent hout hjump hy
    rw [hlast] at hend
    apply hend.of_succ hy
    intro j hj hout'
    obtain rfl := Option.some.inj (hj.symm.trans hn)
    obtain ⟨op, hop', hout'⟩ := hout'
    obtain rfl := Except.ok.inj (hop.symm.trans hop')
    cases hout'

/-- What the phis of a block read on the edges of the same number. -/
theorem mapM_readPhi (hB : Beside h c₀ c f f' n) (hR : Refines h c₀ c)
    (hy : c.block f'.block = .ok y) (hend : n = y.instructions.length)
    (hx₀ : c₀.block s = .ok x₀) (hx : c.block s = .ok x)
    (he₀ : x₀.predecessors[e]? = some p) (he : x.predecessors[e]? = some f'.block)
    {inputs : List (ValueId × RuntimeValue)}
    (hinputs : x₀.phis.mapM (f.readPhi e) = .ok inputs) :
    x.phis.mapM (f'.readPhi e) = .ok inputs := by
  have hflow := hR.rewritten.inflow hx₀ hx
  have hlength := hflow.length_phis
  obtain ⟨hlength₀, hread₀⟩ := List.forall₂_iff_get.1 (mapM_eq_ok.1 hinputs)
  refine mapM_eq_ok.2 (List.forall₂_iff_get.2 ⟨hlength.trans hlength₀, ?_⟩)
  intro m hm hm'
  have hm₀ : m < x₀.phis.length := by omega
  obtain ⟨w, hw, hvalue, hout₀⟩ := readPhi_eq_ok.1 (hread₀ m hm₀ hm')
  obtain ⟨e₁, u, w', ⟨_, _, _, _, _, hsame, -⟩, hu, hw', hstands⟩ := hflow.inputs m _ _
    (List.getElem?_eq_getElem hm₀) (List.getElem?_eq_getElem hm) e
    (List.getElem?_eq_some_iff.1 he).1
  obtain rfl := hsame (List.getElem?_eq_some_iff.1 he₀).1
  obtain rfl := Option.some.inj (hw.symm.trans hw')
  refine readPhi_eq_ok.2 ⟨u, hu, ?_, ?_⟩
  · refine (hB.agree.read hR.rewritten hstands (fun _ => ?_) hvalue).1
    have hmem : (u, f'.block) ∈ (x.phis[m]).operands.zip x.predecessors := by
      apply List.mem_of_getElem? (i := e₁)
      rw [List.getElem?_zip_eq_some]
      exact ⟨hu, he⟩
    have hedge := (hR.consistent.inputs hx (List.getElem_mem hm) _ hmem).2 hB.reachable
    rw [hend]
    exact hedge.ready hR.intact.toArranged hy
  · have := congrArg (·[m]?) hflow.outs
    simp only [List.getElem?_map, List.getElem?_eq_getElem hm, List.getElem?_eq_getElem hm₀,
      Option.map_some, Option.some.injEq] at this
    exact this.trans hout₀

/-- Control passes to a block of the original body in both frames. -/
theorem enter (hB : Beside h c₀ c f f' n) (hR : Refines h c₀ c) (hy : c.block f'.block = .ok y)
    (hend : n = y.instructions.length) (hjump₀ : c₀.Jumps f.block s)
    (hjump : c.Jumps f'.block s) (hg : f.enter s = .ok g) :
    ∃ g', f'.enter s = .ok g' ∧ Beside h c₀ c g g' 0 ∧ Remains c₀ c g g' 0 := by
  obtain ⟨x₀, hx₀, hmem₀⟩ := hR.consistent_old.symmetric_out (.inl hjump₀)
  obtain ⟨x, hx, -⟩ := hR.consistent.symmetric_out (.inl hjump)
  obtain ⟨e, he₀⟩ : ∃ e, x₀.predecessors.idxOf? f.block = some e := by
    cases hidx : x₀.predecessors.idxOf? f.block with
    | none => exact absurd hmem₀ (List.idxOf?_eq_none_iff.1 hidx)
    | some e => exact ⟨e, rfl⟩
  have he := hR.idxOf?_eq hx₀ hx hB.origin hjump₀ hjump he₀
  have hx₀' : f.body.block s = .ok x₀ := hB.body ▸ hx₀
  have hx' : f'.body.block s = .ok x := hB.body_new ▸ hx
  obtain ⟨inputs, hinputs, rfl⟩ := (enter_eq_ok hx₀' he₀).1 hg
  obtain ⟨hlt₀, hget₀, -⟩ := List.idxOf?_eq_some_iff.1 he₀
  obtain ⟨hlt, hget, -⟩ := List.idxOf?_eq_some_iff.1 he
  have hinputs' := hB.mapM_readPhi hR hy hend hx₀ hx
    (List.getElem?_eq_some_iff.2 ⟨hlt₀, hget₀⟩) (List.getElem?_eq_some_iff.2 ⟨hlt, hget⟩) hinputs
  refine ⟨_, (enter_eq_ok hx' he).2 ⟨inputs, hinputs', rfl⟩, ?_, ?_⟩
  · have hkeys : inputs.map (·.1) = x₀.phis.map (·.out) := keys_of_readPhi hinputs
    have hkeys' : inputs.map (·.1) = x.phis.map (·.out) := keys_of_readPhi hinputs'
    have hnodup : (inputs.map (·.1)).Nodup := hkeys ▸ hR.intact_old.phi_nodup hx₀
    have hwrites : Writes inputs f (f.writeAll inputs) := writes_writeAll hnodup
    have hwrites' : Writes inputs f' (f'.writeAll inputs) := writes_writeAll hnodup
    refine ⟨(writeAll_frame inputs).1.trans hB.body, (writeAll_frame inputs).1.trans hB.body_new,
      ?_, Rewritten.origin_self (hasBlock_of_block hx₀), hB.reachable.tail (.inl hjump), ?_⟩
    · show (f'.writeAll inputs).arguments = (f.writeAll inputs).arguments
      rw [(writeAll_frame inputs).2, (writeAll_frame inputs).2, hB.arguments]
    · refine hB.agree.write hR.intact ⟨hwrites.mem, hwrites.other⟩ ⟨hwrites'.mem, hwrites'.other⟩
        ?_ ?_
      · intro v a hmem
        have hv : v ∈ inputs.map (·.1) := List.mem_map_of_mem hmem
        obtain ⟨phi₀, hphi₀, rfl⟩ := List.mem_map.1 (hkeys ▸ hv)
        obtain ⟨phi, hphi, hout⟩ := List.mem_map.1 (hkeys' ▸ hv)
        exact ⟨hR.intact_old.phi_hasValue ⟨x₀, hx₀, hphi₀⟩ phi₀.out (by simp),
          .inr ⟨phi, ⟨x, hx, hphi⟩, hout, rfl⟩⟩
      · intro u w hu hnew hready
        obtain ⟨k, -, hout⟩ := hu.outputs hnew
        rw [hend]
        exact hready.of_jump hR.intact hR.consistent hout hjump hy
  · exact .enter hR.rewritten hx₀ hx rfl rfl rfl rfl

end Beside

end Body

end Devirt
