import Devirt.Proofs.Devirtualization.Erasure

/-!
The course of a walk. The walk goes through lists of instructions and blocks that grow under it. A
visit still takes just the visited instruction off what is ahead, since the walk passes over what
the visit has placed. So the walk ends on any body, and no instruction is visited twice.
-/

namespace Devirt

namespace Body

variable {c d e : Body} {b s t : BlockId} {i k : InstrId} {old new : ValueId} {op : Operation}
  {index : Nat}

/-! ### The layout under edits -/

/-- The same blocks are laid out, each with the same instructions. -/
structure SameLayout (c d : Body) : Prop where
  order : d.order = c.order
  row : ∀ s, d.row s = c.row s

namespace SameLayout

theorem refl (c : Body) : SameLayout c c := ⟨rfl, fun _ => rfl⟩

theorem trans (h : SameLayout c d) (h' : SameLayout d e) : SameLayout c e where
  order := h'.order.trans h.order
  row s := (h'.row s).trans (h.row s)

theorem advanced (h : SameLayout c d) : Advanced c d b index .stayed := .stayed h.order h.row

end SameLayout

theorem sameLayout_redirectOperand {changed : Bool}
    (hd : c.redirectOperand i old new = .ok (changed, d)) : SameLayout c d := by
  obtain ⟨op, -, hd⟩ := redirectOperand_eq_ok.1 hd
  split at hd
  · rw [hd.2.2.2]
    exact ⟨rfl, fun _ => rfl⟩
  · rw [hd.2]
    exact .refl c

theorem sameLayout_redirectUses {tree : DominatorTree} {excluded : List InstrId} {r : Redirected}
    (hd : c.redirectUses tree old new k excluded = .ok (r, d)) : SameLayout c d := by
  apply redirectUses_invariant (SameLayout c) hd (.refl c)
  · intro i changed e e' _ he hstep
    exact he.trans (sameLayout_redirectOperand hstep)
  · intro phi changed e e' he hstep
    rcases redirectPhi_eq_ok hstep with ⟨-, rfl⟩ | ⟨b, x, p, edges, -, -, -, -, -, -, -, rfl⟩
    · exact he
    · exact he.trans ⟨rfl, fun _ => row_phiRedirected⟩

theorem advanced_insertAt (hd : c.insertAt b index op = .ok (k, d)) :
    Advanced c d b index .shifted := by
  obtain ⟨⟨x, hx, -⟩, -, -, rfl⟩ := insertAt_eq_ok.1 hd
  exact .shifted rfl (row_inserted hx) fun s hs => row_inserted_of_ne hs

/-- The tail holds what stood from the index on, whatever is put at the end of the head. -/
theorem advanced_split (hc : c.Arranged) (hsplit : c.split b index = .ok (t, d))
    (hinsert : d.insertAt b index op = .ok (k, e)) : Advanced c e b index (.split t) := by
  obtain ⟨x, g, version, hx, -, rfl, hg, rfl⟩ := split_cases hc hsplit
  obtain ⟨-, -, -, rfl⟩ := insertAt_eq_ok.1 hinsert
  have hne := (hasBlock_of_block hx).ne_next
  -- the jump and the new instruction both stand in the head
  have hrow : ∀ {s version}, s ≠ b →
      (Body.inserted { ((c.cut b index x).updateBlocks g).inserted b index
        (.goto ⟨c.blocks.length⟩) with version } b index op).row s = (c.cut b index x).row s := by
    intro s version hs
    rw [row_inserted_of_ne hs]
    show (((c.cut b index x).updateBlocks g).inserted b index _).row s = _
    rw [row_inserted_of_ne hs, row_movesEdges hg]
  apply Advanced.split
  · intro hmem
    exact ((hc.mem_order _).1 hmem).ne_next rfl
  · rfl
  · rw [hrow hne.symm, row_cut_tail hx]
  · intro s hs hst
    rw [hrow hs, row_cut_of_ne hs hst]

end Body

namespace Devirtualizing

open Body

variable {h : Hierarchy} {s s' : Devirtualization.State h} {i k : InstrId} {index : Nat}
  {b : BlockId} {call : Call} {target : MethodRef} {receiver v : ValueId} {holder : TypeName}
  {type : StaticType} {options : Options} {moved : Moved}

/-! ### The layout under steps -/

theorem sameLayout_newCastValue (hs : s.body.Grounded)
    (hrun : (newCastValue receiver holder type).run s = .ok (v, s')) :
    SameLayout s.body s'.body ∧ s'.body.Grounded ∧ s'.body.blockOf i = s.body.blockOf i := by
  obtain ⟨rfl, c, rfl, rfl | ⟨r, hset⟩⟩ := newCastValue_cases hrun
  · exact ⟨⟨rfl, fun _ => rfl⟩, hs.createValue type, rfl⟩
  · obtain ⟨-, rfl⟩ := modifyValue_eq_ok.1 hset
    dsimp only
    exact ⟨⟨rfl, fun _ => rfl⟩, (hs.createValue type).updateValues _, rfl⟩

theorem advanced_placeCast (hs : s.body.Grounded) (hb : s.body.blockOf i = .ok b)
    (hrun : (placeCast i index receiver holder type).run s = .ok ((k, v, moved), s')) :
    Advanced s.body s'.body b index moved := by
  obtain ⟨s₁, b', c, stats, hnew, hb', hroom, hinsert, -⟩ := placeCast_cases hrun
  obtain ⟨hsame, hs₁, hblock⟩ := sameLayout_newCastValue (i := i) hs hnew
  obtain rfl := Except.ok.inj (hb.symm.trans (hblock.symm.trans hb'))
  have hplaced : Advanced s₁.body s'.body b index moved := by
    cases hroom with
    | whole => exact advanced_insertAt hinsert
    | split hsplit => exact advanced_split hs₁.toArranged hsplit hinsert
  exact .congr hsame.advanced hplaced (SameLayout.refl _).advanced

theorem advanced_castReceiver (hs : s.body.Grounded) (hb : s.body.blockOf i = .ok b)
    (hrun : (castReceiver i index receiver holder).run s = .ok (moved, s')) :
    Advanced s.body s'.body b index moved := by
  rcases castReceiver_cases hrun with ⟨rfl, rfl, -⟩ | ⟨cast, changed, -, hreads, -, rfl, -⟩ |
    ⟨x, k, v, s₁, s₂, changed, -, hplace, hreads, -, -, -, hspread⟩
  · exact (SameLayout.refl _).advanced
  · exact (sameLayout_redirectOperand hreads).advanced
  · have hspread' : SameLayout s₂.body s'.body := by
      obtain ⟨-, -, -, hbody | ⟨⟨tree, excluded, replaced, huses⟩, -⟩⟩ := spreadCast_cases hspread
      · rw [hbody]
        exact .refl _
      · exact sameLayout_redirectUses huses
    have hafter := (sameLayout_redirectOperand hreads).trans hspread'
    exact .congr (SameLayout.refl _).advanced (advanced_placeCast hs hb hplace) hafter.advanced

theorem Idle.sameLayout (hidle : Idle s s') : SameLayout s.body s'.body := by
  rw [hidle.body]
  exact .refl _

theorem Turns.grounded (ht : Turns i call target s s') (hs : s.body.Grounded)
    (hop : s.body.operation i = .ok (.call call)) : s'.body.Grounded := by
  rw [ht.body]
  apply hs.replaced
  intro v hv
  exact hs.hasValue hop v hv

theorem Turns.sameLayout (ht : Turns i call target s s') : SameLayout s.body s'.body := by
  rw [ht.body]
  exact ⟨rfl, fun _ => rfl⟩

theorem sameLayout_specialize {u : Unit} (hop : s.body.operation i = .ok (.call call))
    (hkind : call.kind = .virtual) (hrun : (specialize options i).run s = .ok (u, s')) :
    SameLayout s.body s'.body := by
  rcases run_specialize hop hkind hrun with ⟨hidle, -⟩ | ⟨-, target, hturns⟩
  · exact hidle.sameLayout
  · exact hturns.sameLayout

theorem Fits.advanced (hfits : Fits i index call target moved s s') (hs : s.body.Grounded)
    (hb : s.body.blockOf i = .ok b) : Advanced s.body s'.body b index moved := by
  rcases hfits with ⟨-, rfl, hidle⟩ | ⟨receiver, s₁, -, hrun, hidle⟩
  · exact hidle.sameLayout.advanced
  · exact .congr (SameLayout.refl _).advanced (advanced_castReceiver hs hb hrun)
      hidle.sameLayout.advanced

/-- A visit moves nothing but the visited instruction and what stands after it in its block. -/
theorem advanced_visit (hs : s.body.Grounded) (hb : s.body.blockOf i = .ok b)
    (hrun : (visit options i index).run s = .ok (moved, s')) :
    Advanced s.body s'.body b index moved := by
  cases run_visit hrun with
  | idle hidle _ hmoved =>
    rw [hmoved]
    exact hidle.sameLayout.advanced
  | special _ _ _ hturns hmoved =>
    rw [hmoved]
    exact hturns.sameLayout.advanced
  | super hop _ _ hturns hrun hmoved =>
    rw [hmoved]
    exact (hturns.sameLayout.trans
      (sameLayout_specialize (hturns.operation hop) rfl hrun)).advanced
  | @interface call target s₁ s₂ hop _ _ hturns hfits hrun =>
    have hop₁ := hturns.operation hop
    obtain ⟨arguments, hop₂⟩ := hfits.exists_call hop₁
    have hb₁ : s₁.body.blockOf i = .ok b := by rw [hturns.body, blockOf_replaced, hb]
    exact .congr hturns.sameLayout.advanced (hfits.advanced (hturns.grounded hs hop) hb₁)
      (sameLayout_specialize hop₂ rfl hrun).advanced

end Devirtualizing

namespace Walk

open Devirtualizing

variable {h : Hierarchy} {options : Options} {w : Walk h} {c₀ : Body}
  {visited visited' : List InstrId} {outcome outcome' : Except Fault (Devirtualization.State h)}

/-! ### Walks without a bound on their rounds -/

/-- The instructions that a walk visits, in turn, and what it ends with: the state at the end of the
layout, or the fault of the last visit. A walk that goes on forever has no course. -/
inductive Course (options : Options) :
    Walk h → List InstrId → Except Fault (Devirtualization.State h) → Prop
  | finish {w : Walk h} (hblock : w.block? = none) : Course options w [] (.ok w.state)
  | lost {w : Walk h} {b : BlockId} {e : Fault} (hblock : w.block? = some b)
      (hnext : w.instruction? b = .error e) : Course options w [] (.error e)
  | turn {w : Walk h} {b : BlockId} {visited : List InstrId}
      {outcome : Except Fault (Devirtualization.State h)} (hblock : w.block? = some b)
      (hnext : w.instruction? b = .ok none)
      (hrest : Course options { w with position := w.position + 1, index := 0 } visited outcome) :
      Course options w visited outcome
  | fail {w : Walk h} {b : BlockId} {i : InstrId} {e : Fault} (hblock : w.block? = some b)
      (hnext : w.instruction? b = .ok (some i))
      (hvisit : (visit options i w.index).run w.state = .error e) :
      Course options w [i] (.error e)
  | visit {w : Walk h} {b : BlockId} {i : InstrId} {moved : Moved} {s : Devirtualization.State h}
      {visited : List InstrId} {outcome : Except Fault (Devirtualization.State h)}
      (hblock : w.block? = some b) (hnext : w.instruction? b = .ok (some i))
      (hvisit : (visit options i w.index).run w.state = .ok (moved, s))
      (hrest : Course options (w.resume s moved) visited outcome) :
      Course options w (i :: visited) outcome

/-- A walk has at most one course. -/
theorem Course.functional (hw : Course options w visited outcome)
    (hw' : Course options w visited' outcome') : visited' = visited ∧ outcome' = outcome := by
  induction hw generalizing visited' outcome' with
  | finish hblock => cases hw' <;> simp_all
  | lost hblock hnext => cases hw' <;> simp_all
  | fail hblock hnext hvisit => cases hw' <;> simp_all
  | turn hblock hnext _ ih =>
    cases hw' with
    | turn _ _ hrest => exact ih hrest
    | _ => simp_all
  | visit hblock hnext hvisit _ ih =>
    cases hw' with
    | visit hblock' hnext' hvisit' hrest =>
      obtain rfl := Option.some.inj (hblock.symm.trans hblock')
      obtain rfl := Option.some.inj (Except.ok.inj (hnext.symm.trans hnext'))
      obtain ⟨rfl, rfl⟩ := Prod.mk.inj (Except.ok.inj (hvisit.symm.trans hvisit'))
      obtain ⟨rfl, rfl⟩ := ih hrest
      exact ⟨rfl, rfl⟩
    | _ => simp_all

/-- What a visit passes on, from the instructions still to be visited and the state before it to
those after it, holds at the end of a course. -/
theorem Course.invariant {motive : List InstrId → Devirtualization.State h → Prop}
    {s : Devirtualization.State h}
    (hvisit : ∀ {i rest s s' moved index}, motive (i :: rest) s →
      (Devirtualizing.visit options i index).run s = .ok (moved, s') → motive rest s')
    (hw : Course options w visited (.ok s)) (hm : motive visited w.state) : motive [] s := by
  generalize houtcome : (.ok s : Except Fault (Devirtualization.State h)) = outcome at hw
  induction hw with
  | finish =>
    obtain rfl := Except.ok.inj houtcome
    exact hm
  | lost => cases houtcome
  | fail => cases houtcome
  | turn _ _ _ ih => exact ih hm houtcome
  | @visit w b i moved s' visited outcome _ _ hrun _ ih =>
    apply ih _ houtcome
    rw [state_resume]
    exact hvisit hm hrun

theorem prefix_ahead {b : BlockId} {i : InstrId} (hblock : w.block? = some b)
    (hi : (w.state.body.row b)[w.index]? = some i) : [i] <+: w.ahead := by
  obtain ⟨pre, rest, hlayout, hpre⟩ := exists_order hblock
  obtain ⟨hlt, rfl⟩ := List.getElem?_eq_some_iff.1 hi
  rw [ahead_eq hlayout hpre, List.drop_eq_getElem_cons hlt]
  exact List.prefix_append [_] _

/-- With a round for each instruction that is ahead and for each block, a bounded walk takes its
whole course. It visits what is ahead in turn, all of it unless a visit fails. -/
theorem exists_course (options : Options) {rounds : Nat} (hs : Overlays c₀ w.state)
    (hrounds : w.ahead.length + w.blocksLeft < rounds) :
    ∃ visited, Course options w visited (w.run options rounds) ∧ visited <+: w.ahead ∧
      ∀ s, w.run options rounds = .ok s → visited = w.ahead := by
  induction rounds generalizing w with
  | zero => omega
  | succ rounds ih =>
    have hG := hs.grounded
    cases hblock : w.block? with
    | none =>
      have hrun : w.run options (rounds + 1) = .ok w.state := by simp [Walk.run, advance, hblock]
      rw [hrun, ahead_eq_nil hblock]
      exact ⟨[], .finish hblock, List.prefix_rfl, fun _ _ => rfl⟩
    | some b =>
      obtain ⟨x, hx⟩ := Body.exists_block_iff.2 ((hG.mem_order b).1 (List.mem_of_getElem? hblock))
      have hnext : w.instruction? b = .ok (w.state.body.row b)[w.index]? := by
        simp [instruction?, hx, Body.row_eq hx]
      cases hi : (w.state.body.row b)[w.index]? with
      | none =>
        rw [hi] at hnext
        have hrun : w.run options (rounds + 1) =
            Walk.run options rounds { w with position := w.position + 1, index := 0 } := by
          simp [Walk.run, advance, hblock, hnext]
        obtain ⟨hahead, hblocks⟩ := ahead_nextBlock hblock hi
        obtain ⟨visited, hcourse, hvisited⟩ := ih
          (w := { w with position := w.position + 1, index := 0 }) hs (by rw [hahead]; omega)
        rw [hrun, ← hahead]
        exact ⟨visited, .turn hblock hnext hcourse, hvisited⟩
      | some i =>
        rw [hi] at hnext
        cases hvisit : (Devirtualizing.visit options i w.index).run w.state with
        | error e =>
          have hrun : w.run options (rounds + 1) = .error e := by
            simp [Walk.run, advance, hblock, hnext, hvisit]
          rw [hrun]
          refine ⟨[i], .fail hblock hnext hvisit, prefix_ahead hblock hi, ?_⟩
          intro s hs
          cases hs
        | ok result =>
          obtain ⟨moved, s⟩ := result
          have hrun : w.run options (rounds + 1) = (w.resume s moved).run options rounds := by
            simp [Walk.run, advance, hblock, hnext, hvisit]
          have hb := hG.placed hx i (Body.row_eq hx ▸ List.mem_of_getElem? hi)
          obtain ⟨hahead, hblocks⟩ :=
            ahead_resume hG.order_nodup hblock hi (advanced_visit hG hb hvisit)
          rw [hahead, List.length_cons] at hrounds
          obtain ⟨visited, hcourse, hprefix, hall⟩ := ih (w := w.resume s moved)
            (state_resume.symm ▸ overlaid_visit hs hvisit) (by omega)
          rw [hrun, hahead]
          exact ⟨i :: visited, .visit hblock hnext hvisit hcourse,
            List.cons_prefix_cons.2 ⟨rfl, hprefix⟩, fun s' hs' => by rw [hall s' hs']⟩

end Walk

namespace Body

variable {h : Hierarchy} {c : Body}

/-- No instruction stands in two places. -/
theorem Arranged.nodup_listed (hc : c.Arranged) : c.listed.Nodup := by
  rw [listed, List.nodup_flatMap]
  have hrow : ∀ {s i}, i ∈ c.row s → ∃ x, c.block s = .ok x ∧ i ∈ x.instructions := by
    intro s i hi
    rw [row] at hi
    split at hi
    · rename_i x hx
      exact ⟨x, hx, hi⟩
    · exact absurd hi List.not_mem_nil
  constructor
  · intro s hs
    obtain ⟨x, hx⟩ := exists_block_iff.2 ((hc.mem_order s).1 hs)
    rw [row_eq hx]
    exact hc.nodup hx
  · refine hc.order_nodup.imp fun {s t} hst => ?_
    intro i hi hi'
    obtain ⟨x, hx, hmem⟩ := hrow hi
    obtain ⟨y, hy, hmem'⟩ := hrow hi'
    exact hst (hc.block_unique hx hy hmem hmem')

/-- The rounds that are given to the walk over the calls of a body suffice for its course. -/
theorem Grounded.exists_course (hc : c.Grounded) (options : Options) (resolver : Resolver h) :
    ∃ tree placed visited, c.dominators = .ok tree ∧ c.placed = .ok placed ∧
      Walk.Course options { state := { body := c, resolver, tree } } visited
        (c.walkCalls options resolver) ∧
      visited <+: placed ∧ ∀ s, c.walkCalls options resolver = .ok s → visited = placed := by
  obtain ⟨tree, htree⟩ := hc.exists_dominators
  obtain ⟨placed, hplaced, -⟩ := hc.exists_placed
  have hahead : Walk.ahead { state := { body := c, resolver, tree } } = placed :=
    ahead_start hplaced
  have hwalk : c.walkCalls options resolver = Walk.run options (placed.length + c.order.length + 1)
      { state := { body := c, resolver, tree } } := by
    simp [walkCalls, walkRounds, htree, hplaced]
  have hs : Devirtualizing.Overlays c { body := c, resolver, tree } := .start hc
  obtain ⟨visited, hcourse⟩ := Walk.exists_course options
    (w := { state := { body := c, resolver, tree } }) hs
    (show _ < placed.length + c.order.length + 1 by simp [hahead, Walk.blocksLeft])
  rw [← hwalk, hahead] at hcourse
  exact ⟨tree, placed, visited, htree, hplaced, hcourse⟩

/-- What every visit of a walk passes on, from the instructions still to be visited and the state
before it to those after it, holds at the end if it holds of the whole body. -/
theorem Grounded.walkCalls_induction (hc : c.Grounded) {options : Options} {resolver : Resolver h}
    {motive : List InstrId → Devirtualization.State h → Prop} {s : Devirtualization.State h}
    (hvisit : ∀ {i rest s s' moved index}, motive (i :: rest) s →
      (Devirtualizing.visit options i index).run s = .ok (moved, s') → motive rest s')
    (hstart : ∀ placed tree, (∀ i, i ∈ placed ↔ c.HasInstruction i) →
      motive placed { body := c, resolver, tree })
    (hwalk : c.walkCalls options resolver = .ok s) : motive [] s := by
  obtain ⟨tree, placed, visited, -, hplaced, hcourse, -, hall⟩ := hc.exists_course options resolver
  obtain ⟨placed', hplaced', hmem⟩ := hc.exists_placed
  obtain rfl := Except.ok.inj (hplaced.symm.trans hplaced')
  obtain rfl := hall s hwalk
  rw [hwalk] at hcourse
  exact hcourse.invariant hvisit (hstart _ tree hmem)

/-- The walk over the calls of a body has a course, which is the only one. The bound on its rounds
is never met, no instruction is visited twice and none that has been added is visited. Unless a
visit fails, the walk visits all instructions of the body in the order of the layout. -/
theorem exists_course_of_made (hc : Made c) (options : Options) (resolver : Resolver h) :
    ∃ tree placed visited, c.dominators = .ok tree ∧ c.placed = .ok placed ∧ placed.Nodup ∧
      (∀ i, i ∈ placed ↔ c.HasInstruction i) ∧
      (∀ visited' outcome, Walk.Course options { state := { body := c, resolver, tree } } visited'
        outcome ↔ visited' = visited ∧ outcome = c.walkCalls options resolver) ∧
      visited <+: placed ∧ ∀ s, c.walkCalls options resolver = .ok s → visited = placed := by
  have hG := hc.grounded
  obtain ⟨tree, placed, visited, htree, hplaced, hcourse, hvisited⟩ :=
    hG.exists_course options resolver
  obtain ⟨placed', hplaced', hmem⟩ := hG.exists_placed
  obtain rfl := Except.ok.inj (hplaced.symm.trans hplaced')
  have hnodup : placed.Nodup := by
    rw [← listed_eq hplaced]
    exact hG.nodup_listed
  refine ⟨tree, placed, visited, htree, hplaced, hnodup, hmem, fun visited' outcome => ?_, hvisited⟩
  constructor
  · exact hcourse.functional
  · rintro ⟨rfl, rfl⟩
    exact hcourse

/-- Two calls in a guarded block, on receivers known to be of the class, and a third one in the
handler, which has no end. -/
def callsInGuarded : List DraftStep :=
  [.argument (.ofClass "I" .maybe), .argument (.ofClass "I" .maybe),
    .dynamic ⟨0⟩ { name := "A", exact := true }, .dynamic ⟨1⟩ { name := "A", exact := true },
    .newBlock, .call ⟨0⟩ .interface (.plain "I" "f") [⟨0⟩],
    .call ⟨0⟩ .interface (.plain "I" "f") [⟨1⟩], .handler ⟨0⟩ none ⟨1⟩, .goto ⟨0⟩ ⟨1⟩,
    .call ⟨1⟩ .interface (.plain "I" "f") [⟨0⟩]]

set_option synthInstance.maxSize 256 in
/-- The guarded block is split twice, and the body is not consistent. -/
theorem course_callsInGuarded :
    ∃ made c tree s, ofSteps (.plain "A" "f") callsInGuarded = .ok (made, c) ∧ c.Made ∧
      c.violations ≠ .ok [] ∧ s.stats.blocksSplit = 2 ∧
      Walk.Course {} { state := { body := c, resolver := (∅ : Resolver
        Devirtualizing.implementedOnce), tree } } [⟨0⟩, ⟨1⟩, ⟨2⟩, ⟨3⟩, ⟨4⟩, ⟨5⟩] (.ok s) := by
  obtain ⟨made, c, hwritten, hinvalid, hplaced', s, hwalk, hsplit⟩ :
      ∃ made c, ofSteps (.plain "A" "f") callsInGuarded = .ok (made, c) ∧ c.violations ≠ .ok [] ∧
        c.placed = .ok [⟨0⟩, ⟨1⟩, ⟨2⟩, ⟨3⟩, ⟨4⟩, ⟨5⟩] ∧
        ∃ s, c.walkCalls {} (∅ : Resolver Devirtualizing.implementedOnce) = .ok s ∧
          s.stats.blocksSplit = 2 := by
    decide +kernel
  have hc : c.Made := .written hwritten
  obtain ⟨tree, placed, visited, -, hplaced, -, -, hcourse, -, hall⟩ :=
    exists_course_of_made hc {} (∅ : Resolver Devirtualizing.implementedOnce)
  obtain rfl := Except.ok.inj (hplaced'.symm.trans hplaced)
  obtain rfl := hall s hwalk
  exact ⟨made, c, tree, s, hwritten, hc, hinvalid, hsplit, (hcourse _ _).2 ⟨rfl, hwalk.symm⟩⟩

end Body

end Devirt
