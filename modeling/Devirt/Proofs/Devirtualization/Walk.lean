import Devirt.Devirtualization.Pass
import Devirt.Proofs.Devirtualization.Visit

/-!
The walk over all call sites. Every round takes one instruction or one block off what is still
ahead, so the walk comes to its end, and all it has done to the body are edits of devirtualization.
-/

namespace Devirt

open Body Devirtualization.State

private theorem drop_insertIdx {α : Type} {l : List α} {n : Nat} {a : α} :
    (l.insertIdx n a).drop (n + 2) = l.drop (n + 1) := by
  refine List.ext_getElem? fun m => ?_
  rw [List.getElem?_drop, List.getElem?_drop, List.getElem?_insertIdx, if_neg (by omega),
    if_neg (by omega)]
  congr 1
  omega

/-- A block that stands once in the layout is followed by the new one. -/
theorem Body.layoutAfter_append {pre rest : List BlockId} {b t : BlockId} (hb : b ∉ pre) :
    layoutAfter (pre ++ b :: rest) b t = pre ++ b :: t :: rest := by
  have hidx : (pre ++ b :: rest).idxOf? b = some pre.length := by
    refine List.idxOf?_eq_some_iff.2 ⟨by simp, by simp, fun j hj heq => ?_⟩
    rw [List.getElem_append_left hj] at heq
    exact hb (heq ▸ List.getElem_mem hj)
  rw [layoutAfter, hidx, Option.map_some, Option.getD_some]
  clear hidx hb
  induction pre with
  | nil => rfl
  | cons a pre ih => simpa using ih

namespace Walk

variable {h : Hierarchy} {w : Walk h} {s : Devirtualization.State h} {c₀ : Body} {b : BlockId}
  {rest : List BlockId} {i : InstrId} {moved : Moved}

/-- The instructions still to be visited as the body stands, in the order of the walk. -/
def ahead (w : Walk h) : List InstrId :=
  match w.state.body.order.drop w.position with
  | [] => []
  | b :: rest => (w.state.body.row b).drop w.index ++ rest.flatMap w.state.body.row

/-- The number of blocks that have not been left behind. -/
def blocksLeft (w : Walk h) : Nat := w.state.body.order.length - w.position

theorem ahead_eq {pre : List BlockId} (horder : w.state.body.order = pre ++ b :: rest)
    (hpre : pre.length = w.position) :
    w.ahead = (w.state.body.row b).drop w.index ++ rest.flatMap w.state.body.row := by
  rw [ahead, horder, List.drop_left' hpre]

theorem ahead_eq_nil (hblock : w.block? = none) : w.ahead = [] := by
  rw [ahead, List.drop_eq_nil_of_le (List.getElem?_eq_none_iff.1 hblock)]

/-- The blocks before and after the one that is walked. -/
theorem exists_order (hblock : w.block? = some b) :
    ∃ pre rest, w.state.body.order = pre ++ b :: rest ∧ pre.length = w.position := by
  obtain ⟨hlt, rfl⟩ := List.getElem?_eq_some_iff.1 hblock
  exact ⟨_, _, by rw [← List.drop_eq_getElem_cons hlt, List.take_append_drop],
    List.length_take_of_le (Nat.le_of_lt hlt)⟩

/-- At the end of a block the walk turns to the next one, and nothing that is ahead is left out. -/
theorem ahead_nextBlock (hblock : w.block? = some b)
    (hend : (w.state.body.row b)[w.index]? = none) :
    ahead { w with position := w.position + 1, index := 0 } = w.ahead ∧
      blocksLeft { w with position := w.position + 1, index := 0 } + 1 = w.blocksLeft := by
  obtain ⟨pre, rest, hlayout, hpre⟩ := exists_order hblock
  constructor
  · have hlayout' : w.state.body.order = (pre ++ [b]) ++ rest := by simp [hlayout]
    rw [ahead_eq hlayout hpre, List.drop_eq_nil_of_le (List.getElem?_eq_none_iff.1 hend), ahead,
      hlayout', List.drop_left' (by simp [hpre])]
    cases rest with
    | nil => rfl
    | cons r rest => simp
  · simp only [blocksLeft, hlayout, ← hpre, List.length_append, List.length_cons]
    omega

theorem state_resume : (w.resume s moved).state = s := by
  cases moved <;> rfl

/-- A visit takes the visited instruction off what is ahead and nothing else. -/
theorem ahead_resume (hnodup : w.state.body.order.Nodup) (hblock : w.block? = some b)
    (hi : (w.state.body.row b)[w.index]? = some i)
    (hadvanced : Advanced w.state.body s.body b w.index moved) :
    w.ahead = i :: (w.resume s moved).ahead ∧ (w.resume s moved).blocksLeft = w.blocksLeft := by
  obtain ⟨pre, rest, hlayout, hpre⟩ := exists_order hblock
  obtain ⟨hlt, hget⟩ := List.getElem?_eq_some_iff.1 hi
  have hahead : w.ahead = i :: ((w.state.body.row b).drop (w.index + 1) ++
      rest.flatMap w.state.body.row) := by
    rw [ahead_eq hlayout hpre, List.drop_eq_getElem_cons hlt, hget, List.cons_append]
  rw [hahead]
  have hb : b ∉ pre ∧ b ∉ rest := by
    rw [hlayout, List.nodup_append, List.nodup_cons] at hnodup
    exact ⟨fun hmem => hnodup.2.2 b hmem b (by simp) rfl, hnodup.2.1.1⟩
  cases hadvanced with
  | stayed horder hrows =>
    refine ⟨?_, by simp [resume, blocksLeft, horder]⟩
    rw [ahead_eq (w := w.resume s .stayed) (horder.trans hlayout) hpre]
    simp [resume, funext hrows]
  | shifted horder hrow hrows =>
    have hrest : rest.flatMap s.body.row = rest.flatMap w.state.body.row :=
      List.flatMap_congr fun r hr => hrows r fun heq => hb.2 (heq ▸ hr)
    refine ⟨?_, by simp [resume, blocksLeft, horder]⟩
    rw [ahead_eq (w := w.resume s .shifted) (horder.trans hlayout) hpre]
    simp [resume, hrow, hrest, drop_insertIdx]
  | @split t hnew horder hrow hrows =>
    have hrest : rest.flatMap s.body.row = rest.flatMap w.state.body.row :=
      List.flatMap_congr fun r hr => hrows r (fun heq => hb.2 (heq ▸ hr)) fun heq =>
        hnew (by simp [hlayout, ← heq, hr])
    have horder' : s.body.order = (pre ++ [b]) ++ t :: rest := by
      rw [horder, hlayout, layoutAfter_append hb.1, List.append_assoc]
      rfl
    constructor
    · rw [ahead_eq (w := w.resume s (.split t)) horder' (by simp [resume, hpre])]
      simp [resume, hrow, hrest]
    · simp [resume, blocksLeft, horder', hlayout, ← hpre]
      omega

variable (options : Options) (hI₀ : c₀.Intact) (hc₀ : c₀.Consistent)

include hI₀ hc₀ in
/-- A round keeps all that is known of the state. It turns to the next block, or it visits the first
of the instructions that are ahead. -/
theorem exists_advance (hs : Inv c₀ w.state) (hold : ∀ i ∈ w.ahead, c₀.HasInstruction i) :
    (w.advance options = .ok none ∧ w.ahead = []) ∨
      ∃ w', w.advance options = .ok (some w') ∧ Inv c₀ w'.state ∧
        ((w'.state = w.state ∧ w'.ahead = w.ahead ∧ w'.blocksLeft + 1 = w.blocksLeft) ∨
          ∃ i moved, (Devirtualizing.visit options i w.index).run w.state = .ok (moved, w'.state) ∧
            w.ahead = i :: w'.ahead ∧ w'.blocksLeft = w.blocksLeft ∧
            Devirtualizing.Visited c₀ w.state w'.state) := by
  have hI := hs.stage.intact
  cases hblock : w.block? with
  | none =>
    exact .inl ⟨by simp [advance, hblock], ahead_eq_nil hblock⟩
  | some b =>
    right
    obtain ⟨x, hx⟩ := exists_block_iff.2 ((hI.mem_order b).1 (List.mem_of_getElem? hblock))
    obtain ⟨pre, rest, hlayout, hpre⟩ := exists_order hblock
    have hahead := ahead_eq hlayout hpre
    rw [row_eq hx] at hahead
    cases hi : x.instructions[w.index]? with
    | none =>
      refine ⟨{ w with position := w.position + 1, index := 0 }, ?_, hs,
        .inl ⟨rfl, ahead_nextBlock hblock (row_eq hx ▸ hi)⟩⟩
      simp [advance, hblock, instruction?, hx, hi]
    | some i =>
      have hnew : Devirtualizing.Ahead c₀ x w.index := by
        intro m j hm hj
        refine hold j (hahead ▸ List.mem_append_left _ (List.mem_of_getElem? (i := m - w.index) ?_))
        rw [List.getElem?_drop, ← hj]
        congr 1
        omega
      have hvisit : Devirtualizing.Runs (Devirtualizing.visit options i w.index) w.state _ :=
        Devirtualizing.runs_visit hI₀ hc₀ hs hx hi hnew
      obtain ⟨moved, s, hrun, hinv, hadvanced, hvisited⟩ := hvisit
      refine ⟨w.resume s moved, by simp [advance, hblock, instruction?, hx, hi, hrun], ?_⟩
      rw [state_resume]
      obtain ⟨hahead', hblocks⟩ := ahead_resume hI.order_nodup hblock (row_eq hx ▸ hi) hadvanced
      exact ⟨hinv, .inr ⟨i, moved, hrun, hahead', hblocks, hvisited⟩⟩

include hI₀ hc₀ in
/-- A walk with enough rounds comes to its end. What every visit passes on, from the instructions
still ahead and the state before it to those after it, holds at the end. -/
theorem exists_run {motive : List InstrId → Devirtualization.State h → Prop} {rounds : Nat}
    (hvisit : ∀ {i rest s s' moved index}, Inv c₀ s → Devirtualizing.Visited c₀ s s' →
      motive (i :: rest) s → (Devirtualizing.visit options i index).run s = .ok (moved, s') →
      motive rest s')
    (hs : Inv c₀ w.state) (hm : motive w.ahead w.state)
    (hold : ∀ i ∈ w.ahead, c₀.HasInstruction i)
    (hrounds : w.ahead.length + w.blocksLeft < rounds) :
    ∃ s, Walk.run options rounds w = .ok s ∧ Inv c₀ s ∧ motive [] s := by
  induction rounds generalizing w with
  | zero => omega
  | succ rounds ih =>
    rcases exists_advance options hI₀ hc₀ hs hold with ⟨hend, hnil⟩ | ⟨w', hadvance, hs', hnext⟩
    · exact ⟨w.state, by simp [Walk.run, hend], hs, hnil ▸ hm⟩
    · have hless : motive w'.ahead w'.state ∧ (∀ i ∈ w'.ahead, c₀.HasInstruction i) ∧
          w'.ahead.length + w'.blocksLeft < rounds := by
        rcases hnext with ⟨hstate, hahead, hblocks⟩ | ⟨i, moved, hrun, hahead, hblocks, hvisited⟩
        · exact ⟨hstate ▸ hahead ▸ hm, hahead ▸ hold, by rw [hahead]; omega⟩
        · rw [hahead, List.length_cons] at hrounds
          exact ⟨hvisit hs hvisited (hahead ▸ hm) hrun,
            fun j hj => hold j (hahead ▸ List.mem_cons_of_mem _ hj), by omega⟩
      obtain ⟨s, hrun, hend⟩ := ih hs' hless.1 hless.2.1 hless.2.2
      exact ⟨s, by simp [Walk.run, hadvance, hrun], hend⟩

end Walk

namespace Body

variable {h : Hierarchy} {c : Body} {options : Options} {resolver : Resolver h}

theorem flatMap_row {l : List (BlockId × Block)} (hl : c.layout = .ok l) :
    c.order.flatMap c.row = l.flatMap fun q => q.2.instructions := by
  rw [layout, mapM_eq_ok] at hl
  generalize c.order = order at hl
  induction hl with
  | nil => rfl
  | cons hq _ ih =>
    simp only [bind_eq_ok, pure_eq_ok, Except.ok.injEq] at hq
    obtain ⟨x, hx, rfl⟩ := hq
    rw [List.flatMap_cons, List.flatMap_cons, ih, row_eq hx]

/-- At the start of the walk everything that is placed is ahead. -/
theorem ahead_start {tree : DominatorTree} {l : List InstrId} (hl : c.placed = .ok l) :
    ({ state := { body := c, resolver, tree } } : Walk h).ahead = l := by
  obtain ⟨layout, hlayout, hflat⟩ := bind_eq_ok.1 hl
  obtain rfl := Except.ok.inj hflat
  rw [← flatMap_row hlayout]
  cases horder : c.order <;> simp [Walk.ahead, horder]

/-- What is known of the state when a walk starts. -/
theorem inv_start {tree : DominatorTree} (resolver : Resolver h) (hI : c.Intact) (hc : c.Consistent)
    (htree : c.dominators = .ok tree) :
    Inv c ({ body := c, resolver, tree } : Devirtualization.State h) where
  stage := .refl hI hc
  tree := describes_of_dominators hI.toArranged hc.closed htree
  path := .refl
  casts := by simp
  affected v hv := absurd hv (by simp [← OrderedSet.mem_toList])

/-- The walk over a consistent body. -/
theorem exists_walkCalls {motive : List InstrId → Devirtualization.State h → Prop}
    (hvisit : ∀ {i rest s s' moved index}, Inv c s → Devirtualizing.Visited c s s' →
      motive (i :: rest) s → (Devirtualizing.visit options i index).run s = .ok (moved, s') →
      motive rest s')
    (hI : c.Intact) (hc : c.Consistent)
    (hm : ∀ l tree, (∀ i, i ∈ l ↔ c.HasInstruction i) → motive l { body := c, resolver, tree }) :
    ∃ s, c.walkCalls options resolver = .ok s ∧ Inv c s ∧ motive [] s := by
  obtain ⟨t, ht⟩ := hI.exists_dominators
  obtain ⟨l, hl, hmem⟩ := hI.exists_placed
  have hs := inv_start resolver hI hc ht
  have hahead : Walk.ahead { state := { body := c, resolver, tree := t } } = l := ahead_start hl
  obtain ⟨s, hrun, hend⟩ : ∃ s, Walk.run options (l.length + c.order.length + 1)
      { state := { body := c, resolver, tree := t } } = .ok s ∧ Inv c s ∧ motive [] s :=
    Walk.exists_run options hI hc hvisit hs (hahead ▸ hm l t hmem)
      (hahead ▸ fun i hi => (hmem i).1 hi) (by simp [hahead, Walk.blocksLeft])
  exact ⟨s, by simp [walkCalls, ht, walkRounds, hl, hrun], hend⟩

end Body

end Devirt
