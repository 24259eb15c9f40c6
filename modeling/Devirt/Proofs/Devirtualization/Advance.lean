import Devirt.Proofs.Devirtualization.State

/-!
What becomes of the layout when a call is treated. The call stays where it is, or a cast is put
before it, or it begins a block of its own; nothing else moves, and a cast that has been placed may
be read by the call.
-/

namespace Devirt

open Relation

namespace Body

variable {h : Hierarchy} {c₀ c c' d d' : Body} {b s t : BlockId} {i k : InstrId} {u v r : ValueId}
  {x : Block} {index : Nat} {jumps : List BlockId} {name : TypeName} {moved : Moved}
  {tree : DominatorTree}

/-- The instructions of a block; a block that does not exist has none. -/
def row (c : Body) (b : BlockId) : List InstrId :=
  match c.block b with
  | .ok x => x.instructions
  | .error _ => []

theorem row_eq (hx : c.block b = .ok x) : c.row b = x.instructions := by
  rw [row, hx]

theorem row_congr (h : ∀ {x}, c.block b = .ok x → ∃ y, d.block b = .ok y ∧
    y.instructions = x.instructions) (h' : d.HasBlock b → c.HasBlock b) : d.row b = c.row b := by
  by_cases hb : c.HasBlock b
  · obtain ⟨x, hx⟩ := exists_block_iff.2 hb
    obtain ⟨y, hy, hins⟩ := h hx
    rw [row_eq hx, row_eq hy, hins]
  · have hnone : ∀ {e : Body}, ¬ e.HasBlock b → e.row b = [] := by
      intro e he
      rw [row]
      split
      · rename_i x hx
        exact absurd (hasBlock_of_block hx) he
      · rfl
    rw [hnone hb, hnone (mt h' hb)]

theorem SameShape.row_eq (h : SameShape c d) : d.row b = c.row b :=
  row_congr (fun hx => (h.exists_block hx).imp fun _ hy => ⟨hy.1, hy.2.1⟩) h.hasBlock_iff.1

/-- How the layout changes when the call at the index of a block is treated. -/
inductive Advanced (c d : Body) (b : BlockId) (index : Nat) : Moved → Prop
  | stayed (horder : d.order = c.order) (hrows : ∀ s, d.row s = c.row s) :
      Advanced c d b index .stayed
  | shifted {k : InstrId} (horder : d.order = c.order) (hrow : d.row b = (c.row b).insertIdx index k)
      (hrows : ∀ s, s ≠ b → d.row s = c.row s) : Advanced c d b index .shifted
  | split {t : BlockId} (hnew : t ∉ c.order) (horder : d.order = layoutAfter c.order b t)
      (hrow : d.row t = (c.row b).drop index)
      (hrows : ∀ s, s ≠ b → s ≠ t → d.row s = c.row s) : Advanced c d b index (.split t)

namespace Advanced

theorem of_tweaks (ht : ReflTransGen (Tweak h c₀) c d) : Advanced c d b index .stayed := by
  refine .stayed ?_ fun s => (sameShape_of_tweaks ht).row_eq
  induction ht with
  | refl => rfl
  | tail _ hstep ih => exact hstep.order_eq.trans ih

/-- Tweaks before and after make no difference. -/
theorem congr (ht : Advanced c c' b index .stayed) (ha : Advanced c' d b index moved)
    (ht' : Advanced d d' b index .stayed) : Advanced c d' b index moved := by
  obtain ⟨ho, hr⟩ := ht
  obtain ⟨ho', hr'⟩ := ht'
  cases ha with
  | stayed horder hrows =>
    exact .stayed (ho'.trans (horder.trans ho)) fun s => (hr' s).trans ((hrows s).trans (hr s))
  | shifted horder hrow hrows =>
    exact .shifted (ho'.trans (horder.trans ho)) (by rw [hr', hrow, hr])
      fun s hs => (hr' s).trans ((hrows s hs).trans (hr s))
  | split hnew horder hrow hrows =>
    exact .split (ho ▸ hnew) (by rw [ho', horder, ho]) (by rw [hr', hrow, hr])
      fun s hs hst => (hr' s).trans ((hrows s hs hst).trans (hr s))

end Advanced

theorem row_inserted {op : Operation} (hx : c.block b = .ok x) :
    (c.inserted b index op).row b = (c.row b).insertIdx index ⟨c.instructions.length⟩ := by
  rw [row_eq (block_inserted.2 ⟨x, hx, if_pos rfl⟩), row_eq hx]

theorem row_inserted_of_ne {op : Operation} (hs : s ≠ b) :
    (c.inserted b index op).row s = c.row s :=
  row_congr (fun hx => ⟨_, block_inserted.2 ⟨_, hx, if_neg hs⟩, rfl⟩) (by simp)

theorem row_splitted_of_ne (hs : s ≠ b) (hst : s ≠ ⟨c.blocks.length⟩) :
    (c.splitted b index x jumps).row s = c.row s := by
  refine row_congr (fun hy => ⟨_, block_splitted_old hy, ?_⟩) fun h => ?_
  · rw [if_neg hs, instructions_relinked]
  · exact (hasBlock_splitted.1 h).resolve_right hst

theorem Placement.advanced (hI : c.Arranged) (hp : Placement h c₀ c b index i moved d) :
    Advanced c d b index moved := by
  cases hp with
  | insert hplace hguard =>
    exact .shifted rfl (row_inserted hplace.block) fun s hs => row_inserted_of_ne hs
  | cut hplace hguard hjumps =>
    have hne := (hasBlock_of_block hplace.block).ne_next
    refine .split (fun hmem => ?_) rfl ?_ fun s hs hst => ?_
    · exact ((hI.mem_order _).1 hmem).ne_next rfl
    · rw [row_inserted_of_ne hne.symm, row_eq block_splitted_tail, row_eq hplace.block]
      rfl
    · rw [row_inserted_of_ne hs, row_splitted_of_ne hs hst]

theorem Placement.describes_insert (hp : CastPlace h c₀ c b index i x u r name) (hI : c.Arranged)
    (ht : Describes tree c) : Describes tree (c.inserted b index (.cast u r name)) := by
  intro a s hs
  rw [dominates_inserted hp.block hp.index_lt hI]
  exact ht a s ((reachable_inserted hp.block hp.index_lt hI).1 hs)

namespace CastPlace

/-! ### Placing the cast -/

theorem insertAt_eq_ok (hp : CastPlace h c₀ c b index i x u r name) :
    c.insertAt b index (.cast u r name) =
      .ok (⟨c.instructions.length⟩, c.inserted b index (.cast u r name)) :=
  Body.insertAt_eq_ok.2 ⟨⟨x, hp.block, Nat.le_of_lt hp.index_lt⟩, hp.mentions.1, rfl, rfl⟩

theorem split_eq_ok (hp : CastPlace h c₀ c b index i x u r name) (hI : c.Arranged)
    (hclosed : c.Closed) (hjumps : c.normalSuccessors b = .ok jumps) :
    c.split b index = .ok (⟨c.blocks.length⟩, c.splitted b index x jumps) := by
  refine Body.split_eq_ok hp.block hp.index_lt (fun j hj => ?_) hjumps (fun t ht => ?_)
    fun e he => ?_
  · obtain ⟨w, hw, -⟩ := hI.exists_instruction hp.block hj
    exact exists_instruction_iff.1 ⟨w, hw⟩
  · exact hclosed b t (.inl ((mem_normalSuccessors hjumps).1 ht))
  · exact hclosed b _ (.inr ⟨x, hp.block, e, he, rfl⟩)

theorem insertAt_head (hp : CastPlace h c₀ c b index i x u r name) :
    (c.splitted b index x jumps).insertAt b index (.cast u r name) =
      .ok (⟨(c.splitted b index x jumps).instructions.length⟩,
        (c.splitted b index x jumps).inserted b index (.cast u r name)) := by
  refine Body.insertAt_eq_ok.2 ⟨⟨_, block_splitted_head hp.block, ?_⟩, hp.mentions.1, rfl, rfl⟩
  rw [List.length_append, hp.length_take]
  exact Nat.le_add_right _ _

/-! ### Reading the cast -/

/-- Without handlers the cast stands right before the call. -/
theorem readyAt_inserted (hp : CastPlace h c₀ c b index i x u r name) (hI : c.Intact) :
    (c.inserted b index (.cast u r name)).ReadyAt u i := by
  obtain ⟨hmentions, hfresh⟩ := hp.mentions
  have hle := Nat.le_of_lt hp.index_lt
  have hI' := hI.inserted hp.block hle hmentions hfresh
  have hx : (c.inserted b index (.cast u r name)).block b = .ok
      { x with instructions := x.instructions.insertIdx index ⟨c.instructions.length⟩ } :=
    block_inserted.2 ⟨x, hp.block, if_pos rfl⟩
  have hcast : (x.instructions.insertIdx index ⟨c.instructions.length⟩)[index]? =
      some ⟨c.instructions.length⟩ := (getElem?_insertIdx_cases hle).2 (.inr (.inl ⟨rfl, rfl⟩))
  have hcall : (x.instructions.insertIdx index ⟨c.instructions.length⟩)[index + 1]? = some i :=
    (getElem?_insertIdx_cases hle).2 (.inr (.inr ⟨Nat.lt_succ_self _, hp.place⟩))
  exact .of_place hI'.toArranged hx hcall fun _ =>
    (ready_iff_lt hI' ⟨_, operation_inserted.2 (.inr ⟨rfl, rfl⟩), rfl⟩ hx hcast).2
      (Nat.lt_succ_self _)

/-- The head goes on to the tail alone, which begins with the call. -/
theorem readyAt_cut (hp : CastPlace h c₀ c b index i x u r name) (hI : c.Intact)
    (hguard : x.isGuarded = true) :
    ((c.splitted b index x jumps).inserted b index (.cast u r name)).ReadyAt u i := by
  obtain ⟨hmentions, hfresh⟩ := hp.mentions
  have hne := (hasBlock_of_block hp.block).ne_next
  have hI₁ : (c.splitted b index x jumps).Intact := hI.splitted hp.block
  have hx := @block_splitted_head c b index x jumps hp.block
  generalize hz : ({ relinked b ⟨c.blocks.length⟩ jumps x.handlers b x with
    instructions := x.instructions.take index ++ [⟨c.instructions.length⟩] } : Block) = z at hx
  have hins : z.instructions = x.instructions.take index ++ [⟨c.instructions.length⟩] := by rw [← hz]
  have hhandlers : z.isGuarded = true := by
    rw [← hguard, ← hz]
    simp [Block.isGuarded]
  have hindex : index < z.instructions.length := by
    rw [hins, List.length_append, hp.length_take]
    simp
  have hI' := hI₁.inserted hx (Nat.le_of_lt hindex) (by simpa using hmentions)
    (by simpa using hfresh)
  have htail : ((c.splitted b index x jumps).inserted b index (.cast u r name)).block
      ⟨c.blocks.length⟩ = .ok (splitTail b index x) :=
    block_inserted.2 ⟨_, block_splitted_tail, if_neg hne.symm⟩
  have hfirst : (splitTail b index x).instructions[0]? = some i := by
    rw [splitTail, List.getElem?_drop, Nat.add_zero, hp.place]
  have hnext : (c.splitted b index x jumps).normalSuccessors b = .ok [⟨c.blocks.length⟩] :=
    normalSuccessors_eq_ok.2 ⟨z, hx, .inr ⟨⟨c.instructions.length⟩, .goto ⟨c.blocks.length⟩,
      by simp [hins], operation_splitted.2 (.inr ⟨rfl, rfl⟩), rfl⟩⟩
  have hresult : (c.splitted b index x jumps).ResultFrom (.cast u r name) b ⟨c.blocks.length⟩ :=
    ⟨z, hx, by
      rw [if_pos ⟨rfl, hhandlers⟩]
      exact ⟨hnext, _, block_splitted_tail, rfl⟩⟩
  refine .of_place hI'.toArranged htail hfirst fun _ => (ready_iff_available hI' ?_).2
    ⟨_, .inr ⟨_, _, _, operation_inserted.2 (.inr ⟨rfl, rfl⟩), rfl, blockOf_inserted.2
      (.inr ⟨rfl, rfl⟩), resultFrom_inserted hx hindex hresult⟩, dominates_self⟩
  intro j hj hof
  obtain rfl := hI'.eq_of_outputs ⟨_, operation_inserted.2 (.inr ⟨rfl, rfl⟩), rfl⟩ hj
  exact hne (Except.ok.inj ((blockOf_inserted.2 (.inr ⟨rfl, rfl⟩)).symm.trans hof))

end CastPlace

end Body

end Devirt
