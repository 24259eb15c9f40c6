import Devirt.Proofs.Devirtualization.Vacuity

/-!
Casts that are made twice. A cast is placed only where the latest one of the same receiver to the
same class does not reach, and no edit makes a cast reach a block that it did not reach before. So
one cast reaches a later one of the same object to the same class only if a third one has taken its
place in between, or if the object is a cast that has been placed after it.
-/

namespace Devirt

open Relation

namespace Body

variable {h : Hierarchy} {c₀ c d : Body} {b q s : BlockId} {i j k : InstrId} {u v r : ValueId}
  {name : TypeName} {x : Block} {index : Nat} {moved : Moved}

/-! ### Placements and the blocks that casts reach -/

/-- A guarded block that is still whole has nothing new in it if its call has no cast. -/
theorem OldPlace.hasInstruction (hc₀ : c₀.Consistent) (hr : Rewritten c₀ c) (hI : c.Arranged)
    (hp : OldPlace c₀ c b index i x) (hcall : c₀.IsCall i) (hguard : x.isGuarded = true)
    (hk : k ∈ x.instructions) : c₀.HasInstruction k := by
  by_contra hnew
  obtain ⟨x₀, hx₀, hspells⟩ := hp.spells
  obtain ⟨l₁, j, l₂, hl, -, -, -, call', -, -, hcall', -⟩ := hspells.exists_next hk hnew
  obtain ⟨call, hcall⟩ := hcall
  have hguard₀ : x₀.isGuarded = true := by
    rw [← hguard, Block.isGuarded, ← hr.handlers hx₀ hp.block, Block.isGuarded]
  have hi : i ∈ x₀.instructions := (hspells.mem_iff hp.old).1 (List.mem_of_getElem? hp.place)
  have hj : j ∈ x₀.instructions :=
    (hspells.mem_iff (hasInstruction_of_operation hcall')).1 (by simp [hl])
  -- only one instruction of the block may throw, so the cast stands before the call
  obtain rfl : i = j := hc₀.throws hx₀ hguard₀ i hi j hj _ _ hcall hcall' rfl rfl
  have hplace : x.instructions[l₁.length + 1]? = some i := by simp [hl]
  obtain rfl : index = l₁.length + 1 :=
    (List.getElem?_inj (List.getElem?_eq_some_iff.1 hp.place).1 (hI.nodup hp.block)).1
      (hp.place.trans hplace.symm)
  refine hnew (hp.unanchored k ?_)
  rw [hl, List.take_append, List.take_of_length_le (by omega)]
  simp

/-- A new cast does not stand in a block that is about to be cut. -/
theorem CastPlace.ne_block (hc₀ : c₀.Consistent) (hs : Stage c₀ c)
    (hp : CastPlace h c₀ c b index i x u r name) (hguard : x.isGuarded = true)
    (hk : ¬ c₀.HasInstruction k) (hof : c.blockOf k = .ok q) : q ≠ b := by
  rintro rfl
  obtain ⟨call, hcall, -⟩ := hp.call
  obtain ⟨y, hy, hmem⟩ := hs.intact.recorded hof
  obtain rfl := Except.ok.inj (hp.block.symm.trans hy)
  exact hk (hp.hasInstruction hc₀ hs.rewritten hs.intact.toArranged
    (hs.rewritten.isCall_old hp.old ⟨call, hcall⟩) hguard hmem)

namespace Placement

theorem hasBlock (hp : Placement h c₀ c b index i moved d) : c.HasBlock b := by
  cases hp with
  | insert hplace _ => exact hasBlock_of_block hplace.block
  | cut hplace _ _ => exact hasBlock_of_block hplace.block

/-- New casts stay in their blocks. -/
theorem blockOf (hc₀ : c₀.Consistent) (hs : Stage c₀ c) (hp : Placement h c₀ c b index i moved d)
    (hk : ¬ c₀.HasInstruction k) (hof : c.blockOf k = .ok q) : d.blockOf k = .ok q := by
  cases hp with
  | insert => exact blockOf_inserted.2 (.inl hof)
  | @cut x _ _ _ jumps hplace hguard hjumps =>
    exact blockOf_inserted.2 (.inl (blockOf_splitted_other hs.intact hplace.block hof
      (hplace.ne_block hc₀ hs hguard hk hof)))

/-- A new cast reaches no block that it has not reached before. -/
theorem outputReaches (hI₀ : c₀.Intact) (hc₀ : c₀.Consistent) (hs : Stage c₀ c)
    (hp : Placement h c₀ c b index i moved d) (hk : ¬ c₀.HasInstruction k)
    (hop : c.operation k = .ok (.cast v r name)) (hq : c.HasBlock q)
    (hreach : d.OutputReaches v q) : c.OutputReaches v q := by
  have hfresh : ∀ {u r' name'}, ¬ c.IsDefined u → (Operation.cast u r' name').out? ≠ some v := by
    rintro u r' name' hnot ⟨rfl⟩
    exact hnot (.inl ⟨k, _, hop, rfl⟩)
  cases hp with
  | insert hplace _ =>
    exact hreach.of_inserted hs.intact.toArranged hplace.block hplace.index_lt
      (hfresh (hplace.not_isDefined hs))
  | @cut x _ _ _ jumps hplace hguard hjumps =>
    obtain ⟨p, y, hof, -⟩ := hs.intact.exists_place hop
    have hI : (c.splitted b index x jumps).Intact := hs.intact.splitted hplace.block
    have hsplit : (c.splitted b index x jumps).OutputReaches v q := by
      refine hreach.of_inserted hI.toArranged (block_splitted_head hplace.block) ?_
        (hfresh (hplace.not_isDefined hs))
      rw [List.length_append, hplace.length_take]
      exact Nat.lt_succ_self _
    exact hsplit.of_splitted hs.intact hplace.block hplace.index_lt
      (hs.rewritten.closed hI₀.toArranged hc₀.closed) ⟨_, hop, rfl⟩ hof
      (hplace.ne_block hc₀ hs hguard hk hof) hq

end Placement

end Body

namespace Devirtualizing

open Body Devirtualization.State

variable {h : Hierarchy} {s s' : Devirtualization.State h} {c₀ c d : Body} {b : BlockId}
  {i : InstrId} {index : Nat} {moved : Moved} {casts : List ((ValueId × TypeName) × ValueId)}

/-- Of the casts, listed with the latest first, none is reached by the one before it of the same
receiver to the same class. -/
def Unreached (c : Body) (casts : List ((ValueId × TypeName) × ValueId)) : Prop :=
  ∀ key u rest v k b, (key, u) :: rest <:+ casts → rest.lookup key = some v →
    c.Outputs k u → c.blockOf k = .ok b → ¬ c.OutputReaches v b

theorem Unreached.sameShape (hu : Unreached c casts) (hshape : SameShape c d) :
    Unreached d casts := by
  intro key u rest v k b
  rw [hshape.outputs_iff, hshape.blockOf_eq, hshape.outputReaches_iff]
  exact hu key u rest v k b

theorem Unreached.placement (hu : Unreached c casts) (hI₀ : c₀.Intact) (hc₀ : c₀.Consistent)
    (hs : Stage c₀ c) (hcasts : ∀ e ∈ casts, ∃ k r, ¬ c₀.HasInstruction k ∧
      c.operation k = .ok (.cast e.2 r e.1.2))
    (hp : Placement h c₀ c b index i moved d) : Unreached d casts := by
  intro key u rest v k q hsuffix hlookup hout hof hreach
  obtain ⟨j, r, hj, hop⟩ := hcasts (key, u) (hsuffix.mem List.mem_cons_self)
  obtain ⟨p, y, hp', hy, -⟩ := hs.intact.exists_place hop
  obtain rfl := (hp.stage hI₀ hc₀ hs).intact.eq_of_outputs ⟨_, hp.operation hop, rfl⟩ hout
  obtain rfl := Except.ok.inj ((hp.blockOf hc₀ hs hj hp').symm.trans hof)
  obtain ⟨l₁, l₂, hrest, -⟩ := List.lookup_eq_some_iff.1 hlookup
  obtain ⟨j', r', hj', hop'⟩ := hcasts (key, v) (hsuffix.mem (by simp [hrest]))
  exact hu key u rest v j p hsuffix hlookup ⟨_, hop, rfl⟩ hp'
    (hp.outputReaches hI₀ hc₀ hs hj' hop' (hasBlock_of_block hy) hreach)

theorem Unreached.visited (hu : Unreached s.body s.casts) (hI₀ : c₀.Intact)
    (hc₀ : c₀.Consistent) (hs : Inv c₀ s) (hv : Visited c₀ s s') :
    Unreached s'.body s'.casts := by
  cases hv with
  | tweaked ht =>
    rw [ht.casts]
    exact hu.sameShape (sameShape_of_tweaks ht.body)
  | @placed s₁ s₂ b _ _ k _ u r name ht hp hcast hof hcasts hmissed ht' =>
    have hs₁ := hs.tweaked ht
    have hshape := sameShape_of_tweaks ht.body
    have hkept : ∀ e ∈ s.casts, ∃ k r, ¬ c₀.HasInstruction k ∧
        s₁.body.operation k = .ok (.cast e.2 r e.1.2) :=
      fun e he => (hs₁.casts e (ht.casts ▸ he)).1
    have hold : Unreached s₂.body s.casts :=
      (hu.sameShape hshape).placement hI₀ hc₀ hs₁.stage hkept hp
    rw [ht'.casts, hcasts]
    refine Unreached.sameShape ?_ (sameShape_of_tweaks ht'.body)
    intro key w rest v j q hsuffix hlookup hout hofj hreach
    rcases List.suffix_cons_iff.1 hsuffix with heq | hsuffix
    · obtain ⟨⟨rfl, rfl⟩, rfl⟩ : (key = (r, name) ∧ w = u) ∧ rest = s.casts := by simpa using heq
      obtain rfl := (hp.stage hI₀ hc₀ hs₁.stage).intact.eq_of_outputs ⟨_, hcast, rfl⟩ hout
      obtain rfl := Except.ok.inj (hof.symm.trans hofj)
      obtain ⟨l₁, l₂, hrest, -⟩ := List.lookup_eq_some_iff.1 hlookup
      obtain ⟨j', r', hj', hop'⟩ := hkept ((r, name), v) (by simp [hrest])
      refine hmissed v hlookup (hshape.outputReaches_iff.1 ?_)
      exact hp.outputReaches hI₀ hc₀ hs₁.stage hj' hop' hp.hasBlock hreach
    · exact hold key w rest v j q hsuffix hlookup hout hofj hreach

/-- The first entry of a log with the key is what a lookup finds. -/
theorem exists_first_of_mem {log : List (((ValueId × TypeName) × ValueId) × InstrId)}
    {key : ValueId × TypeName} {u : ValueId} (hi : ((key, u), i) ∈ log) :
    ∃ l₁ w k l₂, log = l₁ ++ ((key, w), k) :: l₂ ∧ (log.map (·.1)).lookup key = some w ∧
      ((key, u), i) ∉ l₁ := by
  induction log with
  | nil => simp at hi
  | cons e log ih =>
    obtain ⟨⟨other, w⟩, k⟩ := e
    by_cases hkey : key = other
    · subst hkey
      exact ⟨[], w, k, log, rfl, by simp, by simp⟩
    · obtain ⟨l₁, w', k', l₂, rfl, hlookup, hnot⟩ := ih (by simpa [hkey] using hi)
      refine ⟨((other, w), k) :: l₁, w', k', l₂, rfl, ?_, by simp [hkey, hnot]⟩
      rw [List.map_cons, List.lookup_cons, beq_eq_false_iff_ne.2 hkey]
      exact hlookup

/-- When the later of two casts with one key was placed, what was kept for the key was the earlier
one or a cast placed after that. -/
theorem Logged.exists_latest {log : List (((ValueId × TypeName) × ValueId) × InstrId)}
    {key : ValueId × TypeName} {u v : ValueId} {j : InstrId} (hs : Logged c₀ s log)
    (hi : ((key, u), i) ∈ log) (hj : ((key, v), j) ∈ log) (hij : i.index < j.index) :
    ∃ rest w k, (key, v) :: rest <:+ s.casts ∧ rest.lookup key = some w ∧ ((key, w), k) ∈ log ∧
      k.index < j.index ∧ (k = i ∧ w = u ∨ i.index < k.index) := by
  obtain ⟨pre, post, rfl⟩ := List.append_of_mem hj
  obtain ⟨-, hsorted, hpre⟩ := List.pairwise_append.1 hs.sorted
  obtain ⟨hpost, hsorted⟩ := List.pairwise_cons.1 hsorted
  have hi : ((key, u), i) ∈ post := by
    rcases List.mem_append.1 hi with hi | hi
    · have : j.index < i.index := hpre _ hi _ List.mem_cons_self
      omega
    · refine (List.mem_cons.1 hi).resolve_left fun heq => ?_
      obtain ⟨-, rfl⟩ := Prod.mk.inj heq
      omega
  have hsuffix : (key, v) :: post.map (·.1) <:+ s.casts :=
    ⟨pre.map (·.1), by rw [hs.casts, List.map_append, List.map_cons]⟩
  obtain ⟨l₁, w, k, l₂, rfl, hlookup, hnot⟩ := exists_first_of_mem hi
  refine ⟨_, w, k, hsuffix, hlookup, by simp, hpost ((key, w), k) (by simp), ?_⟩
  rcases List.mem_cons.1 ((List.mem_append.1 hi).resolve_left hnot) with heq | hi
  · obtain ⟨hentry, rfl⟩ := Prod.mk.inj heq
    exact .inl ⟨rfl, (Prod.mk.inj hentry).2.symm⟩
  · exact .inr ((List.pairwise_cons.1 (List.pairwise_append.1 hsorted).2.1).1 _ hi)

end Devirtualizing

namespace Body

variable {h : Hierarchy} {c : Body} {options : Options} {resolver : Resolver h}
  {run : PassRun h Devirtualized}

theorem unreached_of_walkCalls {s : Devirtualization.State h} (hI : c.Intact) (hc : c.Consistent)
    (hwalk : c.walkCalls options resolver = .ok s) :
    Devirtualization.State.Inv c s ∧ Devirtualizing.Unreached s.body s.casts := by
  obtain ⟨s', hwalk', hs'⟩ : ∃ s', c.walkCalls options resolver = .ok s' ∧
      Devirtualization.State.Inv c s' ∧ Devirtualizing.Unreached s'.body s'.casts :=
    exists_walkCalls (motive := fun _ s => Devirtualizing.Unreached s.body s.casts)
      (fun hs hv hu _ => hu.visited hI hc hs hv) hI hc fun _ _ _ _ _ _ _ _ _ hsuffix => by
        simp at hsuffix
  obtain rfl := Except.ok.inj (hwalk.symm.trans hwalk')
  exact hs'

/-- If a cast that has been added reaches a later one of the same object to the same class, then the
object is the output of a cast that has been added after the first one, or between the two another
cast to the class has been added for the object that does not reach the second one. -/
theorem castAfter_or_cast_between {method : MethodRef} {steps : List DraftStep}
    {made : List Created} {t : DominatorTree} {i j : InstrId} {u v o : ValueId} {name : TypeName}
    {b : BlockId} (hwritten : Body.ofSteps method steps = .ok (made, c))
    (hvalid : c.violations = .ok []) (hrun : c.devirtualize options resolver = .ok run)
    (ht : run.body.dominators = .ok t) (hi : ¬ c.HasInstruction i) (hij : i.index < j.index)
    (hopi : run.body.operation i = .ok (.cast u o name))
    (hopj : run.body.operation j = .ok (.cast v o name)) (hb : run.body.blockOf j = .ok b)
    (hreach : run.body.blockOf i = .ok b ∨ run.body.availableIn t u b = .ok true) :
    run.body.CastAfter i o ∨
      ∃ k w r, i.index < k.index ∧ k.index < j.index ∧
        run.body.operation k = .ok (.cast w r name) ∧ (r = o ∨ run.body.CastAfter k r) ∧
        run.body.blockOf k ≠ .ok b ∧ run.body.availableIn t w b = .ok false := by
  have hI := intact_of_ofSteps hwritten
  have hc := (violations_eq_nil_iff hI).1 hvalid
  obtain ⟨s, affected, d, l, hwalk, hsettle, -, rfl⟩ := devirtualize_eq_ok.1 hrun
  have hretyped := retyped_of_settleTypes hsettle
  obtain ⟨hinv, hu⟩ := unreached_of_walkCalls hI hc hwalk
  obtain ⟨log, hs⟩ := exists_log hwalk
  have hshape : SameShape s.body d := by
    obtain ⟨type, rfl⟩ := hretyped
    exact sameShape_updateValues
  have hstage := hinv.stage.retyped hretyped
  have hclosed := hstage.rewritten.closed hI.toArranged hc.closed
  have hj : ¬ c.HasInstruction j := fun hj => hi (Nat.lt_trans hij hj)
  rcases hs.castAfter_or_mem hi (hretyped.operation.symm.trans hopi) with hafter | hi
  · exact .inl (hretyped.castAfter hafter)
  rcases hs.castAfter_or_mem hj (hretyped.operation.symm.trans hopj) with hafter | hj
  · obtain ⟨k, q, other, hlt, hop⟩ := hretyped.castAfter hafter
    exact .inl ⟨k, q, other, Nat.lt_trans hij hlt, hop⟩
  obtain ⟨rest, w, k, hsuffix, hlookup, hk, hkj, hik⟩ := hs.exists_latest hi hj hij
  have hmissed : ¬ d.OutputReaches w b := by
    rw [hshape.outputReaches_iff]
    refine hu _ v rest w j b hsuffix hlookup ?_ (hshape.blockOf_eq j ▸ hb)
    exact ⟨_, hretyped.operation.symm.trans hopj, rfl⟩
  obtain ⟨r, hopk, hr⟩ := (hs.logs _ hk).cast
  have hopk : d.operation k = .ok (.cast w r name) := hretyped.operation.trans hopk
  rcases hik with ⟨rfl, rfl⟩ | hik
  · exact absurd ((outputReaches_iff hstage.intact hclosed ht ⟨_, hopk, rfl⟩).2 hreach) hmissed
  · refine .inr ⟨k, w, r, hik, hkj, hopk, hr.imp_right hretyped.castAfter, ?_⟩
    exact (not_outputReaches_iff hstage.intact hclosed ht ⟨_, hopk, rfl⟩).1 hmissed

/-- Calls on a named receiver in both branches, and a third one after the first branch alone. -/
def callsInBranches : List DraftStep :=
  [.newBlock, .newBlock, .newBlock, .argument (.ofClass "I" .maybe),
    .dynamic ⟨0⟩ { name := "A", exact := true }, .localName ⟨0⟩ "x", .number ⟨0⟩ 1,
    .branch ⟨0⟩ ⟨1⟩ ⟨1⟩ ⟨2⟩, .call ⟨1⟩ .interface (.plain "I" "f") [⟨0⟩], .goto ⟨1⟩ ⟨3⟩,
    .call ⟨2⟩ .interface (.plain "I" "f") [⟨0⟩], .ret ⟨2⟩ none,
    .call ⟨3⟩ .interface (.plain "I" "f") [⟨0⟩], .ret ⟨3⟩ none]

set_option synthInstance.maxSize 256 in
/-- The cast of the other branch comes between. -/
theorem cast_between_callsInBranches :
    ∃ made c, ofSteps (.plain "A" "f") callsInBranches = .ok (made, c) ∧ c.violations = .ok [] ∧
      ∃ run t, c.devirtualize {} (∅ : Resolver Devirtualizing.implementedOnce) = .ok run ∧
        run.body.dominators = .ok t ∧ ¬ c.HasInstruction ⟨9⟩ ∧
        run.body.operation ⟨9⟩ = .ok (.cast ⟨2⟩ ⟨0⟩ "A") ∧
        run.body.operation ⟨11⟩ = .ok (.cast ⟨4⟩ ⟨0⟩ "A") ∧ run.body.blockOf ⟨11⟩ = .ok ⟨3⟩ ∧
        run.body.availableIn t ⟨2⟩ ⟨3⟩ = .ok true ∧
        ∃ (k : InstrId) (w r : ValueId), 9 < k.index ∧ k.index < 11 ∧
          run.body.operation k = .ok (.cast w r "A") ∧ (r = ⟨0⟩ ∨ run.body.CastAfter k r) ∧
          run.body.blockOf k ≠ .ok ⟨3⟩ ∧ run.body.availableIn t w ⟨3⟩ = .ok false := by
  obtain ⟨made, c, hwritten, hvalid, run, hrun, hlength, hk, hfirst, hsecond, hthird, hb, t, ht,
      hreach⟩ :
      ∃ made c, ofSteps (.plain "A" "f") callsInBranches = .ok (made, c) ∧ c.violations = .ok [] ∧
        ∃ run, c.devirtualize {} (∅ : Resolver Devirtualizing.implementedOnce) = .ok run ∧
          run.body.instructions.length = 12 ∧ ¬ c.HasInstruction ⟨9⟩ ∧
          run.body.operation ⟨9⟩ = .ok (.cast ⟨2⟩ ⟨0⟩ "A") ∧
          run.body.operation ⟨10⟩ = .ok (.cast ⟨3⟩ ⟨0⟩ "A") ∧
          run.body.operation ⟨11⟩ = .ok (.cast ⟨4⟩ ⟨0⟩ "A") ∧ run.body.blockOf ⟨11⟩ = .ok ⟨3⟩ ∧
          ∃ t, run.body.dominators = .ok t ∧ run.body.availableIn t ⟨2⟩ ⟨3⟩ = .ok true := by
    decide +kernel
  refine ⟨made, c, hwritten, hvalid, run, t, hrun, ht, hk, hfirst, hthird, hb, hreach, ?_⟩
  rcases castAfter_or_cast_between hwritten hvalid hrun ht hk (j := ⟨11⟩) (by decide) hfirst hthird
    hb (.inr hreach) with ⟨⟨n⟩, r, other, hlt, hop⟩ | hbetween
  · -- the receiver is an argument
    have hn : n < 12 := hlength ▸ hasInstruction_of_operation hop
    obtain rfl | rfl : n = 10 ∨ n = 11 := by
      have : 9 < n := hlt
      omega
    · simp [hsecond] at hop
    · simp [hthird] at hop
  · exact hbetween

set_option synthInstance.maxSize 256 in
/-- The receiver is cast again although the first cast dominates the call: the cast of the other
branch, which does not, is the only one that is looked at. -/
theorem devirtualize_callsInBranches :
    ∃ made c, ofSteps (.plain "A" "f") callsInBranches = .ok (made, c) ∧ c.violations = .ok [] ∧
      ∃ run, c.devirtualize {} (∅ : Resolver Devirtualizing.implementedOnce) = .ok run ∧
        ∃ out, run.result = .ok out ∧ ¬ c.HasInstruction ⟨9⟩ ∧ ¬ c.HasInstruction ⟨11⟩ ∧
        run.body.operation ⟨9⟩ = .ok (.cast ⟨2⟩ ⟨0⟩ "A") ∧
        run.body.operation ⟨11⟩ = .ok (.cast ⟨4⟩ ⟨0⟩ "A") ∧ run.body.blockOf ⟨11⟩ = .ok ⟨3⟩ ∧
        ∃ t, run.body.dominators = .ok t ∧ run.body.availableIn t ⟨2⟩ ⟨3⟩ = .ok true := by
  decide +kernel

end Body

end Devirt
