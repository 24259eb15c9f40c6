import Devirt.Proofs.Devirtualization.Overlay
import Devirt.Proofs.Devirtualization.Validity

/-!
Devirtualization can be erased. Whatever body it is run on and whatever comes of it, it adds casts
and jumps, lets others read a cast in the place of what is cast, and retargets calls. Dropping what
has been added and reading through the casts gives the body back.
-/

namespace Devirt

/-! ### The pass -/

namespace Devirtualizing

open Body

variable {h : Hierarchy} {s s' : Devirtualization.State h} {c₀ : Body} {i k : InstrId} {index : Nat}
  {call : Call} {target : MethodRef} {receiver v : ValueId} {holder : TypeName} {type : StaticType}
  {options : Options} {moved : Moved}

/-- The body of the state overlays `c₀`, and casts are kept for what they have come from. -/
abbrev Overlays (c₀ : Body) (s : Devirtualization.State h) : Prop :=
  Overlaid c₀ s.body [] s.casts

theorem overlaid_newCastValue (hs : Overlays c₀ s)
    (hrun : (newCastValue receiver holder type).run s = .ok (v, s')) :
    Overlaid c₀ s'.body [v] s'.casts := by
  obtain ⟨rfl, c, rfl, rfl | ⟨r, hset⟩⟩ := newCastValue_cases hrun
  · exact hs.createValue type
  · have hcreated := hs.createValue type
    obtain ⟨-, rfl⟩ := modifyValue_eq_ok.1 hset
    dsimp only
    refine hcreated.updateValues fun u y hu => ?_
    rw [if_neg]
    · exact ⟨rfl, rfl⟩
    · rintro rfl
      exact (hcreated.unmade _ List.mem_cons_self).1 hu

theorem overlaid_placeCast (hs : Overlays c₀ s) (hr : s.body.HasValue receiver)
    (hrun : (placeCast i index receiver holder type).run s = .ok ((k, v, moved), s')) :
    Overlays c₀ s' ∧ ¬ c₀.HasInstruction k ∧
      s'.body.operation k = .ok (.cast v receiver holder) := by
  obtain ⟨s₁, b, c, stats, hnew, -, hroom, hinsert, hcasts, -⟩ := placeCast_cases hrun
  have hs₁ := overlaid_newCastValue hs hnew
  have hc : Overlaid c₀ c [v] s₁.casts := by
    cases hroom with
    | whole => exact hs₁
    | split hsplit => exact hs₁.split hsplit
  have hrv : receiver ≠ v := by
    rintro rfl
    exact (run_newCastValue hnew).2.1 hr
  obtain ⟨⟨x, hx, hindex⟩, hmentions, rfl, hbody⟩ := insertAt_eq_ok.1 hinsert
  rw [Overlays, hbody, hcasts]
  refine ⟨hc.cast hx hindex (hmentions v ?_) (hmentions receiver ?_) hrv,
    hc.not_hasInstruction_next, operation_inserted.2 (.inr ⟨rfl, rfl⟩)⟩ <;>
    simp [Operation.mentions, Operation.out?, Operation.operands]

/-- The call is let read the cast that has been placed for it. -/
theorem overlaid_readCast {s₁ : Devirtualization.State h} {c : Body} {x : Value} {changed : Bool}
    (hs : Overlays c₀ s) (hop : s.body.operation i = .ok (.call call))
    (hx : s.body.value receiver = .ok x)
    (hplace : (placeCast i index receiver holder type).run s = .ok ((k, v, moved), s₁))
    (hc : s₁.body.redirectOperand i receiver v = .ok (changed, c)) :
    Overlaid c₀ c [] (((receiver, holder), v) :: s₁.casts) ∧ ¬ c₀.HasInstruction k ∧
      c.operation k = .ok (.cast v receiver holder) := by
  obtain ⟨hs₁, hk, hcast⟩ := overlaid_placeCast hs (hasValue_of_value hx) hplace
  have hop₁ := (run_placeCast hplace).1.body.operation i _ hop
  have hik : i ≠ k := ne_of_call_of_cast hop₁ hcast
  obtain ⟨hs₂, hcast₂⟩ := (hs₁.keepCast hk hcast).redirectOperand_cast hk hcast hik hc
  exact ⟨hs₂, hk, hcast₂⟩

theorem overlaid_castReceiver (hs : Overlays c₀ s) (hop : s.body.operation i = .ok (.call call))
    (hrun : (castReceiver i index receiver holder).run s = .ok (moved, s')) : Overlays c₀ s' := by
  rcases castReceiver_cases hrun with ⟨rfl, -⟩ | ⟨cast, changed, hmem, hc, hcasts, -⟩ |
    ⟨x, k, v, s₁, s₂, changed, ⟨hx, -⟩, hplace, hc, hcasts, -, -, hspread⟩
  · exact hs
  · rw [Overlays, hcasts]
    refine hs.redirectOperand_call hop (fun w hw => ?_) hc
    obtain ⟨w', hr, hcast⟩ := hs.kept _ hmem
    rwa [hw.functional hs.castsAnew hr]
  · obtain ⟨hs₂, hk, hcast₂⟩ := overlaid_readCast hs hop hx hplace hc
    obtain ⟨hcasts', -, -, hbody⟩ := spreadCast_cases hspread
    rw [Overlays, hcasts', hcasts]
    rcases hbody with hbody | ⟨⟨tree, excluded, replaced, huses⟩, -⟩
    · rw [hbody]
      exact hs₂
    · exact hs₂.redirectUses hk hcast₂ huses

theorem overlaid_idle (hs : Overlays c₀ s) (hidle : Idle s s') : Overlays c₀ s' := by
  rw [Overlays, hidle.body, hidle.casts]
  exact hs

theorem overlaid_turns (hs : Overlays c₀ s) (ht : Turns i call target s s')
    (hop : s.body.operation i = .ok (.call call)) : Overlays c₀ s' := by
  rw [Overlays, ht.body, ht.casts]
  exact hs.retargeted hop

theorem overlaid_visit (hs : Overlays c₀ s)
    (hrun : (visit options i index).run s = .ok (moved, s')) : Overlays c₀ s' := by
  apply visit_invariant overlaid_idle overlaid_turns _ hs hrun
  intro call target receiver moved s₁ s₂ hs₁ hturns hop _ _ hcast
  exact overlaid_castReceiver hs₁ (hturns.operation hop) hcast

end Devirtualizing

namespace Body

variable {h : Hierarchy} {c d : Body} {options : Options} {resolver : Resolver h}

theorem overlaid_of_devirtualize (hc : c.Grounded) {run : PassRun h Devirtualized}
    (hrun : c.devirtualize options resolver = .ok run) :
    ∃ casts, Overlaid c run.body [] casts := by
  obtain ⟨s, affected, d, l, hwalk, hsettle, -, rfl⟩ := devirtualize_eq_ok.1 hrun
  have hs : Devirtualizing.Overlays c s :=
    walkCalls_invariant Devirtualizing.overlaid_visit (fun _ => .start hc) hwalk
  obtain ⟨type, rfl⟩ := retyped_of_settleTypes hsettle
  refine ⟨s.casts, ?_⟩
  dsimp only
  exact hs.updateValues fun _ _ _ => ⟨rfl, rfl⟩

/-- Erasing what `d` has more than `c` gives `c` back, if every value is read as its origin. -/
structure Erases (c d : Body) (origin : ValueId → ValueId) : Prop where
  /-- All that has been added are jumps and casts. -/
  created : ∀ {k op}, d.operation k = .ok op → ¬ c.HasInstruction k →
    (∃ t, op = .goto t) ∨ ∃ u r name, op = .cast u r name
  /-- The other instructions stand in the same order as before. -/
  placed : ∃ l₀ l, c.placed = .ok l₀ ∧ d.placed = .ok l ∧ c.own l = l₀
  origin_old : ∀ {v}, c.HasValue v → origin v = v
  /-- A new value is defined by a new cast alone, and has the origin of what is cast. -/
  origin_new : ∀ {u}, d.HasValue u → ¬ c.HasValue u →
    ∃ k r name, ¬ c.HasInstruction k ∧ d.operation k = .ok (.cast u r name) ∧
      (∀ j, d.Outputs j u → j = k) ∧ origin u = origin r
  /-- Going from a new value to what is cast, again and again, ends at the origin. -/
  stands : ∀ {u}, d.HasValue u → Stands c d u (origin u)
  operation : ∀ {i op₀}, c.operation i = .ok op₀ →
    ∃ op target, d.operation i = .ok op ∧ op.mapOperands origin = op₀.withTarget target
  phis : ∀ {b x₀}, c.block b = .ok x₀ → ∃ x, d.block b = .ok x ∧
    x.phis.length = x₀.phis.length ∧ ∀ (n : Nat) p₀, x₀.phis[n]? = some p₀ →
      ∃ p, x.phis[n]? = some p ∧ p.out = p₀.out ∧ p₀.operands <+: p.operands.map origin
  value : ∀ {v y₀}, c.value v = .ok y₀ →
    ∃ y, d.value v = .ok y ∧ y.dynamic = y₀.dynamic ∧ y.localName = y₀.localName

/-- Reading through casts is a function. -/
theorem CastsAnew.exists_origin (hc : CastsAnew c d) :
    ∃ origin : ValueId → ValueId, ∀ {u w}, Stands c d u w → origin u = w := by
  classical
  refine ⟨fun u => if hu : ∃ w, Stands c d u w then hu.choose else u, fun {u w} hw => ?_⟩
  have hu : ∃ w, Stands c d u w := ⟨w, hw⟩
  refine (dif_pos hu).trans ?_
  exact hu.choose_spec.functional hc hw

theorem Overlaid.exists_erases {casts : List ((ValueId × TypeName) × ValueId)} (hc : c.Grounded)
    (ho : Overlaid c d [] casts) : ∃ origin, Erases c d origin := by
  obtain ⟨origin, horigin⟩ := ho.castsAnew.exists_origin
  -- what has taken the place of an old operand has it as its origin
  have hold : ∀ {u v}, c.HasValue v → Succeeds c c d u v → origin u = v :=
    fun hv hsucceeds => horigin (hsucceeds _ (.old hv))
  refine ⟨origin, ⟨fun hop hk => ?_, ?_, fun hv => horigin (.old hv), fun {u} hu hnew => ?_,
    fun hu => ?_, fun {i op₀} hop₀ => ?_, fun hx₀ => ?_,
    fun hy => ho.carries.value (hasValue_of_value hy) hy⟩⟩
  · exact (ho.created hop hk).imp_right fun ⟨u, r, name, hop, _⟩ => ⟨u, r, name, hop⟩
  · obtain ⟨l₀, hl₀, hmem⟩ := hc.exists_placed
    obtain ⟨l, hl, -⟩ := ho.grounded.exists_placed
    refine ⟨l₀, l, hl₀, hl, ?_⟩
    rw [← listed_eq hl, ho.carries.listed, listed_eq hl₀]
    exact List.filter_eq_self.2 fun i hi => decide_eq_true ((hmem i).1 hi)
  · obtain ⟨w, hw⟩ := ho.stands hu (by simp)
    cases hw with
    | old hw => exact absurd hw hnew
    | @cast k _ r _ name hk hop hr =>
      refine ⟨k, r, name, hk, hop, fun j hj => ho.once hnew hj ⟨_, hop, rfl⟩, ?_⟩
      rw [horigin hr, horigin (.cast hk hop hr)]
  · obtain ⟨w, hw⟩ := ho.stands hu (by simp)
    rwa [horigin hw]
  · obtain ⟨op, hop, f, target, rfl, hf⟩ := ho.carries.operation hop₀
    refine ⟨_, target, hop, ?_⟩
    rw [Operation.mapOperands_withTarget, Operation.mapOperands_mapOperands]
    congr 1
    refine (Operation.mapOperands_congr fun v hv => ?_).trans Operation.mapOperands_id
    exact hold (hc.hasValue hop₀ v (List.mem_append_right _ hv)) (hf v hv)
  · obtain ⟨x, hx, hlen, hphis⟩ := ho.carries.block hx₀
    refine ⟨x, hx, hlen, fun n p₀ hp₀ => ?_⟩
    obtain ⟨p, hp, hout, hoperands⟩ := hphis n p₀ hp₀
    refine ⟨p, hp, hout, List.prefix_iff_getElem?.2 fun e he => ?_⟩
    obtain ⟨u, hu, hsucceeds⟩ := hoperands e _ (List.getElem?_eq_getElem he)
    have hv := hc.phi_hasValue ⟨_, hx₀, List.mem_of_getElem? hp₀⟩ _
      (List.mem_cons_of_mem _ (List.getElem_mem he))
    rw [List.getElem?_map, hu, Option.map_some, hold hv hsucceeds]

/-- Devirtualization can be erased, whether or not the body passes the check at its end. -/
theorem exists_erases_of_devirtualize (hc : Made c) {run : PassRun h Devirtualized}
    (hrun : c.devirtualize options resolver = .ok run) :
    ∃ origin, Erases c run.body origin := by
  obtain ⟨casts, ho⟩ := overlaid_of_devirtualize hc.grounded hrun
  exact ho.exists_erases hc.grounded

/-- A jump and a cast are added where a guarded block is cut. As the block goes on at its own
handler, the outcome does not pass the check, and still it can be erased. -/
theorem exists_erases_guardedCall_joined :
    ∃ made c run, Body.ofSteps (.plain "A" "f") (guardedCall ⟨1⟩) = .ok (made, c) ∧
      c.devirtualize {} (∅ : Resolver Devirtualizing.implementedOnce) = .ok run ∧
      run.result.isOk = false ∧ c.placed = .ok [⟨0⟩, ⟨1⟩, ⟨2⟩, ⟨3⟩] ∧
      run.body.placed = .ok [⟨0⟩, ⟨5⟩, ⟨4⟩, ⟨1⟩, ⟨2⟩, ⟨3⟩] ∧
      ∃ origin, Erases c run.body origin := by
  obtain ⟨made, c, hwritten, run, hrun, hresult, hplaced, hplaced'⟩ :
      ∃ made c, Body.ofSteps (.plain "A" "f") (guardedCall ⟨1⟩) = .ok (made, c) ∧
        ∃ run, c.devirtualize {} (∅ : Resolver Devirtualizing.implementedOnce) = .ok run ∧
          run.result.isOk = false ∧ c.placed = .ok [⟨0⟩, ⟨1⟩, ⟨2⟩, ⟨3⟩] ∧
          run.body.placed = .ok [⟨0⟩, ⟨5⟩, ⟨4⟩, ⟨1⟩, ⟨2⟩, ⟨3⟩] := by
    decide +kernel
  exact ⟨made, c, run, hwritten, hrun, hresult, hplaced, hplaced',
    exists_erases_of_devirtualize (.written hwritten) hrun⟩

end Body

end Devirt
