import Devirt.Body.Listing
import Devirt.Proofs.Devirtualization.Course

/-!
Devirtualizing a body again. A second pass finds something to do exactly where a call is open. No
call is open right after its visit, so the calls that are open at the end of a pass are those whose
receiver was replaced by a cast, or given a narrower type, after the visit. A call that its visit has
changed may be visited again at once, and nothing changes.
-/

namespace Devirt

theorem Value.SameKnown.symm {x y : Value} (hxy : x.SameKnown y) : y.SameKnown x :=
  ⟨hxy.1.symm, hxy.2.symm⟩

namespace Devirtualizing

open Body

variable {h : Hierarchy} {s s' : Devirtualization.State h} {i j : InstrId} {index : Nat}
  {call : Call} {target : MethodRef} {options : Options} {moved : Moved} {c₀ : Body}

/-! ### Visits that change nothing -/

theorem total_le_of_specialize {u : Unit} (hop : s.body.operation i = .ok (.call call))
    (hkind : call.kind = .virtual) (hrun : (specialize options i).run s = .ok (u, s')) :
    s.stats.total ≤ s'.stats.total := by
  rcases run_specialize hop hkind hrun with ⟨hidle, -⟩ | ⟨-, target, hturns⟩
  · rw [hidle.stats]
  · rw [hturns.total]
    omega

theorem Fits.total (hfits : Fits i index call target moved s s') :
    s'.stats.total = s.stats.total := by
  rcases hfits with ⟨-, -, hidle⟩ | ⟨receiver, s₁, -, hrun, hidle⟩
  · rw [hidle.stats]
  · rw [hidle.stats]
    rcases run_castReceiver hrun with ⟨rfl, -⟩ | ⟨cast, ⟨-, -, -, -, htotal⟩, -⟩
    · rfl
    · exact htotal

/-- A visit changes nothing if the call is not open, and otherwise it is counted. -/
theorem visit_idle_or_counted (hrun : (visit options i index).run s = .ok (moved, s')) :
    (¬ s.body.Open h options i ∧ Idle s s') ∨
      (s.body.Open h options i ∧ s.stats.total < s'.stats.total) := by
  cases run_visit hrun with
  | idle hidle hclosed => exact .inl ⟨hclosed, hidle⟩
  | special hop _ htreats hturns =>
    refine .inr ⟨⟨_, _, hop, htreats, hturns.retargets⟩, ?_⟩
    rw [hturns.total]
    omega
  | super hop _ htreats hturns hrun =>
    refine .inr ⟨⟨_, _, hop, htreats, hturns.retargets⟩, ?_⟩
    have := total_le_of_specialize (hturns.operation hop) rfl hrun
    rw [hturns.total] at this
    omega
  | interface hop _ htreats hturns hfits hrun =>
    refine .inr ⟨⟨_, _, hop, htreats, hturns.retargets⟩, ?_⟩
    obtain ⟨arguments, hop₁⟩ := hfits.exists_call (hturns.operation hop)
    have := total_le_of_specialize hop₁ rfl hrun
    rw [hfits.total, hturns.total] at this
    omega

/-- What is known of a receiver can be looked up. -/
theorem exists_receiver_value {r : ValueId} (hs : s.body.Grounded)
    (hop : s.body.operation i = .ok (.call call)) (hr : call.receiver? = some r) :
    ∃ y, s.body.value r = .ok y := by
  apply exists_value_iff.2
  apply hs.hasValue hop
  have hmem : r ∈ call.arguments := List.mem_of_mem_head? hr
  simp [Operation.mentions, Operation.operands, hmem]

theorem specialize_of_none {r : ValueId} {y : Value} (hop : s.body.operation i = .ok (.call call))
    (hr : call.receiver? = some r) (hy : s.body.value r = .ok y)
    (hnone : moreSpecific? h call.method y.type s.body.context = none) :
    (specialize options i).run s = .ok ((), s) := by
  unfold specialize
  split
  · simp only [run_bind_eq_ok, run_query_eq_ok]
    refine ⟨some call, s, ⟨call?_eq_ok_some.2 hop, rfl⟩, ?_⟩
    simp only [hr, run_bind_eq_ok, run_query_eq_ok, run_get_eq_ok]
    refine ⟨y, s, ⟨hy, rfl⟩, s, s, ⟨rfl, rfl⟩, ?_⟩
    simp only [hnone, run_pure_eq_ok, and_self]
  · exact run_pure_eq_ok.2 ⟨rfl, rfl⟩

theorem specialize_of_settled (hs : s.body.Grounded) (hop : s.body.operation i = .ok (.call call))
    (hkind : call.kind = .virtual)
    (hsettled : options.specializeVirtual = true → s.body.Settled h call) :
    (specialize options i).run s = .ok ((), s) := by
  by_cases hoption : options.specializeVirtual = true
  · cases hr : call.receiver? with
    | none =>
      simp only [specialize, if_pos hoption, run_bind_eq_ok, run_query_eq_ok]
      refine ⟨some call, s, ⟨call?_eq_ok_some.2 hop, rfl⟩, ?_⟩
      simp only [hr, run_pure_eq_ok, and_self]
    | some r =>
      obtain ⟨y, hy⟩ := exists_receiver_value hs hop hr
      apply specialize_of_none hop hr hy
      rw [Option.eq_none_iff_forall_ne_some]
      intro target htarget
      exact hsettled hoption target (.specialize hkind hr hy htarget)
  · simp only [specialize, if_neg hoption, run_pure_eq_ok, and_self]

private theorem exists_run_bind {α β : Type} {m : Devirtualizing h α} {g : α → Devirtualizing h β}
    {a : α} {b : β} {s₁ : Devirtualization.State h} (hm : m.run s = .ok (a, s₁))
    (hg : ∃ s', (g a).run s₁ = .ok (b, s')) : ∃ s', (m >>= g).run s = .ok (b, s') :=
  hg.imp fun _ hrun => run_bind_eq_ok.2 ⟨a, s₁, hm, hrun⟩

private theorem exists_run_pure {α : Type} (a : α) (s : Devirtualization.State h) :
    ∃ s', (pure a : Devirtualizing h α).run s = .ok (a, s') :=
  ⟨s, run_pure_eq_ok.2 ⟨rfl, rfl⟩⟩

theorem superToVirtual_of_settled (hs : s.body.Grounded)
    (hop : s.body.operation i = .ok (.call call)) (hkind : call.kind = .super)
    (hsettled : s.body.Settled h call) : ∃ s', (superToVirtual i).run s = .ok (false, s') := by
  refine exists_run_bind (run_query_eq_ok.2 ⟨call?_eq_ok_some.2 hop, rfl⟩) ?_
  dsimp only
  split
  · rename_i r hr
    obtain ⟨y, hy⟩ := exists_receiver_value hs hop hr
    refine exists_run_bind (run_query_eq_ok.2 ⟨hy, rfl⟩) ?_
    refine exists_run_bind (run_resolve_eq_ok.2 ⟨rfl, rfl⟩) ?_
    split
    · rename_i target hsuper
      refine exists_run_bind (run_resolve_eq_ok.2 ⟨rfl, rfl⟩) ?_
      rw [if_pos fun hvirtual => hsettled target (.super hkind hr hy hsuper hvirtual)]
      exact exists_run_pure false _
    · exact exists_run_pure false _
  · exact exists_run_pure false _

theorem soleClassTarget?_of_settled {r : ValueId} (hs : s.body.Grounded)
    (hop : s.body.operation i = .ok (.call call)) (hkind : call.kind = .interface)
    (hr : call.receiver? = some r) (hsettled : s.body.Settled h call) :
    ∃ s', (soleClassTarget? call r).run s = .ok (none, s') := by
  obtain ⟨y, hy⟩ := exists_receiver_value hs hop hr
  refine exists_run_bind (run_query_eq_ok.2 ⟨hy, rfl⟩) ?_
  refine exists_run_bind (run_resolve_eq_ok.2 ⟨rfl, rfl⟩) ?_
  split
  · rename_i target hsole
    refine exists_run_bind (run_get_eq_ok.2 ⟨rfl, rfl⟩) ?_
    have hclosed : ¬ (h.isClass target.holder && h.classAccessible target.holder s.body.context) =
        true := by
      rw [Bool.and_eq_true]
      rintro ⟨hclass, haccess⟩
      exact hsettled target (.interface hkind hr hy hsole hclass haccess)
    rw [if_neg hclosed]
    exact exists_run_pure none _
  · exact exists_run_pure none _

theorem interfaceToVirtual_of_settled (hs : s.body.Grounded)
    (hop : s.body.operation i = .ok (.call call)) (hkind : call.kind = .interface)
    (hsettled : s.body.Settled h call) (index : Nat) :
    ∃ s', (interfaceToVirtual i index).run s = .ok (.stayed, s') ∧ s'.body = s.body := by
  obtain ⟨s', hrun⟩ : ∃ s', (interfaceToVirtual i index).run s = .ok (.stayed, s') := by
    refine exists_run_bind (run_query_eq_ok.2 ⟨call?_eq_ok_some.2 hop, rfl⟩) ?_
    dsimp only
    split
    · rename_i r hr
      obtain ⟨s', hsole⟩ := soleClassTarget?_of_settled hs hop hkind hr hsettled
      exact exists_run_bind hsole (exists_run_pure _ _)
    · exact exists_run_pure _ _
  refine ⟨s', hrun, ?_⟩
  rcases run_interfaceToVirtual hop hkind hrun with ⟨hidle, -⟩ | ⟨target, s₁, hturns, -⟩
  · exact hidle.body
  · exact absurd hturns.retargets (hsettled target)

/-- The visit of an instruction that is not an open call succeeds on any body. -/
theorem exists_visit_of_not_open (hs : s.body.Grounded) (hi : s.body.HasInstruction i)
    (hclosed : ¬ s.body.Open h options i) (index : Nat) :
    ∃ s', (visit options i index).run s = .ok (.stayed, s') := by
  obtain ⟨op, hop⟩ := hi.exists_operation
  refine exists_run_bind (run_query_eq_ok.2 ⟨call?_eq_ok hop, rfl⟩) ?_
  split
  · rename_i call hcall
    obtain rfl := Operation.call?_eq_some.1 hcall
    have hsettled : options.treats call.kind = true → s.body.Settled h call :=
      fun htreats target ht => hclosed ⟨call, target, hop, htreats, ht⟩
    split
    · rename_i hkind
      rw [hkind] at hsettled
      split
      · rename_i hoption
        obtain ⟨s', hrun⟩ := superToVirtual_of_settled hs hop hkind (hsettled hoption)
        exact exists_run_bind hrun (exists_run_pure _ _)
      · exact exists_run_pure _ _
    · rename_i hkind
      rw [hkind] at hsettled
      exact exists_run_bind (specialize_of_settled hs hop hkind hsettled) (exists_run_pure _ _)
    · rename_i hkind
      rw [hkind] at hsettled
      split
      · rename_i hoption
        obtain ⟨s', hrun, hbody⟩ := interfaceToVirtual_of_settled hs hop hkind (hsettled hoption) index
        refine exists_run_bind hrun ?_
        refine exists_run_bind (run_query_eq_ok.2 ⟨hbody ▸ call?_eq_ok_some.2 hop, rfl⟩) ?_
        rw [if_neg (by simp [hkind])]
        exact exists_run_pure _ _
      · exact exists_run_pure _ _
  · exact exists_run_pure _ _

/-! ### A visit closes its call -/

/-- A call that has been given the nearest declaration keeps it. -/
theorem Turns.settled (ht : Turns i call target s s') (hkind : call.kind = .virtual) :
    s'.body.Settled h { call with kind := .virtual, method := target } := by
  intro target' ht'
  cases ht.retargets with
  | super hkind' => simp [hkind] at hkind'
  | interface hkind' => simp [hkind] at hkind'
  | specialize _ hr hy htarget =>
    rw [ht.body] at ht'
    have hagain := ht'.of_virtual rfl hr (value_replaced.2 ⟨_, hy, rfl⟩)
    exact Option.some_ne_none _ (hagain.symm.trans (moreSpecific?_moreSpecific? htarget))

/-- Once a virtual call has been treated, it is not open. -/
theorem not_open_of_specialize {u : Unit} (hop : s.body.operation i = .ok (.call call))
    (hkind : call.kind = .virtual) (hrun : (specialize options i).run s = .ok (u, s')) :
    ¬ s'.body.Open h options i := by
  have htreats : options.treats call.kind = options.specializeVirtual :=
    congrArg options.treats hkind
  rcases run_specialize hop hkind hrun with ⟨hidle, hsettled⟩ | ⟨-, target, hturns⟩
  · rw [hidle.body]
    exact not_open_of_settled hop fun ht => hsettled (htreats ▸ ht)
  · exact not_open_of_settled (hturns.operation hop) fun _ => hturns.settled hkind

/-! ### Calls on receivers that are left alone -/

/-- What was known of the old values is still known of them, and the casts that are kept are new. -/
structure Kept (c₀ : Body) (s : Devirtualization.State h) : Prop where
  method : s.body.method = c₀.method
  value : ∀ v x, c₀.value v = .ok x → ∃ y, s.body.value v = .ok y ∧ y.SameKnown x
  casts : ∀ e ∈ s.casts, ¬ c₀.HasValue e.2

/-- If the instruction is a call on an old value, it is not open. -/
def ClosedOnOld (h : Hierarchy) (options : Options) (c₀ c : Body) (i : InstrId) : Prop :=
  ∀ call v, c.operation i = .ok (.call call) → call.receiver? = some v → c₀.HasValue v →
    ¬ c.Open h options i

/-- Calls on old values come from calls of the same method on the same values. -/
def Inherits (c₀ c d : Body) (i : InstrId) : Prop :=
  ∀ call' v, d.operation i = .ok (.call call') → call'.receiver? = some v → c₀.HasValue v →
    ∃ call, c.operation i = .ok (.call call) ∧ call.kind = call'.kind ∧
      call.method = call'.method ∧ call.receiver? = some v

theorem ClosedOnOld.inherits {c d : Body} (hc : ClosedOnOld h options c₀ c i)
    (hcall : Inherits c₀ c d i) (hmethod : d.method = c.method)
    (hvalue : ∀ v, c₀.HasValue v → ∃ x y, c.value v = .ok x ∧ d.value v = .ok y ∧ x.SameKnown y) :
    ClosedOnOld h options c₀ d i := by
  rintro call' v hop' hr' hold ⟨_, target, hop, htreats, ht⟩
  obtain rfl := Operation.call.inj (Except.ok.inj (hop'.symm.trans hop))
  obtain ⟨call, hop, hkind, hname, hr⟩ := hcall call' v hop' hr' hold
  refine hc call v hop hr hold ⟨call, target, hop, hkind ▸ htreats, ?_⟩
  refine ht.congr (congrArg MethodRef.holder hmethod.symm) hkind hname (hr.trans hr'.symm) ?_
  intro u y hu hy
  obtain rfl := Option.some.inj (hr'.symm.trans hu)
  obtain ⟨x, y', hx, hy', hknown⟩ := hvalue v hold
  obtain rfl := Except.ok.inj (hy.symm.trans hy')
  exact ⟨x, hx, hknown⟩

/-- The step keeps the old values and leaves all calls but one alone. -/
structure Spares (options : Options) (c₀ : Body) (i : InstrId) (s s' : Devirtualization.State h) :
    Prop where
  kept : Kept c₀ s → Kept c₀ s'
  closed : Kept c₀ s → ∀ j, j ≠ i → ClosedOnOld h options c₀ s.body j →
    ClosedOnOld h options c₀ s'.body j

theorem Spares.trans {s₁ : Devirtualization.State h} (hs : Spares options c₀ i s s₁)
    (hs' : Spares options c₀ i s₁ s') : Spares options c₀ i s s' where
  kept hk := hs'.kept (hs.kept hk)
  closed hk j hj hc := hs'.closed (hs.kept hk) j hj (hs.closed hk j hj hc)

theorem spares_of_inherits (hmethod : s'.body.method = s.body.method)
    (hvalue : ∀ v x, s.body.value v = .ok x → ∃ y, s'.body.value v = .ok y ∧ y.SameKnown x)
    (hcasts : Kept c₀ s → ∀ e ∈ s'.casts, ¬ c₀.HasValue e.2)
    (hcall : Kept c₀ s → ∀ j, j ≠ i → Inherits c₀ s.body s'.body j) :
    Spares options c₀ i s s' where
  kept hk := ⟨hmethod.trans hk.method, fun v x₀ hx₀ => by
    obtain ⟨x, hx, hknown⟩ := hk.value v x₀ hx₀
    obtain ⟨y, hy, hknown'⟩ := hvalue v x hx
    exact ⟨y, hy, hknown'.trans hknown⟩, hcasts hk⟩
  closed hk j hj hc := by
    refine hc.inherits (hcall hk j hj) hmethod fun v hv => ?_
    obtain ⟨x₀, hx₀⟩ := exists_value_iff.2 hv
    obtain ⟨x, hx, -⟩ := hk.value v x₀ hx₀
    obtain ⟨y, hy, hknown⟩ := hvalue v x hx
    exact ⟨x, y, hx, hy, hknown.symm⟩

theorem Idle.spares (hidle : Idle s s') : Spares options c₀ i s s' := by
  refine spares_of_inherits (congrArg Body.method hidle.body) ?_ ?_ ?_
  · rw [hidle.body]
    exact fun v x hx => ⟨x, hx, .refl x⟩
  · rw [hidle.casts]
    exact Kept.casts
  · rw [hidle.body]
    exact fun _ j _ call v hop hr _ => ⟨call, hop, rfl, rfl, hr⟩

theorem Turns.spares (ht : Turns i call target s s') : Spares options c₀ i s s' := by
  refine spares_of_inherits (by rw [ht.body]; rfl) ?_ ?_ ?_
  · rw [ht.body]
    exact fun v x hx => ⟨_, value_replaced.2 ⟨x, hx, rfl⟩, .refl _⟩
  · rw [ht.casts]
    exact Kept.casts
  · rw [ht.body]
    intro _ j hj call' v hop hr _
    obtain ⟨op, hop, heq⟩ := operation_replaced.1 hop
    rw [if_neg hj] at heq
    exact ⟨call', heq ▸ hop, rfl, rfl, hr⟩

/-- Other calls are let read a cast, which is new. -/
theorem ReadsCast.spares {receiver cast : ValueId} (hr : ReadsCast i receiver cast s s')
    (hnew : Kept c₀ s → ¬ c₀.HasValue cast)
    (hcasts : Kept c₀ s → ∀ e ∈ s'.casts, ¬ c₀.HasValue e.2) : Spares options c₀ i s s' := by
  refine spares_of_inherits hr.method (fun _ _ => hr.value) hcasts ?_
  intro hk j _ call' v hop hv hold
  obtain ⟨call, f, hop₀, rfl, hread⟩ := hr.exists_call hop
  simp only [Call.receiver?, List.head?_map, Option.map_eq_some_iff] at hv
  obtain ⟨u, hu, rfl⟩ := hv
  rcases hread u with hu' | ⟨-, hcast⟩
  · exact ⟨call, hop₀, rfl, rfl, by rw [hu']; exact hu⟩
  · exact absurd (hcast ▸ hold) (hnew hk)

theorem Fits.spares (hfits : Fits i index call target moved s s') :
    Spares options c₀ i s s' := by
  rcases hfits with ⟨-, -, hidle⟩ | ⟨receiver, s₁, -, hrun, hidle⟩
  · exact hidle.spares
  · refine Spares.trans ?_ hidle.spares
    rcases run_castReceiver hrun with ⟨rfl, -⟩ | ⟨cast, hreads, hcast⟩
    · exact (Idle.refl _).spares
    · have hnew : Kept c₀ s → ¬ c₀.HasValue cast := by
        intro hk
        rcases hcast with ⟨hmem, -⟩ | ⟨-, hfresh, -⟩
        · exact hk.casts _ hmem
        · intro hold
          obtain ⟨x₀, hx₀⟩ := exists_value_iff.2 hold
          obtain ⟨x, hx, -⟩ := hk.value cast x₀ hx₀
          exact hfresh (hasValue_of_value hx)
      refine hreads.spares hnew fun hk e he => ?_
      rcases hcast with ⟨-, hcasts⟩ | ⟨hcasts, -⟩
      · exact hk.casts e (hcasts ▸ he)
      · rw [hcasts, List.mem_cons] at he
        rcases he with rfl | he
        · exact hnew hk
        · exact hk.casts e he

theorem spares_specialize {u : Unit} (hop : s.body.operation i = .ok (.call call))
    (hkind : call.kind = .virtual) (hrun : (specialize options i).run s = .ok (u, s')) :
    Spares options c₀ i s s' := by
  rcases run_specialize hop hkind hrun with ⟨hidle, -⟩ | ⟨-, target, hturns⟩
  · exact hidle.spares
  · exact hturns.spares

/-- A visit closes the call it is for. Another call on an old value is as it was. -/
theorem closes_visit (hrun : (visit options i index).run s = .ok (moved, s')) :
    Spares options c₀ i s s' ∧ ¬ s'.body.Open h options i := by
  cases run_visit hrun with
  | idle hidle hclosed => exact ⟨hidle.spares, by rwa [hidle.body]⟩
  | special hop hkind _ hturns =>
    exact ⟨hturns.spares,
      not_open_of_settled (hturns.operation hop) fun _ => hturns.settled hkind⟩
  | super hop _ _ hturns hrun =>
    have hop₁ := hturns.operation hop
    exact ⟨hturns.spares.trans (spares_specialize hop₁ rfl hrun),
      not_open_of_specialize hop₁ rfl hrun⟩
  | interface hop _ _ hturns hfits hrun =>
    obtain ⟨arguments, hop₁⟩ := hfits.exists_call (hturns.operation hop)
    exact ⟨(hturns.spares.trans hfits.spares).trans (spares_specialize hop₁ rfl hrun),
      not_open_of_specialize hop₁ rfl hrun⟩

/-! ### Visiting a call again -/

/-- All that is done to a virtual call is to look for the nearest declaration. -/
theorem visit_virtual_eq_ok (hop : s.body.operation i = .ok (.call call))
    (hkind : call.kind = .virtual) :
    (visit options i index).run s = .ok (moved, s') ↔
      moved = .stayed ∧ (specialize options i).run s = .ok ((), s') := by
  have hcall := call?_eq_ok_some.2 hop
  simp only [visit, run_bind_eq_ok, run_query_eq_ok]
  constructor
  · rintro ⟨_, _, ⟨hcall', rfl⟩, hrun⟩
    obtain rfl := Except.ok.inj (hcall.symm.trans hcall')
    simp only [hkind, run_bind_eq_ok, run_pure_eq_ok] at hrun
    obtain ⟨_, _, hrun, rfl, rfl⟩ := hrun
    exact ⟨rfl, hrun⟩
  · rintro ⟨rfl, hrun⟩
    refine ⟨some call, s, ⟨hcall, rfl⟩, ?_⟩
    simp only [hkind, run_bind_eq_ok]
    exact ⟨(), s', hrun, run_pure_eq_ok.2 ⟨rfl, rfl⟩⟩

/-- What has been found as the nearest declaration is found to be so again. -/
theorem specialize_specialize (hop : s.body.operation i = .ok (.call call))
    (hrun : (specialize options i).run s = .ok ((), s')) :
    (specialize options i).run s' = .ok ((), s') := by
  rcases specialize_cases hop hrun with ⟨rfl, -⟩ | ⟨-, r, y, target, hr, hy, htarget, rfl⟩
  · exact hrun
  · -- the receiver has kept its type
    exact specialize_of_none (operation_retargeted hop) hr (value_replaced.2 ⟨y, hy, rfl⟩)
      (moreSpecific?_moreSpecific? htarget)

/-- Looking for the nearest declaration leaves a virtual call virtual. -/
theorem exists_virtual_of_specialize (hop : s.body.operation i = .ok (.call call))
    (hkind : call.kind = .virtual) (hrun : (specialize options i).run s = .ok ((), s')) :
    ∃ call', s'.body.operation i = .ok (.call call') ∧ call'.kind = .virtual := by
  rcases run_specialize hop hkind hrun with ⟨hidle, -⟩ | ⟨-, target, hturns⟩
  · exact ⟨call, by rw [hidle.body, hop], hkind⟩
  · exact ⟨_, hturns.operation hop, rfl⟩

/-- A visit ends with the search for the nearest declaration wherever it has changed a call, so that
visiting the call again, at whatever index it stands now, changes nothing. -/
theorem visit_of_rewritten {call' : Call}
    (hrun : (visit options i index).run s = .ok (moved, s'))
    (hcall : s.body.call? i = .ok (some call)) (hcall' : s'.body.call? i = .ok (some call'))
    (hne : call'.kind ≠ call.kind ∨ call'.method ≠ call.method) (index' : Nat) :
    (visit options i index').run s' = .ok (.stayed, s') := by
  have hagain : ∀ {t : Devirtualization.State h} {virtualCall : Call},
      t.body.operation i = .ok (.call virtualCall) → virtualCall.kind = .virtual →
      (specialize options i).run t = .ok ((), s') →
      (visit options i index').run s' = .ok (.stayed, s') := by
    intro t virtualCall hop hkind hlast
    obtain ⟨call₁, hop₁, hkind₁⟩ := exists_virtual_of_specialize hop hkind hlast
    exact (visit_virtual_eq_ok hop₁ hkind₁).2 ⟨rfl, specialize_specialize hop hlast⟩
  cases run_visit hrun with
  | idle hidle =>
    rw [hidle.body, hcall] at hcall'
    obtain rfl := Option.some.inj (Except.ok.inj hcall')
    simp at hne
  | special hop hkind => exact hagain hop hkind ((visit_virtual_eq_ok hop hkind).1 hrun).2
  | super hop _ _ hturns hlast => exact hagain (hturns.operation hop) rfl hlast
  | interface hop _ _ hturns hfits hlast =>
    obtain ⟨arguments, hop₁⟩ := hfits.exists_call (hturns.operation hop)
    exact hagain hop₁ rfl hlast

/-- A call through the interface in a guarded block is made virtual and moves with its cast between
blocks. At the beginning of its new block it is left alone. -/
theorem visit_guardedCall_again :
    ∃ made c tree s', ofSteps (.plain "A" "f")
        (.newBlock :: (guardedCall ⟨2⟩ ++ [.ret ⟨2⟩ none])) = .ok (made, c) ∧
      c.dominators = .ok tree ∧
      (visit {} ⟨1⟩ 1).run { body := c, resolver := (∅ : Resolver implementedOnce), tree } =
        .ok (.split ⟨3⟩, s') ∧
      s'.body.call? ⟨1⟩ = .ok (some
        { kind := .virtual, method := .plain "A" "f", arguments := [⟨1⟩] }) ∧
      (visit {} ⟨1⟩ 0).run s' = .ok (.stayed, s') := by
  obtain ⟨made, c, hwritten, hcall, tree, htree, s', hrun, hcall'⟩ :
      ∃ made c, ofSteps (.plain "A" "f")
          (.newBlock :: (guardedCall ⟨2⟩ ++ [.ret ⟨2⟩ none])) = .ok (made, c) ∧
        c.call? ⟨1⟩ = .ok (some
          { kind := .interface, method := .plain "I" "f", arguments := [⟨0⟩] }) ∧
        ∃ tree, c.dominators = .ok tree ∧
          ∃ s', (visit {} ⟨1⟩ 1).run
              { body := c, resolver := (∅ : Resolver implementedOnce), tree } =
                .ok (.split ⟨3⟩, s') ∧
            s'.body.call? ⟨1⟩ = .ok (some
              { kind := .virtual, method := .plain "A" "f", arguments := [⟨1⟩] }) := by
    decide +kernel
  exact ⟨made, c, tree, s', hwritten, htree, hrun, hcall',
    visit_of_rewritten hrun hcall hcall' (.inl (by decide)) 0⟩

end Devirtualizing

namespace Body

open Devirtualizing Devirtualization.State

variable {h : Hierarchy} {c : Body} {options : Options} {resolver : Resolver h}

theorem Open.hasInstruction {i : InstrId} (ho : c.Open h options i) : c.HasInstruction i := by
  obtain ⟨call, target, hop, -⟩ := ho
  exact hasInstruction_of_operation hop

/-- A walk that comes to its end either leaves everything as it is or counts a change. -/
theorem walkCalls_idle_or_counted {s : Devirtualization.State h} (hc : c.Grounded)
    (hwalk : c.walkCalls options resolver = .ok s) :
    (s.body = c ∧ s.affected = ∅ ∧ s.stats.total = 0 ∧ ∀ i, ¬ c.Open h options i) ∨
      (0 < s.stats.total ∧ ∃ i, c.Open h options i) := by
  have hend := hc.walkCalls_induction (motive := fun l s =>
      (s.body = c ∧ s.affected = ∅ ∧ s.stats.total = 0 ∧ ∀ i, i ∉ l → ¬ c.Open h options i) ∨
        (0 < s.stats.total ∧ ∃ i, c.Open h options i)) ?_ ?_ hwalk
  · simpa using hend
  · intro i rest s s' moved index hs hvisit
    rcases visit_idle_or_counted hvisit with ⟨hclosed, hidle⟩ | ⟨hopen, htotal⟩
    · rcases hs with ⟨hbody, haffected, hnone, hvisited⟩ | ⟨hcounted, hopen⟩
      · refine .inl ⟨hidle.body.trans hbody, hidle.affected.trans haffected, ?_, fun j hj => ?_⟩
        · rw [hidle.stats, hnone]
        · by_cases hji : j = i
          · rw [hji, ← hbody]
            exact hclosed
          · exact hvisited j (by simp [hji, hj])
      · exact .inr ⟨by rwa [hidle.stats], hopen⟩
    · rcases hs with ⟨hbody, -⟩ | ⟨-, hopen⟩
      · exact .inr ⟨by omega, i, hbody ▸ hopen⟩
      · exact .inr ⟨by omega, hopen⟩
  · intro placed tree hmem
    exact .inl ⟨rfl, rfl, rfl, fun i hi ho => hi ((hmem i).2 ho.hasInstruction)⟩

/-- What the walk comes to in a block is an instruction of the body. -/
theorem hasInstruction_of_instruction? {w : Walk h} {b : BlockId} {i : InstrId}
    (hw : w.state.body.Grounded) (hnext : w.instruction? b = .ok (some i)) :
    w.state.body.HasInstruction i := by
  obtain ⟨x, hx, hget⟩ := bind_eq_ok.1 hnext
  have hplaced := hw.placed hx i (List.mem_of_getElem? (Except.ok.inj hget))
  obtain ⟨y, hy, -⟩ := blockOf_eq_ok.1 hplaced
  exact exists_instruction_iff.1 ⟨y, hy⟩

/-- Where no call is open, the walk comes to its end. -/
theorem exists_walkCalls_of_not_open (hc : c.Grounded) (resolver : Resolver h)
    (hclosed : ∀ i, ¬ c.Open h options i) : ∃ s, c.walkCalls options resolver = .ok s := by
  obtain ⟨tree, placed, visited, -, -, hcourse, -⟩ := hc.exists_course options resolver
  generalize c.walkCalls options resolver = outcome at hcourse ⊢
  have hstart : (Walk.state { state := { body := c, resolver, tree } } :
      Devirtualization.State h).body = c := rfl
  generalize ({ state := { body := c, resolver, tree } } : Walk h) = w at hcourse hstart
  induction hcourse with
  | finish => exact ⟨_, rfl⟩
  | @lost w b e hblock hnext =>
    have hb := (hc.mem_order b).1 (hstart ▸ List.mem_of_getElem? hblock)
    obtain ⟨x, hx⟩ := exists_block_iff.2 hb
    simp [Walk.instruction?, hstart, hx] at hnext
  | turn _ _ _ ih => exact ih hstart
  | @fail w b i e hblock hnext hvisit =>
    have hw : w.state.body.Grounded := hstart.symm ▸ hc
    obtain ⟨s', hrun⟩ := exists_visit_of_not_open hw (hasInstruction_of_instruction? hw hnext)
      (hstart.symm ▸ hclosed i) w.index
    rw [hvisit] at hrun
    cases hrun
  | @visit w b i moved s visited outcome hblock hnext hvisit _ ih =>
    apply ih
    rw [Walk.state_resume]
    rcases visit_idle_or_counted hvisit with ⟨-, hidle⟩ | ⟨hopen, -⟩
    · exact hidle.body.trans hstart
    · exact absurd (hstart ▸ hopen) (hclosed i)

/-- At the end of a walk no call on an old value is open. -/
theorem closedOnOld_of_walkCalls {s : Devirtualization.State h} (hc : c.Grounded)
    (hwalk : c.walkCalls options resolver = .ok s) :
    Kept c s ∧ ∀ i, ClosedOnOld h options c s.body i := by
  have hend := hc.walkCalls_induction (motive := fun l s => Kept c s ∧ ∀ i, i ∉ l →
      ClosedOnOld h options c s.body i) ?_ ?_ hwalk
  · exact ⟨hend.1, fun i => hend.2 i List.not_mem_nil⟩
  · rintro i rest s s' moved index ⟨hkept, hvisited⟩ hvisit
    obtain ⟨hspares, hclosed⟩ : Spares options c i s s' ∧ ¬ s'.body.Open h options i :=
      closes_visit hvisit
    refine ⟨hspares.kept hkept, fun j hj => ?_⟩
    by_cases hji : j = i
    · exact fun _ _ _ _ _ => hji ▸ hclosed
    · exact hspares.closed hkept j hji (hvisited j (by simp [hji, hj]))
  · intro placed tree hmem
    refine ⟨⟨rfl, fun v x hx => ⟨x, hx, .refl x⟩, by simp⟩, fun i hi call v hop => ?_⟩
    exact absurd ((hmem i).2 (hasInstruction_of_operation hop)) hi

/-- A pass over a valid body changes nothing exactly if no call is open. -/
theorem unchanged_iff (options : Options) (resolver : Resolver h) (hc : c.Grounded)
    (hvalid : c.violations = .ok []) :
    (∃ run out, c.devirtualize options resolver = .ok run ∧ run.result = .ok out ∧
        out.changed = false ∧ run.body.listing = c.listing) ↔ ∀ i, ¬ c.Open h options i := by
  constructor
  · rintro ⟨run, out, hrun, hresult, hsame, -⟩
    obtain ⟨s, affected, d, l, hwalk, -, -, rfl⟩ := devirtualize_eq_ok.1 hrun
    rcases walkCalls_idle_or_counted hc hwalk with ⟨-, -, -, hclosed⟩ | ⟨hcounted, -⟩
    · exact hclosed
    · cases l with
      | nil =>
        obtain rfl := Except.ok.inj hresult
        simp [hcounted.ne'] at hsame
      | cons => cases hresult
  · intro hclosed
    obtain ⟨s, hwalk⟩ := exists_walkCalls_of_not_open hc resolver hclosed
    obtain ⟨rfl, haffected, hnone, -⟩ := (walkCalls_idle_or_counted hc hwalk).resolve_right
      fun ⟨_, i, hopen⟩ => hclosed i hopen
    have hempty : s.affected.isEmpty = true := by
      rw [haffected]
      rfl
    have hsettle : settleTypes options s = .ok (s.affected, s.body) := by
      simp [settleTypes, hempty]
    exact ⟨_, _, devirtualize_eq_ok.2 ⟨s, _, _, [], hwalk, hsettle, hvalid, rfl⟩, rfl,
      by simp [hnone], rfl⟩

/-- A second pass over the outcome of a pass, on any body that can be made. -/
theorem devirtualize_devirtualize {run : PassRun h Devirtualized} {out : Devirtualized}
    (hc : c.Made) (hrun : c.devirtualize options resolver = .ok run) (hout : run.result = .ok out)
    (resolver' : Resolver h) :
    ((∃ again out', run.body.devirtualize options resolver' = .ok again ∧
          again.result = .ok out' ∧ out'.changed = false ∧
          again.body.listing = run.body.listing) ↔
        ∀ i, ¬ run.body.Open h options i) ∧
      ∀ i, run.body.Open h options i →
        ∃ call v, run.body.operation i = .ok (.call call) ∧ call.receiver? = some v ∧
          (¬ c.HasValue v ∨
            ∃ x y, c.value v = .ok x ∧ run.body.value v = .ok y ∧ y.type ≠ x.type) := by
  obtain ⟨casts, hover⟩ := overlaid_of_devirtualize hc.grounded hrun
  obtain ⟨s, affected, d, l, hwalk, hsettle, hl, rfl⟩ := devirtualize_eq_ok.1 hrun
  obtain ⟨hkept, hclosed⟩ := closedOnOld_of_walkCalls hc.grounded hwalk
  have hretyped := retyped_of_settleTypes hsettle
  constructor
  · refine unchanged_iff options resolver' hover.grounded ?_
    cases l with
    | nil => exact hl
    | cons => cases hout
  · intro i hopen
    obtain ⟨call, target, hop, htreats, htarget⟩ := hopen
    obtain ⟨v, hv⟩ := htarget.exists_receiver
    refine ⟨call, v, hop, hv, or_iff_not_imp_left.2 fun hold => ?_⟩
    rw [not_not] at hold
    obtain ⟨x, hx⟩ := exists_value_iff.2 hold
    obtain ⟨y, hy, hknown⟩ := hkept.value v x hx
    obtain ⟨z, hz, hdynamic⟩ := hretyped.value hy
    refine ⟨x, z, hx, hz, fun htype => ?_⟩
    -- What is known of the receiver is as it was after the visit, when the call was not open.
    have hop' : s.body.operation i = .ok (.call call) := hretyped.operation ▸ hop
    refine hclosed i call v hop' hv hold ⟨call, target, hop', htreats, ?_⟩
    refine htarget.congr hretyped.context.symm rfl rfl rfl fun u z' hu hz' => ?_
    obtain rfl := Option.some.inj (hv.symm.trans hu)
    obtain rfl := Except.ok.inj (hz.symm.trans hz')
    exact ⟨y, hy, hknown.1.trans htype.symm, hdynamic.symm⟩

/-- Two calls through the interface, the first one on a receiver known to be of the class and the
second one on the given value, where the second value is the first one after a check for null. -/
def callTwice (receiver : ValueId) : List DraftStep :=
  [.argument (.ofClass "I" .maybe), .dynamic ⟨0⟩ { name := "A", exact := true },
    .call ⟨0⟩ .interface (.plain "I" "f") [⟨0⟩], .assumeNonNull ⟨0⟩ ⟨0⟩ none,
    .call ⟨0⟩ .interface (.plain "I" "f") [receiver], .ret ⟨0⟩ none]

set_option synthInstance.maxSize 256 in
/-- If both calls are on the value that the class is known of, no call stays open. -/
theorem devirtualize_callTwice_known :
    ∃ made c run out, Body.ofSteps (.plain "A" "f") (callTwice ⟨0⟩) = .ok (made, c) ∧
      c.violations = .ok [] ∧
      c.devirtualize {} (∅ : Resolver implementedOnce) = .ok run ∧ run.result = .ok out ∧
      out.changed = true ∧ ∀ i, ¬ run.body.Open implementedOnce {} i := by
  obtain ⟨made, c, hwritten, hvalid, run, hrun, out, hout, hchanged, again, hagain, out',
      hagain'⟩ :
      ∃ made c, Body.ofSteps (.plain "A" "f") (callTwice ⟨0⟩) = .ok (made, c) ∧
        c.violations = .ok [] ∧
        ∃ run, c.devirtualize {} (∅ : Resolver implementedOnce) = .ok run ∧
        ∃ out, run.result = .ok out ∧ out.changed = true ∧
        ∃ again, run.body.devirtualize {} (∅ : Resolver implementedOnce) = .ok again ∧
        ∃ out', again.result = .ok out' ∧ out'.changed = false ∧
          again.body.listing = run.body.listing := by
    decide +kernel
  have hresult := devirtualize_devirtualize (.written hwritten) hrun hout
    (∅ : Resolver implementedOnce)
  exact ⟨made, c, run, out, hwritten, hvalid, hrun, hout, hchanged,
    hresult.1.1 ⟨again, out', hagain, hagain'⟩⟩

set_option synthInstance.maxSize 256 in
/-- A call on the checked value is visited before that value is known to be of the class, and only a
second pass gives it another target. -/
theorem devirtualize_callTwice_checked :
    ∃ made c run out again out',
      Body.ofSteps (.plain "A" "f") (callTwice ⟨1⟩) = .ok (made, c) ∧ c.violations = .ok [] ∧
      c.devirtualize {} (∅ : Resolver implementedOnce) = .ok run ∧ run.result = .ok out ∧
      run.body.devirtualize {} (∅ : Resolver implementedOnce) = .ok again ∧
      again.result = .ok out' ∧ out'.changed = true ∧ again.body.listing ≠ run.body.listing := by
  obtain ⟨made, c, hwritten, hvalid, run, hrun, out, hout, again, hagain, out', hout'⟩ :
      ∃ made c, Body.ofSteps (.plain "A" "f") (callTwice ⟨1⟩) = .ok (made, c) ∧
        c.violations = .ok [] ∧
        ∃ run, c.devirtualize {} (∅ : Resolver implementedOnce) = .ok run ∧
        ∃ out, run.result = .ok out ∧
        ∃ again, run.body.devirtualize {} (∅ : Resolver implementedOnce) = .ok again ∧
        ∃ out', again.result = .ok out' ∧ out'.changed = true ∧
          again.body.listing ≠ run.body.listing := by
    decide +kernel
  exact ⟨made, c, run, out, again, out', hwritten, hvalid, hrun, hout, hagain, hout'⟩

end Body

end Devirt
