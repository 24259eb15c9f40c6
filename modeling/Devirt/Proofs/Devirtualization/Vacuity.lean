import Devirt.Proofs.Devirtualization.Retargeting
import Devirt.Proofs.Devirtualization.Validity

/-!
Casts that say nothing new. A cast is placed only for a receiver whose type does not fit the class,
and every cast that has been placed is kept, the latest first. So an object that fits after all has
come to the cast later: by a cast placed after it, or by narrowing at the end.
-/

namespace Devirt

namespace Body

variable {c d e : Body} {b : BlockId} {i k : InstrId} {u v r old new : ValueId} {op : Operation}
  {name : TypeName} {index : Nat}

/-- The value is the output of a cast that has been added after the instruction. -/
def CastAfter (c : Body) (k : InstrId) (v : ValueId) : Prop :=
  ∃ k' r name, k.index < k'.index ∧ c.operation k' = .ok (.cast v r name)

theorem Retyped.castAfter (h : Retyped c d) (hv : c.CastAfter k v) : d.CastAfter k v := by
  obtain ⟨k', r, name, hlt, hop⟩ := hv
  exact ⟨k', r, name, hlt, h.operation.trans hop⟩

/-! ### What becomes of casts -/

/-- Every cast of the body `c` is a cast to the same class in `d`, of the same value or of the
output of a cast added later. -/
structure Recasts (c d : Body) : Prop where
  value : ∀ v x, c.value v = .ok x → ∃ y, d.value v = .ok y ∧ y.SameKnown x
  operation : ∀ i op, c.operation i = .ok op → ∃ op', d.operation i = .ok op'
  cast : ∀ k u r name, c.operation k = .ok (.cast u r name) →
    ∃ r', d.operation k = .ok (.cast u r' name) ∧ (r' = r ∨ d.CastAfter k r')

namespace Recasts

theorem hasInstruction (h : Recasts c d) (hi : c.HasInstruction i) : d.HasInstruction i := by
  obtain ⟨op, hop⟩ := hi.exists_operation
  obtain ⟨op', hop'⟩ := h.operation i op hop
  exact hasInstruction_of_operation hop'

theorem castAfter (h : Recasts c d) (hv : c.CastAfter k v) : d.CastAfter k v := by
  obtain ⟨k', r, name, hlt, hop⟩ := hv
  obtain ⟨r', hop', -⟩ := h.cast k' v r name hop
  exact ⟨k', r', name, hlt, hop'⟩

theorem trans (hcd : Recasts c d) (hde : Recasts d e) : Recasts c e where
  value v x hx := by
    obtain ⟨y, hy, hxy⟩ := hcd.value v x hx
    obtain ⟨z, hz, hyz⟩ := hde.value v y hy
    exact ⟨z, hz, hyz.trans hxy⟩
  operation i op hop := by
    obtain ⟨op', hop'⟩ := hcd.operation i op hop
    exact hde.operation i op' hop'
  cast k u r name hop := by
    obtain ⟨r', hop', hr'⟩ := hcd.cast k u r name hop
    obtain ⟨r'', hop'', hr''⟩ := hde.cast k u r' name hop'
    refine ⟨r'', hop'', ?_⟩
    rcases hr'' with rfl | hafter
    · exact hr'.imp_right hde.castAfter
    · exact .inr hafter

theorem of_grows {P : Operation → Prop} (h : GrowsBy P c d) : Recasts c d where
  value := h.value
  operation i op hop := ⟨op, h.operation i op hop⟩
  cast k _ r _ hop := ⟨r, h.operation k _ hop, .inl rfl⟩

theorem refl (c : Body) : Recasts c c := of_grows (P := fun _ => False) (.refl c)

end Recasts

theorem recasts_redirected
    (hread : ∀ u name, c.operation i = .ok (.cast u old name) →
      (c.redirected i old new).CastAfter i new) : Recasts c (c.redirected i old new) where
  value v x hx := ⟨_, value_redirected.2 ⟨x, hx, rfl⟩, .refl _⟩
  operation j op hop := ⟨_, operation_redirected.2 ⟨op, hop, rfl⟩⟩
  cast k u r name hop := by
    by_cases hk : k = i
    · subst hk
      refine ⟨if r = old then new else r,
        operation_redirected.2 ⟨_, hop, by rw [if_pos rfl]; rfl⟩, ?_⟩
      split
      · rename_i hr
        exact .inr (hread u name (hr ▸ hop))
      · exact .inl rfl
    · exact ⟨r, operation_redirected.2 ⟨_, hop, if_neg hk⟩, .inl rfl⟩

/-- The cast is the instruction added last. -/
structure LastCast (c : Body) (k : InstrId) (new old : ValueId) (name : TypeName) : Prop where
  cast : c.operation k = .ok (.cast new old name)
  last : ∀ j, c.HasInstruction j → j.index ≤ k.index

/-- Another instruction reads the cast added last. -/
theorem LastCast.redirectOperand (hk : c.LastCast k new old name) (hik : i ≠ k) {changed : Bool}
    (hd : c.redirectOperand i old new = .ok (changed, d)) :
    Recasts c d ∧ d.LastCast k new old name := by
  obtain ⟨op, hop, hd⟩ := redirectOperand_eq_ok.1 hd
  split at hd
  · obtain ⟨-, -, -, rfl⟩ := hd
    have hcast : (c.redirected i old new).operation k = .ok (.cast new old name) :=
      operation_redirected.2 ⟨_, hk.cast, if_neg hik.symm⟩
    refine ⟨recasts_redirected fun u other _ => ⟨k, old, name, ?_, hcast⟩, hcast, fun j hj => ?_⟩
    · refine Nat.lt_of_le_of_ne (hk.last i (hasInstruction_of_operation hop)) fun heq => hik ?_
      exact InstrId.mk.injEq _ _ ▸ heq
    · exact hk.last j (hasInstruction_redirected.1 hj)
  · rw [hd.2]
    exact ⟨.refl c, hk⟩

theorem LastCast.redirectUses (hk : c.LastCast k new old name) {tree : DominatorTree}
    {excluded : List InstrId} {replaced : Redirected}
    (hd : c.redirectUses tree old new k excluded = .ok (replaced, d)) : Recasts c d := by
  refine (redirectUses_invariant (fun e => Recasts c e ∧ e.LastCast k new old name) hd
    ⟨.refl c, hk⟩ (fun i changed e e' hik he hstep => ?_) fun phi changed e e' he hstep => ?_).1
  · obtain ⟨hrecasts, hk'⟩ := he.2.redirectOperand hik hstep
    exact ⟨he.1.trans hrecasts, hk'⟩
  · rcases redirectPhi_eq_ok hstep with ⟨-, rfl⟩ | ⟨b, x, p, edges, -, -, -, -, -, -, -, rfl⟩
    · exact he
    · refine ⟨he.1.trans (.of_grows (P := fun _ => False)
        (.of_operation_eq rfl (fun v x hx => ?_) fun _ => rfl)), he.2.cast,
        he.2.last⟩
      exact ⟨_, value_phiRedirected.2 ⟨x, hx, rfl⟩, .refl _⟩

/-- What is a cast now has been one before. -/
def NoNewCasts (c d : Body) : Prop :=
  ∀ k u r name, d.operation k = .ok (.cast u r name) → ∃ r', c.operation k = .ok (.cast u r' name)

theorem Rereads.noNewCasts (h : Rereads old new c d) : NoNewCasts c d := by
  intro k u r name hop
  obtain ⟨f, hf, -⟩ := h.operation k
  obtain ⟨op, hop', hcast⟩ := (hf _).1 hop
  cases op with
  | cast out object other =>
    obtain ⟨rfl, -, rfl⟩ := Operation.cast.inj hcast
    exact ⟨object, hop'⟩
  | _ => simp [Operation.mapOperands] at hcast

theorem noNewCasts_refl (c : Body) : NoNewCasts c c := fun _ _ r _ hop => ⟨r, hop⟩

theorem GrowsBy.noNewCasts {P : Operation → Prop} (h : GrowsBy P c d)
    (hP : ∀ u r name, ¬ P (.cast u r name)) : NoNewCasts c d :=
  fun k u r name hop => ⟨r, (h.added k _ hop).resolve_right (hP u r name)⟩

end Body

namespace Devirtualizing

open Body

variable {h : Hierarchy} {s s' : Devirtualization.State h} {c₀ c : Body} {i k : InstrId}
  {index : Nat}
  {call : Call} {target : MethodRef} {receiver v : ValueId} {holder : TypeName} {options : Options}
  {moved : Moved} {log : List (((ValueId × TypeName) × ValueId) × InstrId)}

/-! ### The log of casts -/

/-- The entry has been made for the cast `k`. Its receiver did not fit the class. -/
structure Logs (h : Hierarchy) (c₀ c : Body) (e : (ValueId × TypeName) × ValueId) (k : InstrId) :
    Prop where
  new : ¬ c₀.HasInstruction k
  cast : ∃ r, c.operation k = .ok (.cast e.2 r e.1.2) ∧ (r = e.1.1 ∨ c.CastAfter k r)
  unfit : ∃ x, c.value e.1.1 = .ok x ∧ x.type.fits h e.1.2 = false

theorem Logs.recasts {d : Body} {e : (ValueId × TypeName) × ValueId} (hk : Logs h c₀ c e k)
    (hcd : Recasts c d) : Logs h c₀ d e k where
  new := hk.new
  cast := by
    obtain ⟨r, hop, hr⟩ := hk.cast
    obtain ⟨r', hop', hr'⟩ := hcd.cast k _ r _ hop
    refine ⟨r', hop', ?_⟩
    rcases hr' with rfl | hafter
    · exact hr.imp_right hcd.castAfter
    · exact .inr hafter
  unfit := by
    obtain ⟨x, hx, hfits⟩ := hk.unfit
    obtain ⟨y, hy, hknown⟩ := hcd.value _ x hx
    exact ⟨y, hy, by rw [hknown.1, hfits]⟩

/-- The log lists the casts that have been placed, the latest first, each with the entry made for
it. -/
structure Logged (c₀ : Body) (s : Devirtualization.State h)
    (log : List (((ValueId × TypeName) × ValueId) × InstrId)) : Prop where
  hasInstruction : ∀ i, c₀.HasInstruction i → s.body.HasInstruction i
  casts : s.casts = log.map (·.1)
  logs : ∀ q ∈ log, Logs h c₀ s.body q.1 q.2
  sorted : log.Pairwise fun q q' => q'.2.index < q.2.index
  complete : ∀ k u r name, ¬ c₀.HasInstruction k → s.body.operation k = .ok (.cast u r name) →
    ∃ e, (e, k) ∈ log

theorem logged_start {resolver : Resolver h} {tree : DominatorTree} :
    Logged c ({ body := c, resolver, tree } : Devirtualization.State h) [] where
  hasInstruction _ hi := hi
  casts := rfl
  logs := by simp
  sorted := .nil
  complete _ _ _ _ hk hop := absurd (hasInstruction_of_operation hop) hk

/-- There is an entry for the object of a cast, unless it has come to the cast later. -/
theorem Logged.castAfter_or_mem (hs : Logged c₀ s log) (hk : ¬ c₀.HasInstruction k)
    {u r : ValueId} {name : TypeName} (hop : s.body.operation k = .ok (.cast u r name)) :
    s.body.CastAfter k r ∨ (((r, name), u), k) ∈ log := by
  obtain ⟨⟨⟨o, name'⟩, u'⟩, he⟩ := hs.complete k u r name hk hop
  obtain ⟨r', hop', hr'⟩ := (hs.logs _ he).cast
  obtain ⟨rfl, rfl, rfl⟩ := Operation.cast.inj (Except.ok.inj (hop.symm.trans hop'))
  rcases hr' with rfl | hafter
  · exact .inr he
  · exact .inl hafter

theorem Logged.keep (hs : Logged c₀ s log) (hrecasts : Recasts s.body s'.body)
    (hnone : NoNewCasts s.body s'.body) (hcasts : s'.casts = s.casts) : Logged c₀ s' log where
  hasInstruction i hi := hrecasts.hasInstruction (hs.hasInstruction i hi)
  casts := hcasts.trans hs.casts
  logs q hq := (hs.logs q hq).recasts hrecasts
  sorted := hs.sorted
  complete k u r name hk hop := by
    obtain ⟨r', hop'⟩ := hnone k u r name hop
    exact hs.complete k u r' name hk hop'

/-- A cast is placed behind all instructions there are, and an entry is made for it. -/
theorem Logged.add (hs : Logged c₀ s log) (hrecasts : Recasts s.body c)
    (hnone : NoNewCasts s.body c) {x : Value} (hx : s.body.value receiver = .ok x)
    (hfits : x.type.fits h holder = false) {b : BlockId}
    (hbody : s'.body = c.inserted b index (.cast v receiver holder))
    (hcasts : s'.casts = ((receiver, holder), v) :: s.casts) :
    Logged c₀ s' ((((receiver, holder), v), ⟨c.instructions.length⟩) :: log) := by
  have hgrows : Recasts c s'.body := by
    rw [hbody]
    exact ⟨fun v x hx => ⟨_, value_inserted.2 ⟨x, hx, rfl⟩, .refl _⟩,
      fun i op hop => ⟨op, operation_inserted.2 (.inl hop)⟩,
      fun k u r name hop => ⟨r, operation_inserted.2 (.inl hop), .inl rfl⟩⟩
  have hall := hrecasts.trans hgrows
  have hcast : s'.body.operation ⟨c.instructions.length⟩ = .ok (.cast v receiver holder) := by
    rw [hbody]
    exact operation_inserted.2 (.inr ⟨rfl, rfl⟩)
  refine ⟨fun i hi => hall.hasInstruction (hs.hasInstruction i hi), by rw [hcasts, hs.casts]; rfl,
    List.forall_mem_cons.2 ⟨⟨fun hk => ?_, ⟨receiver, hcast, .inl rfl⟩, ?_⟩,
      fun q hq => (hs.logs q hq).recasts hall⟩,
    List.pairwise_cons.2 ⟨fun q hq => ?_, hs.sorted⟩, fun k u r name hk hop => ?_⟩
  · exact Nat.lt_irrefl _ (hrecasts.hasInstruction (hs.hasInstruction _ hk))
  · obtain ⟨y, hy, hknown⟩ := hall.value receiver x hx
    exact ⟨y, hy, by rw [hknown.1, hfits]⟩
  · obtain ⟨r, hop, -⟩ := ((hs.logs q hq).recasts hrecasts).cast
    exact hasInstruction_of_operation hop
  · rw [hbody] at hop
    rcases operation_inserted.1 hop with hop | ⟨rfl, -⟩
    · obtain ⟨r', hop'⟩ := hnone k u r name hop
      obtain ⟨e, he⟩ := hs.complete k u r' name hk hop'
      exact ⟨e, List.mem_cons_of_mem _ he⟩
    · exact ⟨_, List.mem_cons_self⟩

/-! ### Steps -/

theorem Logged.idle (hs : Logged c₀ s log) (hidle : Idle s s') : Logged c₀ s' log := by
  refine hs.keep ?_ ?_ hidle.casts
  · rw [hidle.body]
    exact .refl _
  · rw [hidle.body]
    exact noNewCasts_refl _

theorem Logged.turns (hs : Logged c₀ s log) (hturns : Turns i call target s s')
    (hop : s.body.operation i = .ok (.call call)) : Logged c₀ s' log := by
  refine hs.keep ?_ ?_ hturns.casts
  · rw [hturns.body]
    refine ⟨fun v x hx => ⟨_, value_replaced.2 ⟨x, hx, rfl⟩, .refl _⟩,
      fun j op hj => ⟨_, operation_replaced.2 ⟨op, hj, rfl⟩⟩, ?_⟩
    intro k u r name hcast
    have hne := (ne_of_call_of_cast hop hcast).symm
    exact ⟨r, operation_replaced.2 ⟨_, hcast, if_neg hne⟩, .inl rfl⟩
  · rw [hturns.body]
    intro k u r name hcast
    obtain ⟨op, hop', heq⟩ := operation_replaced.1 hcast
    split at heq
    · exact Operation.noConfusion heq
    · exact ⟨r, heq ▸ hop'⟩

theorem Logged.castReceiver (hs : Logged c₀ s log) (hop : s.body.operation i = .ok (.call call))
    (hrun : (castReceiver i index receiver holder).run s = .ok (moved, s')) :
    ∃ log', Logged c₀ s' log' := by
  rcases castReceiver_cases hrun with ⟨rfl, -⟩ | ⟨cast, changed, -, hreads, hcasts, -⟩ |
    ⟨x, k, v, s₁, s₂, changed, ⟨hx, hfits⟩, hplace, hreads, hcasts, -, -, hspread⟩
  · exact ⟨log, hs⟩
  · refine ⟨log, hs.keep ?_ (rereads_redirectOperand hreads).noNewCasts hcasts⟩
    obtain ⟨op, -, hd⟩ := redirectOperand_eq_ok.1 hreads
    split at hd
    · rw [hd.2.2.2]
      refine recasts_redirected fun u name hcast => ?_
      exact Operation.noConfusion (Except.ok.inj (hop.symm.trans hcast))
    · rw [hd.2]
      exact .refl _
  · obtain ⟨s₀, b, c, stats, hnew, -, hroom, hinsert, hcasts₁, -⟩ := placeCast_cases hplace
    have hgrows : GrowsBy (fun op => ∃ t, op = Operation.goto t) s.body c := by
      have hvalue := growsBy_newCastValue (P := fun op => ∃ t, op = Operation.goto t) hnew
      cases hroom with
      | whole => exact hvalue
      | split hsplit => exact hvalue.trans (grows_split (fun t => ⟨t, rfl⟩) hsplit)
    obtain ⟨-, -, rfl, hbody⟩ := insertAt_eq_ok.1 hinsert
    have hcasts₀ : s₀.casts = s.casts := (run_newCastValue hnew).1.casts
    have hadded : Logged c₀ { s₁ with casts := s₂.casts } _ := hs.add (.of_grows hgrows)
      (hgrows.noNewCasts (by simp)) hx hfits hbody (by rw [hcasts, hcasts₁, hcasts₀])
    have hlast : s₁.body.LastCast ⟨c.instructions.length⟩ v receiver holder := by
      rw [hbody]
      refine ⟨operation_inserted.2 (.inr ⟨rfl, rfl⟩), fun j hj => ?_⟩
      obtain ⟨op, hop⟩ := hj.exists_operation
      rcases operation_inserted.1 hop with hold | ⟨rfl, -⟩
      · exact Nat.le_of_lt (hasInstruction_of_operation hold)
      · exact Nat.le_refl _
    have hik : i ≠ ⟨c.instructions.length⟩ := by
      rintro rfl
      exact Nat.lt_irrefl _ (hasInstruction_of_operation (hgrows.operation _ _ hop))
    obtain ⟨hrecasts, hlast₂⟩ := hlast.redirectOperand hik hreads
    have hread : Logged c₀ s₂ _ :=
      hadded.keep hrecasts (rereads_redirectOperand hreads).noNewCasts rfl
    obtain ⟨hcasts', -, -, hbody' | ⟨⟨tree, excluded, replaced, huses⟩, -⟩⟩ :=
      spreadCast_cases hspread
    · refine ⟨_, hread.keep ?_ ?_ hcasts'⟩
      · rw [hbody']
        exact .refl _
      · rw [hbody']
        exact noNewCasts_refl _
    · exact ⟨_, hread.keep (hlast₂.redirectUses huses)
        (rereads_redirectUses huses).noNewCasts hcasts'⟩

theorem Logged.visit (hs : ∃ log, Logged c₀ s log)
    (hrun : (visit options i index).run s = .ok (moved, s')) : ∃ log, Logged c₀ s' log := by
  apply visit_invariant _ _ _ hs hrun
  · intro s s' ⟨log, hs⟩ hidle
    exact ⟨log, hs.idle hidle⟩
  · intro call target s s' ⟨log, hs⟩ hturns hop
    exact ⟨log, hs.turns hturns hop⟩
  · intro call target receiver moved s₁ s₂ ⟨log, hs₁⟩ hturns hop _ _ hcast
    exact hs₁.castReceiver (hturns.operation hop) hcast

end Devirtualizing

namespace Body

variable {h : Hierarchy} {c : Body} {options : Options} {resolver : Resolver h}
  {run : PassRun h Devirtualized}

theorem exists_log {s : Devirtualization.State h} (hwalk : c.walkCalls options resolver = .ok s) :
    ∃ log, Devirtualizing.Logged c s log :=
  walkCalls_invariant Devirtualizing.Logged.visit (fun _ => ⟨[], Devirtualizing.logged_start⟩) hwalk

/-- If a cast that has been added turns out to say nothing new about its object, then the object is
the output of a cast that has been added later, or its type did not fit the class until types were
narrowed at the end. -/
theorem castAfter_or_narrowed {k : InstrId} {u r : ValueId} {name : TypeName} {y : Value}
    (hrun : c.devirtualize options resolver = .ok run) (hk : ¬ c.HasInstruction k)
    (hop : run.body.operation k = .ok (.cast u r name)) (hy : run.body.value r = .ok y)
    (hvacuous : y.type.le h (.ofClass name y.type.nullability) = true) :
    (∃ k' q other, k.index < k'.index ∧ run.body.operation k' = .ok (.cast r q other)) ∨
      options.narrowTypes = true ∧ ∃ s x, c.walkCalls options resolver = .ok s ∧
        s.body.value r = .ok x ∧ x.type.le h (.ofClass name x.type.nullability) = false := by
  obtain ⟨s, affected, d, l, hwalk, hsettle, -, rfl⟩ := devirtualize_eq_ok.1 hrun
  have hretyped := retyped_of_settleTypes hsettle
  obtain ⟨log, hs⟩ := exists_log hwalk
  have hop' : s.body.operation k = .ok (.cast u r name) := hretyped.operation.symm.trans hop
  rcases hs.castAfter_or_mem hk hop' with hafter | he
  · exact .inl (hretyped.castAfter hafter)
  · obtain ⟨x, hx, hfits⟩ := (hs.logs _ he).unfit
    refine .inr ⟨?_, s, x, hwalk, hx, hfits⟩
    by_contra hoff
    rw [settleTypes, if_neg (by simp [hoff])] at hsettle
    obtain ⟨-, rfl⟩ := Prod.mk.inj (Except.ok.inj hsettle)
    obtain rfl := Except.ok.inj (hx.symm.trans hy)
    exact Bool.false_ne_true (hfits.symm.trans hvacuous)

/-- Two calls on one receiver, the first one to be executed in the block laid out last. -/
def callsAgainstLayout : List DraftStep :=
  [.newBlock, .newBlock, .argument (.ofClass "I" .maybe),
    .dynamic ⟨0⟩ { name := "A", exact := true }, .goto ⟨0⟩ ⟨2⟩,
    .call ⟨2⟩ .interface (.plain "I" "f") [⟨0⟩], .goto ⟨2⟩ ⟨1⟩,
    .call ⟨1⟩ .interface (.plain "I" "f") [⟨0⟩], .ret ⟨1⟩ none]

set_option synthInstance.maxSize 256 in
/-- The cast placed first is let read the one placed second, which is to the same class. -/
theorem castAfter_callsAgainstLayout :
    ∃ made c, ofSteps (.plain "A" "f") callsAgainstLayout = .ok (made, c) ∧ c.violations = .ok [] ∧
      ∃ run, c.devirtualize { narrowTypes := false } (∅ : Resolver Devirtualizing.implementedOnce) =
          .ok run ∧ run.body.operation ⟨6⟩ = .ok (.cast ⟨1⟩ ⟨2⟩ "A") ∧ ¬ c.HasInstruction ⟨6⟩ ∧
        (∃ y, run.body.value ⟨2⟩ = .ok y ∧ y.type = .ofClass "A" .maybe) ∧
        ∃ (k : InstrId) (q : ValueId) (other : TypeName), 6 < k.index ∧
          run.body.operation k = .ok (.cast ⟨2⟩ q other) := by
  obtain ⟨made, c, hwritten, hvalid, run, hrun, hop, hk, y, hy, htype⟩ :
      ∃ made c, ofSteps (.plain "A" "f") callsAgainstLayout = .ok (made, c) ∧
        c.violations = .ok [] ∧
        ∃ run, c.devirtualize { narrowTypes := false }
          (∅ : Resolver Devirtualizing.implementedOnce) = .ok run ∧
        run.body.operation ⟨6⟩ = .ok (.cast ⟨1⟩ ⟨2⟩ "A") ∧ ¬ c.HasInstruction ⟨6⟩ ∧
        ∃ y, run.body.value ⟨2⟩ = .ok y ∧ y.type = .ofClass "A" .maybe := by
    decide +kernel
  have hvacuous :
      y.type.le Devirtualizing.implementedOnce (.ofClass "A" y.type.nullability) = true := by
    rw [htype]
    decide +kernel
  refine ⟨made, c, hwritten, hvalid, run, hrun, hop, hk, ⟨y, hy, htype⟩, ?_⟩
  rcases castAfter_or_narrowed hrun hk hop hy hvacuous with hafter | ⟨hon, -⟩
  · exact hafter
  · exact Bool.noConfusion hon

/-- Two calls on one receiver, the second one after a check for null. -/
def callsAroundCheck : List DraftStep :=
  [.argument (.ofClass "I" .maybe), .dynamic ⟨0⟩ { name := "A", exact := true },
    .call ⟨0⟩ .interface (.plain "I" "f") [⟨0⟩], .assumeNonNull ⟨0⟩ ⟨0⟩ none,
    .dynamic ⟨1⟩ { name := "A", exact := true }, .call ⟨0⟩ .interface (.plain "I" "f") [⟨1⟩],
    .ret ⟨0⟩ none]

set_option synthInstance.maxSize 256 in
/-- The checked value gets the class of the first cast in the end, after a second cast has been
placed for it. -/
theorem devirtualize_callsAroundCheck :
    ∃ made c, ofSteps (.plain "A" "f") callsAroundCheck = .ok (made, c) ∧ c.violations = .ok [] ∧
      ∃ run, c.devirtualize {} (∅ : Resolver Devirtualizing.implementedOnce) = .ok run ∧
        ∃ out, run.result = .ok out ∧ ¬ c.HasInstruction ⟨6⟩ ∧
        run.body.operation ⟨6⟩ = .ok (.cast ⟨3⟩ ⟨1⟩ "A") ∧
        ∃ y, run.body.value ⟨1⟩ = .ok y ∧
          y.type.le Devirtualizing.implementedOnce (.ofClass "A" y.type.nullability) = true := by
  decide +kernel

end Body

end Devirt
