import Devirt.Proofs.Devirtualization.Consultation

/-!
No consultation is of a stale tree. Retargeting a call, making a value and letting others read it
keep the control flow, and so does a cast that is placed before another instruction. A split does
not, and is followed by a new tree before anything else is asked.
-/

namespace Devirt

/-! ### Edits that keep the control flow -/

namespace Body

variable {c d e : Body} {b : BlockId} {i definer : InstrId} {old new phi v : ValueId}
  {t : DominatorTree}

/-- The body `d` has the control flow of `c`, and names values of its own if `c` does. -/
structure KeepsFlow (c d : Body) : Prop extends SameShape c d where
  order : d.order = c.order
  version : d.version = c.version
  grounded : c.Grounded → d.Grounded

namespace KeepsFlow

theorem refl (c : Body) : KeepsFlow c c := ⟨.refl c, rfl, rfl, id⟩

theorem trans (h : KeepsFlow c d) (h' : KeepsFlow d e) : KeepsFlow c e :=
  ⟨h.toSameShape.trans h'.toSameShape, h'.order.trans h.order, h'.version.trans h.version,
    h'.grounded ∘ h.grounded⟩

theorem dominators_eq (h : KeepsFlow c d) : d.dominators = c.dominators :=
  h.toSameShape.dominators_eq h.order h.version

theorem createValue (type : StaticType) : KeepsFlow c (c.createValue type).2 :=
  ⟨sameShape_createValue, rfl, rfl, fun hc => hc.createValue type⟩

theorem modifyValue {f : Value → Value} (hd : c.modifyValue v f = .ok d) : KeepsFlow c d := by
  obtain ⟨-, rfl⟩ := modifyValue_eq_ok.1 hd
  exact ⟨sameShape_updateValues, rfl, rfl, fun hc => hc.updateValues _⟩

theorem retarget {call : Call} {kind : DispatchKind} {method : MethodRef}
    (hop : c.operation i = .ok (.call call))
    (hd : c.replace i (.call { call with kind, method }) = .ok d) : KeepsFlow c d := by
  obtain ⟨op, hop', -, hmentions, rfl⟩ := replace_eq_ok.1 hd
  obtain rfl := Except.ok.inj (hop.symm.trans hop')
  exact ⟨sameShape_replaced hop rfl, rfl, rfl, fun hc => hc.replaced hmentions⟩

theorem redirectOperand {changed : Bool} (hd : c.redirectOperand i old new = .ok (changed, d)) :
    KeepsFlow c d := by
  obtain ⟨op, -, hcases⟩ := redirectOperand_eq_ok.1 hd
  split at hcases
  · obtain ⟨-, -, hnew, rfl⟩ := hcases
    exact ⟨sameShape_redirected, rfl, rfl, fun hc => hc.redirected hnew⟩
  · rw [hcases.2]
    exact .refl c

theorem redirectUser {changed : Bool} (hd : c.redirectUser t old new definer i = .ok (changed, d)) :
    KeepsFlow c d := by
  rcases redirectUser_cases hd with rfl | hd
  · exact .refl d
  · exact .redirectOperand hd

theorem redirectPhi {changed : Bool} (hd : c.redirectPhi t old new phi = .ok (changed, d)) :
    KeepsFlow c d := by
  have hgrounded : c.Grounded → d.Grounded := fun hc => hc.redirectPhi hd
  rcases redirectPhi_eq_ok hd with ⟨-, rfl⟩ | ⟨b, x, p, edges, -, -, -, -, -, -, -, rfl⟩
  · exact .refl d
  · exact ⟨sameShape_phiRedirected, rfl, rfl, hgrounded⟩

end KeepsFlow

end Body

/-! ### Steps that keep control flow and tree -/

namespace Devirtualizing

open Body

variable {h : Hierarchy} {α β : Type} {s s' : Devirtualization.State h} {options : Options}
  {i : InstrId} {index : Nat} {receiver : ValueId} {holder : TypeName} {type : StaticType}

/-- Control flow and tree are the same after the step as before it. -/
def Stays (m : Devirtualizing h α) : Prop :=
  ∀ s s' a, m.run s = .ok (a, s') → s.body.KeepsFlow s'.body ∧ s'.tree = s.tree

theorem stays_pure (a : α) : Stays (h := h) (pure a) := by
  intro s s' _ hrun
  obtain ⟨-, rfl⟩ := run_pure_eq_ok.1 hrun
  exact ⟨.refl _, rfl⟩

theorem Stays.bind {m : Devirtualizing h α} {g : α → Devirtualizing h β} (hm : Stays m)
    (hg : ∀ a, Stays (g a)) : Stays (m >>= g) := by
  intro s s' b hrun
  obtain ⟨a, s₁, hfirst, hrest⟩ := run_bind_eq_ok.1 hrun
  obtain ⟨hflow, htree⟩ := hm s s₁ a hfirst
  obtain ⟨hflow', htree'⟩ := hg a s₁ s' b hrest
  exact ⟨hflow.trans hflow', htree'.trans htree⟩

theorem stays_get : Stays (h := h) get := by
  intro s s' _ hrun
  obtain ⟨-, rfl⟩ := run_get_eq_ok.1 hrun
  exact ⟨.refl _, rfl⟩

theorem stays_query (f : Body → Except Fault α) : Stays (h := h) (query f) := by
  intro s s' _ hrun
  obtain ⟨-, rfl⟩ := run_query_eq_ok.1 hrun
  exact ⟨.refl _, rfl⟩

theorem stays_modify {f : Devirtualization.State h → Devirtualization.State h}
    (hbody : ∀ s, (f s).body = s.body) (htree : ∀ s, (f s).tree = s.tree) :
    Stays (modify f : Devirtualizing h PUnit) := by
  intro s s' _ hrun
  obtain rfl := run_modify_eq_ok.1 hrun
  exact ⟨hbody s ▸ .refl _, htree s⟩

theorem stays_count (f : CallStats → CallStats) : Stays (h := h) (count f) :=
  stays_modify (fun _ => rfl) fun _ => rfl

theorem stays_affect (l : List ValueId) : Stays (h := h) (affect l) :=
  stays_modify (fun _ => rfl) fun _ => rfl

theorem stays_resolve (kind : DispatchKind) (method : MethodRef) (receiver : StaticType) :
    Stays (h := h) (resolve kind method receiver) := by
  intro s s' _ hrun
  obtain ⟨-, rfl⟩ := run_resolve_eq_ok.1 hrun
  exact ⟨.refl _, rfl⟩

theorem stays_edit {f : Body → Except Fault Body}
    (hf : ∀ {c d}, f c = .ok d → KeepsFlow c d) : Stays (h := h) (edit f) := by
  intro s s' _ hrun
  obtain ⟨c, hc, rfl⟩ := run_edit_eq_ok.1 hrun
  exact ⟨hf hc, rfl⟩

theorem stays_editWith {f : Body → Except Fault (α × Body)}
    (hf : ∀ {c a d}, f c = .ok (a, d) → KeepsFlow c d) : Stays (h := h) (editWith f) := by
  intro s s' _ hrun
  obtain ⟨c, hc, rfl⟩ := run_editWith_eq_ok.1 hrun
  exact ⟨hf hc, rfl⟩

theorem stays_retargetCall (i : InstrId) (kind : DispatchKind) (method : MethodRef) :
    Stays (h := h) (retargetCall i kind method) := by
  intro s s' _ hrun
  simp only [retargetCall, run_bind_eq_ok, run_query_eq_ok] at hrun
  obtain ⟨call?, _, ⟨hcall, rfl⟩, hrun⟩ := hrun
  cases call? with
  | none =>
    obtain ⟨-, rfl⟩ := run_pure_eq_ok.1 hrun
    exact ⟨.refl _, rfl⟩
  | some call =>
    obtain ⟨c, hc, rfl⟩ := run_edit_eq_ok.1 hrun
    exact ⟨.retarget (call?_eq_ok_some.1 hcall) hc, rfl⟩

theorem stays_superToVirtual (i : InstrId) : Stays (h := h) (superToVirtual i) := by
  refine .bind (stays_query _) fun call? => ?_
  split
  · split
    · refine .bind (stays_query _) fun x => .bind (stays_resolve _ _ _) fun selection => ?_
      split
      · refine .bind (stays_resolve _ _ _) fun selection' => ?_
        split
        · exact stays_pure _
        · exact .bind (stays_retargetCall _ _ _) fun _ =>
            .bind (stays_count _) fun _ => stays_pure _
      · exact stays_pure _
    · exact stays_pure _
  · exact stays_pure _

theorem stays_specialize (options : Options) (i : InstrId) :
    Stays (h := h) (specialize options i) := by
  unfold specialize
  split
  · refine .bind (stays_query _) fun call? => ?_
    split
    · split
      · refine .bind (stays_query _) fun x => .bind stays_get fun s => ?_
        split
        · exact .bind (stays_retargetCall _ _ _) fun _ => stays_count _
        · exact stays_pure _
      · exact stays_pure _
    · exact stays_pure _
  · exact stays_pure _

theorem stays_soleClassTarget? (call : Call) (receiver : ValueId) :
    Stays (h := h) (soleClassTarget? call receiver) := by
  refine .bind (stays_query _) fun x => .bind (stays_resolve _ _ _) fun selection => ?_
  split
  · refine .bind stays_get fun s => ?_
    dsimp only
    split
    · exact stays_pure _
    · exact stays_pure _
  · exact stays_pure _

theorem stays_newCastValue (receiver : ValueId) (holder : TypeName) (type : StaticType) :
    Stays (h := h) (newCastValue receiver holder type) := by
  refine .bind (stays_editWith fun hcreate => ?_) fun v => .bind (stays_query _) fun x => ?_
  · obtain ⟨-, rfl⟩ := Prod.mk.inj (Except.ok.inj hcreate)
    exact .createValue type
  · split
    · split
      · exact .bind (stays_edit fun hset => .modifyValue hset) fun _ => stays_pure _
      · exact stays_pure _
    · exact stays_pure _

/-! ### States between two steps -/

/-- The tree is the one that would be built for the body. -/
structure Steady (s : Devirtualization.State h) : Prop where
  grounded : s.body.Grounded
  tree : s.body.dominators = .ok s.tree

/-- Moreover the instruction to be visited stands at the index of some block. -/
structure Visiting (i : InstrId) (index : Nat) (s : Devirtualization.State h) : Prop
    extends Steady s where
  stands : ∃ b x, s.body.block b = .ok x ∧ x.instructions[index]? = some i

/-- What is said of a state is about control flow and tree. -/
def OfFlow (P : Devirtualization.State h → Prop) : Prop :=
  ∀ s s', s.body.KeepsFlow s'.body → s'.tree = s.tree → P s → P s'

theorem ofFlow_steady : OfFlow (Steady (h := h)) := by
  intro s s' hflow htree hs
  refine ⟨hflow.grounded hs.grounded, ?_⟩
  rw [hflow.dominators_eq, hs.tree, htree]

theorem ofFlow_visiting : OfFlow (Visiting (h := h) i index) := by
  intro s s' hflow htree hs
  obtain ⟨b, x, hx, hi⟩ := hs.stands
  obtain ⟨y, hy, hins, -⟩ := hflow.exists_block hx
  exact ⟨ofFlow_steady s s' hflow htree hs.toSteady, b, y, hy, hins ▸ hi⟩

/-- A cast placed before the call does not end its block, so jumps stay as they are. Where the block
is split, the tree is built anew. -/
theorem steady_placeCast {a : InstrId × ValueId × Moved} (hs : Visiting i index s)
    (hrun : (placeCast i index receiver holder type).run s = .ok (a, s')) : Steady s' := by
  simp only [placeCast, run_bind_eq_ok, run_query_eq_ok] at hrun
  obtain ⟨v, s₁, hnew, b, _, ⟨hb, rfl⟩, x, _, ⟨hx, rfl⟩, hrun⟩ := hrun
  obtain ⟨hflow, htree⟩ := stays_newCastValue _ _ _ _ _ _ hnew
  have hs₁ := ofFlow_visiting s s₁ hflow htree hs
  split at hrun
  · simp only [run_bind_eq_ok, run_editWith_eq_ok, run_count_eq_ok, run_rebuildTree_eq_ok,
      run_pure_eq_ok] at hrun
    obtain ⟨tail, _, ⟨c, hsplit, rfl⟩, _, _, rfl, k, _, ⟨d, hinsert, rfl⟩, _, _, ⟨t, ht, rfl⟩,
      _, _, rfl, -, rfl⟩ := hrun
    obtain ⟨⟨y, hy, hindex⟩, hmentions, -, rfl⟩ := insertAt_eq_ok.1 hinsert
    exact ⟨(hs₁.grounded.split hsplit).inserted hy hindex hmentions, ht⟩
  · simp only [run_bind_eq_ok, run_editWith_eq_ok, run_count_eq_ok, run_pure_eq_ok] at hrun
    obtain ⟨k, _, ⟨d, hinsert, rfl⟩, _, _, rfl, -, rfl⟩ := hrun
    obtain ⟨⟨y, hy, hindex⟩, hmentions, -, rfl⟩ := insertAt_eq_ok.1 hinsert
    refine ⟨hs₁.grounded.inserted hy hindex hmentions, ?_⟩
    obtain ⟨b', z, hz, hi⟩ := hs₁.stands
    have hb' := hs₁.grounded.placed hz i (List.mem_of_getElem? hi)
    obtain rfl := Except.ok.inj (hb.symm.trans hb')
    have hlt := (List.getElem?_eq_some_iff.1 hi).1
    exact (dominators_inserted hz hlt hs₁.grounded.toArranged).trans hs₁.tree

end Devirtualizing

namespace Watching

open Devirtualizing Body

variable {h : Hierarchy} {α β : Type} {P R : Devirtualization.State h → Prop}
  {options : Options} {i definer : InstrId} {index : Nat} {receiver v old new : ValueId}
  {holder : TypeName} {type : StaticType} {excluded : List InstrId}

/-! ### Consultations of current trees -/

/-- From a state with `P` the step asks none but current trees, and leads to one with `R`. -/
def Keeps (P : Devirtualization.State h → Prop) (w : Watching h α)
    (R : Devirtualization.State h → Prop) : Prop :=
  ∀ log log' s s' a, P s → (w.run log).run s = .ok ((a, log'), s') →
    R s' ∧ ∀ q ∈ log', q ∈ log ∨ q.IsCurrent

theorem keeps_pure (a : α) (hPR : ∀ {s}, P s → R s) : Keeps P (pure a) R := by
  intro log log' s s' _ hs hrun
  obtain ⟨hlog, rfl⟩ := run_pure_eq_ok.1 hrun
  obtain ⟨-, rfl⟩ := Prod.mk.inj hlog
  exact ⟨hPR hs, fun q hq => .inl hq⟩

theorem Keeps.bind {w : Watching h α} {g : α → Watching h β}
    {M : Devirtualization.State h → Prop} (hw : Keeps P w M) (hg : ∀ a, Keeps M (g a) R) :
    Keeps P (w >>= g) R := by
  intro log log' s s' b hs hrun
  rw [StateT.run_bind, run_bind_eq_ok] at hrun
  obtain ⟨⟨a, log₁⟩, s₁, hfirst, hrest⟩ := hrun
  obtain ⟨hs₁, hlog₁⟩ := hw _ _ _ _ _ hs hfirst
  obtain ⟨hs', hlog'⟩ := hg a _ _ _ _ _ hs₁ hrest
  refine ⟨hs', fun q hq => ?_⟩
  rcases hlog' q hq with hq | hq
  · exact hlog₁ q hq
  · exact .inr hq

theorem keeps_plain {m : Devirtualizing h α}
    (hm : ∀ {s s' a}, P s → m.run s = .ok (a, s') → R s') : Keeps P (plain m) R := by
  intro log log' s s' a hs hrun
  rw [plain, StateT.run_lift, run_bind_eq_ok] at hrun
  obtain ⟨a', s₁, hrun, hend⟩ := hrun
  obtain ⟨hlog, rfl⟩ := run_pure_eq_ok.1 hend
  obtain ⟨-, rfl⟩ := Prod.mk.inj hlog
  exact ⟨hm hs hrun, fun q hq => .inl hq⟩

theorem keeps_stays {m : Devirtualizing h α} (hP : OfFlow P) (hm : Stays m) :
    Keeps P (plain m) P := by
  refine keeps_plain fun hs hrun => ?_
  obtain ⟨hflow, htree⟩ := hm _ _ _ hrun
  exact hP _ _ hflow htree hs

theorem run_consult_eq_ok {f : DominatorTree → Body → Except Fault (α × Body)} {a : α}
    {log log' : List Consultation} {s s' : Devirtualization.State h} :
    ((consult f).run log).run s = .ok ((a, log'), s') ↔
      log ++ [⟨s.tree, s.body⟩] = log' ∧ ∃ c, f s.tree s.body = .ok (a, c) ∧
        { s with body := c } = s' := by
  -- reading the state and adding to the record cannot fail
  show ((plain (editWith (f s.tree))).run (log ++ [⟨s.tree, s.body⟩])).run s = _ ↔ _
  rw [plain, StateT.run_lift, run_bind_eq_ok]
  simp only [run_editWith_eq_ok, run_pure_eq_ok, Prod.mk.injEq]
  constructor
  · rintro ⟨_, _, ⟨c, hc, rfl⟩, ⟨rfl, rfl⟩, rfl⟩
    exact ⟨rfl, c, hc, rfl⟩
  · rintro ⟨rfl, c, hc, rfl⟩
    exact ⟨a, _, ⟨c, hc, rfl⟩, ⟨rfl, rfl⟩, rfl⟩

theorem keeps_consult {f : DominatorTree → Body → Except Fault (α × Body)} (hP : OfFlow P)
    (hsteady : ∀ {s}, P s → Steady s) (hf : ∀ {t c a d}, f t c = .ok (a, d) → KeepsFlow c d) :
    Keeps P (consult f) P := by
  intro log log' s s' a hs hrun
  obtain ⟨rfl, c, hc, rfl⟩ := run_consult_eq_ok.1 hrun
  refine ⟨hP _ _ (hf hc) rfl hs, fun q hq => ?_⟩
  rcases List.mem_append.1 hq with hq | hq
  · exact .inl hq
  · rw [List.mem_singleton.1 hq]
    exact .inr (hsteady hs).tree

theorem keeps_redirectEach {f : DominatorTree → Body → α → Except Fault (Bool × Body)}
    (hf : ∀ {t c a changed d}, f t c a = .ok (changed, d) → KeepsFlow c d) (l done : List α) :
    Keeps Steady (redirectEach (h := h) f l done) Steady := by
  induction l generalizing done with
  | nil => exact keeps_pure done id
  | cons a l ih =>
    rw [redirectEach_cons]
    exact (keeps_consult ofFlow_steady id hf).bind fun _ => ih _

theorem keeps_redirectUses :
    Keeps (h := h) Steady (redirectUses old new definer excluded) Steady :=
  .bind (keeps_stays ofFlow_steady (stays_query _)) fun _ =>
    .bind (keeps_redirectEach .redirectUser _ _) fun _ =>
    .bind (keeps_stays ofFlow_steady (stays_query _)) fun _ =>
    .bind (keeps_redirectEach .redirectPhi _ _) fun _ => keeps_pure _ id

theorem keeps_spreadCast {cast : InstrId} :
    Keeps (h := h) Steady (spreadCast i receiver type cast v) Steady := by
  refine .bind (keeps_stays ofFlow_steady (stays_query _)) fun x => ?_
  split
  · exact .bind (keeps_stays ofFlow_steady stays_get) fun _ => .bind keeps_redirectUses fun _ =>
      .bind (keeps_stays ofFlow_steady (stays_query _)) fun _ =>
      keeps_stays ofFlow_steady (stays_affect _)
  · exact keeps_pure () id

theorem keeps_cachedCast? {b : BlockId} :
    Keeps (h := h) (Visiting i index) (cachedCast? receiver holder b) (Visiting i index) := by
  refine .bind (keeps_stays ofFlow_visiting stays_get) fun s => ?_
  split
  · refine .bind (keeps_consult ofFlow_visiting Visiting.toSteady ?_) fun reaches => ?_
    · intro t c reaches d hd
      obtain ⟨_, -, hpair⟩ := map_eq_ok.1 hd
      obtain ⟨-, rfl⟩ := Prod.mk.inj hpair
      exact .refl c
    · split
      · exact keeps_pure _ id
      · exact keeps_pure _ id
  · exact keeps_pure _ id

theorem keeps_castReceiver :
    Keeps (h := h) (Visiting i index) (castReceiver i index receiver holder) Steady := by
  refine .bind (keeps_stays ofFlow_visiting (stays_query _)) fun x => ?_
  dsimp only
  split
  · exact keeps_pure _ Visiting.toSteady
  · refine .bind (keeps_stays ofFlow_visiting (stays_query _)) fun b =>
      .bind keeps_cachedCast? fun cast? => ?_
    cases cast? with
    | some cast =>
      exact .bind (keeps_stays ofFlow_visiting (stays_editWith .redirectOperand)) fun _ =>
        .bind (keeps_stays ofFlow_visiting (stays_affect _)) fun _ =>
        .bind (keeps_stays ofFlow_visiting (stays_count _)) fun _ =>
        keeps_pure _ Visiting.toSteady
    | none =>
      exact .bind (keeps_plain steady_placeCast) fun _ =>
        .bind (keeps_stays ofFlow_steady (stays_modify (fun _ => rfl) fun _ => rfl)) fun _ =>
        .bind (keeps_stays ofFlow_steady (stays_affect _)) fun _ =>
        .bind (keeps_stays ofFlow_steady (stays_editWith .redirectOperand)) fun _ =>
        .bind keeps_spreadCast fun _ => keeps_pure _ id

theorem keeps_interfaceToVirtual :
    Keeps (h := h) (Visiting i index) (interfaceToVirtual i index) Steady := by
  refine .bind (keeps_stays ofFlow_visiting (stays_query _)) fun call? => ?_
  split
  · split
    · refine .bind (keeps_stays ofFlow_visiting (stays_soleClassTarget? _ _)) fun target? => ?_
      split
      · have hinsert : ∀ moved : Moved, Keeps (h := h) Steady (do
            plain (modify fun s => { s with devirtualized := s.devirtualized.insert i })
            return moved) Steady := fun moved =>
          .bind (keeps_stays ofFlow_steady (stays_modify (fun _ => rfl) fun _ => rfl)) fun _ =>
            keeps_pure _ id
        refine .bind (keeps_stays ofFlow_visiting (stays_retargetCall _ _ _)) fun _ =>
          .bind (keeps_stays ofFlow_visiting (stays_count _)) fun _ =>
          .bind (keeps_stays ofFlow_visiting (stays_affect _)) fun _ => ?_
        split
        · exact .bind (keeps_pure _ Visiting.toSteady) hinsert
        · exact .bind keeps_castReceiver hinsert
      · exact keeps_pure _ Visiting.toSteady
    · exact keeps_pure _ Visiting.toSteady
  · exact keeps_pure _ Visiting.toSteady

theorem keeps_visit : Keeps (h := h) (Visiting i index) (visit options i index) Steady := by
  refine .bind (keeps_stays ofFlow_visiting (stays_query _)) fun call? => ?_
  split
  · split
    · split
      · refine .bind (keeps_stays ofFlow_visiting (stays_superToVirtual _)) fun changed => ?_
        split
        · exact .bind (keeps_stays ofFlow_visiting (stays_specialize _ _)) fun _ =>
            keeps_pure _ Visiting.toSteady
        · exact keeps_pure _ Visiting.toSteady
      · exact keeps_pure _ Visiting.toSteady
    · exact .bind (keeps_stays ofFlow_visiting (stays_specialize _ _)) fun _ =>
        keeps_pure _ Visiting.toSteady
    · split
      · refine .bind keeps_interfaceToVirtual fun moved =>
          .bind (keeps_stays ofFlow_steady (stays_query _)) fun _ => ?_
        split
        · exact .bind (keeps_stays ofFlow_steady (stays_specialize _ _)) fun _ => keeps_pure _ id
        · exact keeps_pure _ id
      · exact keeps_pure _ Visiting.toSteady
  · exact keeps_pure _ Visiting.toSteady

end Watching

/-! ### Walks -/

namespace Walk

open Devirtualizing

variable {h : Hierarchy} {options : Options} {w : Walk h} {log log' : List Consultation}

/-- A round turns to the next block or visits an instruction that stands in its place. -/
theorem steady_watchAdvance {next : Option (Walk h)} (hs : Steady w.state)
    (hrun : w.watchAdvance options log = .ok (next, log')) :
    (∀ w', next = some w' → Steady w'.state) ∧ ∀ q ∈ log', q ∈ log ∨ q.IsCurrent := by
  unfold watchAdvance at hrun
  split at hrun
  · rename_i b hblock
    obtain ⟨i?, hnext, hrun⟩ := bind_eq_ok.1 hrun
    cases i? with
    | none =>
      obtain ⟨rfl, rfl⟩ := Prod.mk.inj (Except.ok.inj hrun)
      refine ⟨fun w' hw => ?_, fun q hq => .inl hq⟩
      obtain rfl := Option.some.inj hw
      exact hs
    | some i =>
      obtain ⟨⟨⟨moved, log₁⟩, s⟩, hvisit, hrun⟩ := bind_eq_ok.1 hrun
      obtain ⟨rfl, rfl⟩ := Prod.mk.inj (Except.ok.inj hrun)
      simp only [instruction?, bind_eq_ok, pure_eq_ok, Except.ok.injEq] at hnext
      obtain ⟨x, hx, hi⟩ := hnext
      obtain ⟨hs', hlog⟩ := Watching.keeps_visit _ _ _ _ _ ⟨hs, b, x, hx, hi⟩ hvisit
      refine ⟨fun w' hw => ?_, hlog⟩
      obtain rfl := Option.some.inj hw
      rw [state_resume]
      exact hs'
  · obtain ⟨rfl, rfl⟩ := Prod.mk.inj (Except.ok.inj hrun)
    exact ⟨nofun, fun q hq => .inl hq⟩

theorem isCurrent_of_watchRun {rounds : Nat} {s : Devirtualization.State h} (hs : Steady w.state)
    (hrun : w.watchRun options rounds log = .ok (s, log')) :
    ∀ q ∈ log', q ∈ log ∨ q.IsCurrent := by
  induction rounds generalizing w log with
  | zero => simp [watchRun] at hrun
  | succ rounds ih =>
    obtain ⟨⟨next, log₁⟩, hadvance, hrun⟩ := bind_eq_ok.1 hrun
    obtain ⟨hnext, hlog₁⟩ := steady_watchAdvance hs hadvance
    cases next with
    | none =>
      obtain ⟨-, rfl⟩ := Prod.mk.inj (Except.ok.inj hrun)
      exact hlog₁
    | some w' =>
      intro q hq
      rcases ih (hnext w' rfl) hrun q hq with hq | hq
      · exact hlog₁ q hq
      · exact .inr hq

end Walk

namespace Body

variable {h : Hierarchy} {c : Body} {options : Options} {resolver : Resolver h}

/-- Whenever the tree is asked while the calls of a body are tried, it is the tree that would be
built for the body as it then is, so that it answers in the same way. -/
theorem consultations_current (hc : c.Made) {s : Devirtualization.State h}
    (hwalk : c.walkCalls options resolver = .ok s) :
    ∃ log, c.watchCalls options resolver = .ok (s, log) ∧
      ∀ q ∈ log, ∃ t, q.body.dominators = .ok t ∧
        (∀ a b, q.tree.dominates a b = t.dominates a b) ∧
        ∀ b, q.tree.isReachable b = t.isReachable b := by
  obtain ⟨⟨s', log⟩, hwatch, heq⟩ := map_eq_ok.1 (fst_watchCalls.trans hwalk)
  obtain rfl : s' = s := heq
  refine ⟨log, hwatch, fun q hq => ?_⟩
  simp only [watchCalls, bind_eq_ok] at hwatch
  obtain ⟨tree, htree, rounds, -, hwatch⟩ := hwatch
  have hsteady : Devirtualizing.Steady { body := c, resolver, tree } := ⟨hc.grounded, htree⟩
  have hcurrent := Walk.isCurrent_of_watchRun (w := { state := { body := c, resolver, tree } })
    hsteady hwatch q hq
  exact ⟨q.tree, hcurrent.resolve_left List.not_mem_nil, fun _ _ => rfl, fun _ => rfl⟩

set_option synthInstance.maxSize 256 in
/-- The guarded block is split, and the tree is asked again after that. The first tree does not know
the new block and would give other answers. -/
theorem consultations_callsInGuarded :
    ∃ made c s log, ofSteps (.plain "A" "f") callsInGuarded = .ok (made, c) ∧
      c.walkCalls {} (∅ : Resolver Devirtualizing.implementedOnce) = .ok s ∧
      c.watchCalls {} (∅ : Resolver Devirtualizing.implementedOnce) = .ok (s, log) ∧
      (∃ t, c.dominators = .ok t ∧
        ∃ q ∈ log, ∃ b ∈ q.body.order, q.tree.isReachable b ≠ t.isReachable b) ∧
      ∀ q ∈ log, ∃ t, q.body.dominators = .ok t ∧
        (∀ a b, q.tree.dominates a b = t.dominates a b) ∧
        ∀ b, q.tree.isReachable b = t.isReachable b := by
  obtain ⟨made, c, hwritten, ⟨s, hwalk, -⟩, s', log, hwatch, hstale⟩ :
      ∃ made c, ofSteps (.plain "A" "f") callsInGuarded = .ok (made, c) ∧
        (∃ s, c.walkCalls {} (∅ : Resolver Devirtualizing.implementedOnce) = .ok s ∧
          s.body.version = c.version + 2) ∧
        ∃ s log, c.watchCalls {} (∅ : Resolver Devirtualizing.implementedOnce) = .ok (s, log) ∧
          ∃ t, c.dominators = .ok t ∧
            ∃ q ∈ log, ∃ b ∈ q.body.order, q.tree.isReachable b ≠ t.isReachable b := by
    decide +kernel
  obtain ⟨log', hwatch', hcurrent⟩ := consultations_current (.written hwritten) hwalk
  obtain ⟨rfl, rfl⟩ := Prod.mk.inj (Except.ok.inj (hwatch.symm.trans hwatch'))
  exact ⟨made, c, s', log, hwritten, hwalk, hwatch, hstale, hcurrent⟩

end Body

end Devirt
