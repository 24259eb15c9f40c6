import Devirt.Proofs.Devirtualization.Spreading

/-!
Runs of devirtualization steps. A step that succeeds from a state takes it to another one of which
something is known; the rules below follow the way steps are put together. While a body is walked,
every cast kept for later use leads back to the value it is kept for.
-/

namespace Devirt

open Relation

namespace Devirtualizing

variable {h : Hierarchy} {α β : Type} {s : Devirtualization.State h} {c₀ d : Body}

/-- From the state `s` the step succeeds, and `Q` holds of what it yields and of the new state. -/
def Runs (m : Devirtualizing h α) (s : Devirtualization.State h)
    (Q : α → Devirtualization.State h → Prop) : Prop :=
  ∃ a s', m.run s = .ok (a, s') ∧ Q a s'

variable {Q : β → Devirtualization.State h → Prop} {g : α → Devirtualizing h β}

theorem Runs.bind {m : Devirtualizing h α} {P : α → Devirtualization.State h → Prop}
    (hm : Runs m s P) (hg : ∀ a s', P a s' → Runs (g a) s' Q) : Runs (m >>= g) s Q := by
  obtain ⟨a, s', hrun, hP⟩ := hm
  obtain ⟨b, s'', hrun', hQ⟩ := hg a s' hP
  exact ⟨b, s'', by simp [StateT.run_bind, hrun, hrun'], hQ⟩

theorem runs_pure {b : β} (hQ : Q b s) : Runs (pure b) s Q := ⟨b, s, rfl, hQ⟩

theorem runs_get {g : Devirtualization.State h → Devirtualizing h β} (hg : Runs (g s) s Q) :
    Runs (get >>= g) s Q := hg

theorem runs_modify {f : Devirtualization.State h → Devirtualization.State h}
    {g : Unit → Devirtualizing h β} (hg : Runs (g ()) (f s) Q) : Runs (modify f >>= g) s Q := hg

theorem runs_count {f : CallStats → CallStats} {g : Unit → Devirtualizing h β}
    (hg : Runs (g ()) { s with stats := f s.stats } Q) : Runs (count f >>= g) s Q := hg

theorem runs_affect {l : List ValueId} {g : Unit → Devirtualizing h β}
    (hg : Runs (g ()) { s with affected := s.affected.insertAll l } Q) :
    Runs (affect l >>= g) s Q := hg

theorem runs_lift {e : Except Fault α} {a : α} (he : e = .ok a) (hg : Runs (g a) s Q) :
    Runs ((liftM e : Devirtualizing h α) >>= g) s Q := by
  subst he
  exact hg

theorem runs_rebuildTree {t : DominatorTree} {g : Unit → Devirtualizing h β}
    (ht : s.body.dominators = .ok t) (hg : Runs (g ()) { s with tree := t } Q) :
    Runs (rebuildTree >>= g) s Q := by
  obtain ⟨b, s', hrun, hQ⟩ := hg
  exact ⟨b, s', by simp [rebuildTree, StateT.run_bind, StateT.run_monadLift, ht, hrun], hQ⟩

theorem runs_query {f : Body → Except Fault α} {a : α} (ha : f s.body = .ok a)
    (hg : Runs (g a) s Q) : Runs (query f >>= g) s Q := by
  obtain ⟨b, s', hrun, hQ⟩ := hg
  exact ⟨b, s', by simp [query, StateT.run_bind, StateT.run_monadLift, ha, hrun], hQ⟩

theorem runs_edit {f : Body → Except Fault Body} (hd : f s.body = .ok d)
    {g : Unit → Devirtualizing h β} (hg : Runs (g ()) { s with body := d } Q) :
    Runs (edit f >>= g) s Q := by
  obtain ⟨b, s', hrun, hQ⟩ := hg
  exact ⟨b, s', by simp [edit, StateT.run_bind, StateT.run_monadLift, hd, hrun], hQ⟩

theorem runs_editWith {f : Body → Except Fault (α × Body)} {a : α} (hd : f s.body = .ok (a, d))
    (hg : Runs (g a) { s with body := d } Q) : Runs (editWith f >>= g) s Q := by
  obtain ⟨b, s', hrun, hQ⟩ := hg
  exact ⟨b, s', by simp [editWith, StateT.run_bind, StateT.run_monadLift, hd, hrun], hQ⟩

theorem runs_resolve {kind : DispatchKind} {method : MethodRef} {receiver : StaticType}
    {g : Selection MethodRef → Devirtualizing h β}
    (hg : ∀ resolver, Runs (g (h.resolved kind method receiver s.body.context))
      { s with resolver } Q) : Runs (resolve kind method receiver >>= g) s Q := by
  obtain ⟨b, s', hrun, hQ⟩ := hg (s.resolver.resolve kind method receiver s.body.context).2
  refine ⟨b, s', ?_, hQ⟩
  rw [← Hierarchy.resolve_fst s.resolver] at hrun
  simpa [resolve, StateT.run_bind] using hrun

end Devirtualizing

namespace Body

variable {h : Hierarchy} {c₀ c d : Body} {b : BlockId} {i k : InstrId} {u v r : ValueId}
  {op : Operation} {x : Block} {index : Nat} {jumps : List BlockId} {name : TypeName}

/-! ### Casts kept for later use -/

/-- The value has been made from the receiver by new casts, of which the last is to the class. -/
def CachedCast (c₀ c : Body) (receiver : ValueId) (name : TypeName) (cast : ValueId) : Prop :=
  (∃ k r, ¬ c₀.HasInstruction k ∧ c.operation k = .ok (.cast cast r name)) ∧
    ReflTransGen (CastStep c₀ c) cast receiver

theorem Tweak.exists_cast (ht : Tweak h c₀ c d) (hk : ¬ c₀.HasInstruction k)
    (hop : c.operation k = .ok (.cast u r name)) :
    ∃ r', d.operation k = .ok (.cast u r' name) ∧ ReflTransGen (CastStep c₀ d) r' r := by
  cases ht with
  | retarget hcall _ =>
    have hne := (ne_of_call_of_cast hcall hop).symm
    exact ⟨r, operation_replaced.2 ⟨_, hop, if_neg hne⟩, .refl⟩
  | createValue => exact ⟨r, hop, .refl⟩
  | setDynamic => exact ⟨r, hop, .refl⟩
  | spreadPhi => exact ⟨r, hop, .refl⟩
  | reuse hi _ _ _ _ _ =>
    refine ⟨r, operation_redirected.2 ⟨_, hop, if_neg ?_⟩, .refl⟩
    rintro rfl
    exact hk hi
  | @spread i k' op' old new name' hk' hcast hik _ _ _ =>
    by_cases hki : k = i
    · -- what read the old value reads the new cast of it
      refine ⟨if r = old then new else r, operation_redirected.2 ⟨_, hop, by rw [if_pos hki]; rfl⟩, ?_⟩
      split
      · rename_i hr
        have hcast' : (c.redirected i old new).operation k' = .ok (.cast new old name') :=
          operation_redirected.2 ⟨_, hcast, if_neg hik.symm⟩
        rw [hr]
        exact .single ⟨k', name', hk', hcast'⟩
      · exact .refl
    · exact ⟨r, operation_redirected.2 ⟨_, hop, if_neg hki⟩, .refl⟩

theorem Tweak.stands (ht : Tweak h c₀ c d) {w : ValueId} (hstands : Stands c₀ c u w) :
    Stands c₀ d u w := by
  induction hstands with
  | old hw => exact .old hw
  | cast hk hop _ ih =>
    obtain ⟨r', hop', hcasts⟩ := ht.exists_cast hk hop
    exact .cast hk hop' (ih.of_castSteps hcasts)

/-- Virtual calls stay virtual. -/
theorem Tweak.dispatches (ht : Tweak h c₀ c d) (hi : c.Dispatches i) : d.Dispatches i := by
  obtain ⟨call, hop, hkind⟩ := hi
  have hredirected : ∀ {j old new}, (c.redirected j old new).Dispatches i := by
    intro j old new
    refine ⟨if i = j then { call with arguments := call.arguments.map fun v =>
      if v = old then new else v } else call, operation_redirected.2 ⟨_, hop, ?_⟩, ?_⟩
    · split <;> rfl
    · split <;> exact hkind
  cases ht with
  | @retarget j call' method hcall _ =>
    by_cases hij : i = j
    · exact ⟨_, operation_replaced.2 ⟨_, hop, if_pos hij⟩, rfl⟩
    · exact ⟨call, operation_replaced.2 ⟨_, hop, if_neg hij⟩, hkind⟩
  | createValue => exact ⟨call, hop, hkind⟩
  | setDynamic => exact ⟨call, hop, hkind⟩
  | spreadPhi => exact ⟨call, hop, hkind⟩
  | reuse => exact hredirected
  | spread => exact hredirected

theorem Tweak.anchors (ht : Tweak h c₀ c d) (hk : ¬ c₀.HasInstruction k)
    (hanchors : Anchors c₀ c k i) : Anchors c₀ d k i := by
  obtain ⟨u, r, name, call₀, w, hop, hcall₀, hw, hstands, hi⟩ := hanchors
  obtain ⟨r', hop', hcasts⟩ := ht.exists_cast hk hop
  exact ⟨u, r', name, call₀, w, hop', hcall₀, hw, (ht.stands hstands).of_castSteps hcasts,
    ht.dispatches hi⟩

/-- The place of an old instruction stays as it is. -/
theorem OldPlace.tweaks (hp : OldPlace c₀ c b index i x) (ht : ReflTransGen (Tweak h c₀) c d) :
    ∃ y, OldPlace c₀ d b index i y ∧ y.handlers = x.handlers := by
  obtain ⟨x₀, hx₀, hspells⟩ := hp.spells
  have hspells' : Spells c₀ d x₀ x.instructions := by
    induction ht with
    | refl => exact hspells
    | tail _ hstep ih =>
      exact ⟨ih.old, ih.last, ih.anchored.imp fun k i hki hk => hstep.anchors hk (hki hk)⟩
  obtain ⟨y, hy, hins, -, hhandlers, -⟩ := (sameShape_of_tweaks ht).exists_block hp.block
  exact ⟨y, ⟨hy, hins ▸ hp.place, hp.old, ⟨x₀, hx₀, hins ▸ hspells'⟩, hins ▸ hp.unanchored⟩,
    hhandlers⟩

theorem Tweak.castStep (ht : Tweak h c₀ c d) (hstep : CastStep c₀ c u r) :
    ReflTransGen (CastStep c₀ d) u r := by
  obtain ⟨k, name, hk, hop⟩ := hstep
  obtain ⟨r', hop', hcasts⟩ := ht.exists_cast hk hop
  exact .head ⟨k, name, hk, hop'⟩ hcasts

theorem Tweak.castSteps (ht : Tweak h c₀ c d) (hcasts : ReflTransGen (CastStep c₀ c) u r) :
    ReflTransGen (CastStep c₀ d) u r := by
  induction hcasts with
  | refl => exact .refl
  | tail _ hstep ih => exact ih.trans (ht.castStep hstep)

theorem CachedCast.tweak (ht : Tweak h c₀ c d) (hc : CachedCast c₀ c r name v) :
    CachedCast c₀ d r name v := by
  obtain ⟨⟨k, r', hk, hop⟩, hcasts⟩ := hc
  obtain ⟨r'', hop', -⟩ := ht.exists_cast hk hop
  exact ⟨⟨k, r'', hk, hop'⟩, ht.castSteps hcasts⟩

theorem CachedCast.congr (hop : ∀ {k op}, c.operation k = .ok op → d.operation k = .ok op)
    (hc : CachedCast c₀ c r name v) : CachedCast c₀ d r name v := by
  obtain ⟨⟨k, r', hk, hcast⟩, hcasts⟩ := hc
  refine ⟨⟨k, r', hk, hop hcast⟩, ReflTransGen.mono (fun _ _ hstep => ?_) _ _ hcasts⟩
  obtain ⟨k, name, hk, hcast⟩ := hstep
  exact ⟨k, name, hk, hop hcast⟩

theorem Placement.hasValue {moved : Moved} (hp : Placement h c₀ c b index i moved d)
    (hv : c.HasValue v) : d.HasValue v := by
  cases hp <;> simpa using hv

theorem Placement.operation {moved : Moved} (hp : Placement h c₀ c b index i moved d)
    (hop : c.operation k = .ok op) : d.operation k = .ok op := by
  cases hp with
  | insert => exact operation_inserted.2 (.inl hop)
  | cut => exact operation_inserted.2 (.inl (operation_splitted.2 (.inl hop)))

/-! ### States -/

/-- One edit of devirtualization. -/
inductive Edit (h : Hierarchy) (c₀ c d : Body) : Prop
  | tweak (ht : Tweak h c₀ c d)
  | place {b : BlockId} {index : Nat} {i : InstrId} {moved : Moved}
      (hp : Placement h c₀ c b index i moved d)

end Body

open Body

/-- What holds of the state while the body `c₀` is devirtualized. -/
structure Devirtualization.State.Inv {h : Hierarchy} (c₀ : Body) (s : Devirtualization.State h) :
    Prop where
  stage : Stage c₀ s.body
  tree : Describes s.tree s.body
  path : ReflTransGen (Edit h c₀) c₀ s.body
  casts : ∀ e ∈ s.casts, CachedCast c₀ s.body e.1.1 e.1.2 e.2
  affected : ∀ v ∈ s.affected, s.body.HasValue v

/-- The second state has come from the first one by tweaks of the body. -/
structure Devirtualization.State.Tweaked {h : Hierarchy} (c₀ : Body)
    (s s' : Devirtualization.State h) : Prop where
  body : ReflTransGen (Tweak h c₀) s.body s'.body
  tree : s'.tree = s.tree
  casts : s'.casts = s.casts
  affected : ∀ v ∈ s'.affected, v ∈ s.affected ∨ s'.body.HasValue v

namespace Devirtualization.State

variable {h : Hierarchy} {c₀ d : Body} {s s' s'' : Devirtualization.State h}

theorem Tweaked.refl (hbody : s'.body = s.body) (htree : s'.tree = s.tree)
    (hcasts : s'.casts = s.casts) (haffected : s'.affected = s.affected) : Tweaked c₀ s s' :=
  ⟨hbody ▸ .refl, htree, hcasts, haffected ▸ fun _ hv => .inl hv⟩

theorem Tweaked.single (hbody : Tweak h c₀ s.body s'.body) (htree : s'.tree = s.tree)
    (hcasts : s'.casts = s.casts) (haffected : s'.affected = s.affected) : Tweaked c₀ s s' :=
  ⟨.single hbody, htree, hcasts, haffected ▸ fun _ hv => .inl hv⟩

theorem Tweaked.trans (ht : Tweaked c₀ s s') (ht' : Tweaked c₀ s' s'') : Tweaked c₀ s s'' where
  body := ht.body.trans ht'.body
  tree := ht'.tree.trans ht.tree
  casts := ht'.casts.trans ht.casts
  affected v hv := by
    rcases ht'.affected v hv with hv | hv
    · exact (ht.affected v hv).imp_right (hasValue_of_tweaks ht'.body)
    · exact .inr hv

/-- Values of the body may be counted as affected. -/
theorem Tweaked.affect (hbody : ReflTransGen (Tweak h c₀) s.body s'.body) (htree : s'.tree = s.tree)
    (hcasts : s'.casts = s.casts) {l : List ValueId} (haffected : s'.affected = s.affected.insertAll l)
    (hl : ∀ v ∈ l, s'.body.HasValue v) : Tweaked c₀ s s' where
  body := hbody
  tree := htree
  casts := hcasts
  affected v hv := by
    rw [haffected, OrderedSet.mem_insertAll] at hv
    exact hv.imp_right (hl v)

/-- A cast has been placed. -/
theorem Inv.placed (hI₀ : c₀.Intact) (hc₀ : c₀.Consistent) (hs : Inv c₀ s) {b : BlockId}
    {index : Nat} {i : InstrId} {moved : Moved} (hp : Placement h c₀ s.body b index i moved s'.body)
    (htree : Describes s'.tree s'.body) (hcasts : s'.casts = s.casts)
    (haffected : s'.affected = s.affected) : Inv c₀ s' where
  stage := hp.stage hI₀ hc₀ hs.stage
  tree := htree
  path := hs.path.tail (.place hp)
  casts := hcasts ▸ fun e he => (hs.casts e he).congr hp.operation
  affected := haffected ▸ fun v hv => hp.hasValue (hs.affected v hv)

theorem Inv.tweaked (hs : Inv c₀ s) (ht : Tweaked c₀ s s') : Inv c₀ s' := by
  obtain ⟨hbody, htree, hcasts, haffected⟩ := ht
  obtain ⟨hstage, hdesc, hpath, hcached, hvalues⟩ := hs
  have hall : ∀ {d}, ReflTransGen (Tweak h c₀) s.body d → Stage c₀ d ∧ Describes s.tree d ∧
      ReflTransGen (Edit h c₀) c₀ d ∧ ∀ e ∈ s.casts, CachedCast c₀ d e.1.1 e.1.2 e.2 := by
    intro d hd
    induction hd with
    | refl => exact ⟨hstage, hdesc, hpath, hcached⟩
    | tail _ hstep ih =>
      exact ⟨hstep.stage ih.1, hstep.describes ih.2.1, ih.2.2.1.tail (.tweak hstep),
        fun e he => (ih.2.2.2 e he).tweak hstep⟩
  obtain ⟨h1, h2, h3, h4⟩ := hall hbody
  refine ⟨h1, htree ▸ h2, h3, hcasts ▸ h4, fun v hv => ?_⟩
  exact (haffected v hv).elim (fun hv => hasValue_of_tweaks hbody (hvalues v hv)) id

/-- A new cast is kept for later use. -/
theorem Inv.remember (hs : Inv c₀ s) {k : InstrId} {u r : ValueId} {name : TypeName}
    (hk : ¬ c₀.HasInstruction k) (hcast : s.body.operation k = .ok (.cast u r name)) :
    Inv c₀ { s with casts := ((r, name), u) :: s.casts } where
  stage := hs.stage
  tree := hs.tree
  path := hs.path
  casts := by
    refine List.forall_mem_cons.2 ⟨⟨⟨k, r, hk, hcast⟩, .single ⟨k, name, hk, hcast⟩⟩, hs.casts⟩
  affected := hs.affected

end Devirtualization.State

end Devirt
