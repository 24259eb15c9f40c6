import Devirt.Proofs.Devirtualization.Report

/-!
Values that casts do not spread over. A cast of a value is read in other places only if the value
has no name and the cast says at least as much as its type, and the last such cast goes on reading
the value itself. So where none is left in the end, nothing but calls that have been made virtual on
the value reads something else.
-/

namespace Devirt

namespace Body

variable {h : Hierarchy} {c d e : Body} {b : BlockId} {i k : InstrId} {v old new : ValueId}
  {y : Value} {call : Call} {method : MethodRef} {changed : Bool}

/-! ### Slots that go on reading a value -/

/-- The instruction is an interface call on the value in the body `c`, and a virtual call in `d`. -/
def MadeVirtualOn (v : ValueId) (c d : Body) (i : InstrId) : Prop :=
  ∃ call m, c.operation i = .ok (.call call) ∧ call.kind = .interface ∧ call.receiver? = some v ∧
    d.target? i = some (.virtual, m)

/-- What reads the value in the body `c` reads it in `d`, apart from calls that have been made
virtual on it. All operands of one instruction are replaced alike, and only by new values. -/
structure KeepsReading (v : ValueId) (c d : Body) : Prop where
  operation : ∀ {i op₀}, c.operation i = .ok op₀ → ∃ op f, d.operation i = .ok op ∧
    op.operands = op₀.operands.map f ∧ (∀ w, f w = w ∨ ¬ c.HasValue (f w)) ∧
    (f v = v ∨ MadeVirtualOn v c d i)
  block : ∀ {b x₀}, c.block b = .ok x₀ →
    ∃ x, d.block b = .ok x ∧ x₀.Extends (fun u w => w = v → u = v) x

namespace KeepsReading

theorem refl (v : ValueId) (c : Body) : KeepsReading v c c where
  operation hop := ⟨_, id, hop, (List.map_id _).symm, fun _ => .inl rfl, .inl rfl⟩
  block hx := ⟨_, hx, .of_phis_eq (fun _ => id) rfl⟩

/-- An edit that treats the operands in the same way is followed. -/
theorem step (hd : KeepsReading v c d)
    (hop : ∀ {i op}, d.operation i = .ok op → ∃ op' g, e.operation i = .ok op' ∧
      op'.operands = op.operands.map g ∧ (∀ w, g w = w ∨ ¬ c.HasValue (g w)) ∧
      (g v = v ∨ MadeVirtualOn v c d i))
    (htarget : ∀ {i m}, d.target? i = some (.virtual, m) →
      ∃ m', e.target? i = some (.virtual, m'))
    (hblock : ∀ {b x}, d.block b = .ok x →
      ∃ x', e.block b = .ok x' ∧ x.Extends (fun u w => w = v → u = v) x') : KeepsReading v c e where
  operation {i op₀} hop₀ := by
    obtain ⟨op, f, hop₁, hoperands, hf, hread⟩ := hd.operation hop₀
    obtain ⟨op', g, hop', hoperands', hg, hread'⟩ := hop hop₁
    have hmade : MadeVirtualOn v c d i → MadeVirtualOn v c e i := by
      intro ⟨call, m, hcall, hkind, hreceiver, ht⟩
      obtain ⟨m', ht'⟩ := htarget ht
      exact ⟨call, m', hcall, hkind, hreceiver, ht'⟩
    refine ⟨op', g ∘ f, hop', ?_, fun w => ?_, ?_⟩
    · rw [hoperands', hoperands, List.map_map]
    · rw [Function.comp]
      rcases hg (f w) with hw | hw
      · rw [hw]
        exact hf w
      · exact .inr hw
    · rw [Function.comp]
      rcases hread with hv | hv
      · rw [hv]
        exact hread'.imp_right hmade
      · exact .inr (hmade hv)
  block hx₀ := by
    obtain ⟨x, hx, hextends⟩ := hd.block hx₀
    obtain ⟨x', hx', hextends'⟩ := hblock hx
    exact ⟨x', hx', hextends.trans hextends' fun _ _ _ h h' hw => h (h' hw)⟩

theorem of_grows (hd : KeepsReading v c d) (hgrows : Grows d e) (hphis : KeepsPhis d e) :
    KeepsReading v c e := by
  refine hd.step ?_ (fun ht => ⟨_, (Grows.target? hgrows).trans ht⟩) ?_
  · intro i op hop
    exact ⟨op, id, hgrows.operation i op hop, (List.map_id _).symm, fun _ => .inl rfl, .inl rfl⟩
  · intro b x hx
    obtain ⟨x', hx', hextends⟩ := hphis b x hx
    exact ⟨x', hx', hextends.mono fun _ _ huw hw => huw.trans hw⟩

theorem retargeted (hd : KeepsReading v c d) (hop : d.operation i = .ok (.call call)) :
    KeepsReading v c (d.retargeted i call method) := by
  refine hd.step ?_ ?_ fun hx => ⟨_, hx, .of_phis_eq (fun _ => id) rfl⟩
  · intro j op hj
    refine ⟨_, id, operation_replaced.2 ⟨op, hj, rfl⟩, ?_, fun _ => .inl rfl, .inl rfl⟩
    rw [List.map_id]
    split
    · rename_i hij
      subst hij
      obtain rfl := Except.ok.inj (hop.symm.trans hj)
      rfl
    · rfl
  · intro j m ht
    rw [target?_retargeted hop]
    split
    · exact ⟨method, rfl⟩
    · exact ⟨m, ht⟩

/-- Another value is read less. -/
theorem of_rereads (hd : KeepsReading v c d) (hreads : Rereads old new d e) (hold : old ≠ v)
    (hnew : ¬ c.HasValue new)
    (hblock : ∀ {b x}, d.block b = .ok x →
      ∃ x', e.block b = .ok x' ∧ x.Extends (fun u w => w = v → u = v) x') : KeepsReading v c e := by
  refine hd.step ?_ (fun ht => ⟨_, hreads.target?.trans ht⟩) hblock
  intro j op hj
  obtain ⟨f, hf, hread⟩ := hreads.operation j
  refine ⟨_, f, (hf _).2 ⟨op, hj, rfl⟩, Operation.operands_mapOperands f op, fun w => ?_, .inl ?_⟩
  · rcases hread w with hw | ⟨-, hw⟩
    · exact .inl hw
    · exact .inr (hw ▸ hnew)
  · exact (hread v).resolve_right fun hv => hold hv.1.symm

theorem redirectOperand (hd : KeepsReading v c d) (hold : old ≠ v ∨ MadeVirtualOn v c d i)
    (hnew : ¬ c.HasValue new) (he : d.redirectOperand i old new = .ok (changed, e)) :
    KeepsReading v c e := by
  have hblock : ∀ {b x}, d.block b = .ok x →
      ∃ x', e.block b = .ok x' ∧ x.Extends (fun u w => w = v → u = v) x' := by
    intro b x hx
    refine ⟨x, ?_, .of_phis_eq (fun _ => id) rfl⟩
    obtain ⟨op, -, he⟩ := redirectOperand_eq_ok.1 he
    split at he
    · rw [he.2.2.2]
      exact hx
    · rw [he.2]
      exact hx
  have hreads := rereads_redirectOperand he
  rcases hold with hold | hmade
  · exact hd.of_rereads hreads hold hnew hblock
  · refine hd.step ?_ (fun ht => ⟨_, hreads.target?.trans ht⟩) hblock
    intro j op hj
    by_cases hji : j = i
    · subst hji
      obtain ⟨f, hf, hread⟩ := hreads.operation j
      refine ⟨_, f, (hf _).2 ⟨op, hj, rfl⟩, Operation.operands_mapOperands f op, fun w => ?_,
        .inr hmade⟩
      rcases hread w with hw | ⟨-, hw⟩
      · exact .inl hw
      · exact .inr (hw ▸ hnew)
    · exact ⟨op, id, (operation_redirectOperand_of_ne hji he).2 hj, (List.map_id _).symm,
        fun _ => .inl rfl, .inl rfl⟩

theorem redirectUses {tree : DominatorTree} {excluded : List InstrId} {r : Redirected}
    (hd : KeepsReading v c d) (hold : old ≠ v) (hnew : ¬ c.HasValue new)
    (he : d.redirectUses tree old new k excluded = .ok (r, e)) : KeepsReading v c e := by
  apply redirectUses_invariant (KeepsReading v c) he hd
  · intro j changed e₁ e₂ _ hd hstep
    exact hd.redirectOperand (.inl hold) hnew hstep
  · intro phi changed e₁ e₂ hd hstep
    apply hd.of_rereads (rereads_redirectPhi hstep) hold hnew
    intro s x hx
    rcases redirectPhi_eq_ok hstep with ⟨-, rfl⟩ | ⟨b, z, p, edges, -, hz, hp, -, -, -, -, rfl⟩
    · exact ⟨x, hx, .of_phis_eq (fun _ => id) rfl⟩
    · refine ⟨_, block_phiRedirected.2 ⟨x, hx, rfl⟩, ?_⟩
      split
      · rename_i hs
        subst hs
        obtain rfl := Except.ok.inj (hz.symm.trans hx)
        exact .modifyPhi (fun _ => id) hp (.redirectInputs (fun _ => id) fun hv => absurd hv hold)
      · exact .of_phis_eq (fun _ => id) rfl

/-- The receiver of a call that has been made virtual is the value only if it has been so from the
start. -/
theorem madeVirtualOn (hd : KeepsReading v c d) (hv : c.HasValue v)
    (hcall : c.target? i = some (.interface, method)) (hop : d.operation i = .ok (.call call))
    (hkind : call.kind = .virtual) (hreceiver : call.receiver? = some v) :
    MadeVirtualOn v c d i := by
  obtain ⟨call₀, hop₀, htarget⟩ := target?_eq_some.1 hcall
  obtain ⟨op, f, hop', hoperands, hf, -⟩ := hd.operation hop₀
  obtain rfl := Except.ok.inj (hop.symm.trans hop')
  have hhead : (call₀.arguments.map f).head? = some v := by
    rw [← hreceiver]
    exact congrArg List.head? hoperands.symm
  rw [List.head?_map, Option.map_eq_some_iff] at hhead
  obtain ⟨w, hw, hfw⟩ := hhead
  obtain rfl : w = v := by
    rcases hf w with h | h
    · exact h.symm.trans hfw
    · exact absurd (hfw ▸ hv) h
  refine ⟨call₀, call.method, hop₀, (Prod.mk.inj htarget).1, hw, ?_⟩
  rw [target?_eq hop, Call.target, hkind]

end KeepsReading

/-! ### Casts that could have been spread -/

/-- A new cast of the value says at least as much as the type. -/
def SharplyCast (h : Hierarchy) (v : ValueId) (type : StaticType) (c d : Body) : Prop :=
  ∃ k u name, ¬ c.HasInstruction k ∧ d.operation k = .ok (.cast u v name) ∧
    (StaticType.ofClass name type.nullability).le h type = true

theorem SharplyCast.step {type : StaticType} (hd : SharplyCast h v type c d)
    (hop : ∀ {k u name}, d.operation k = .ok (.cast u v name) →
      e.operation k = .ok (.cast u v name)) : SharplyCast h v type c e := by
  obtain ⟨k, u, name, hk, hcast, hle⟩ := hd
  exact ⟨k, u, name, hk, hop hcast, hle⟩

/-- What reads the value goes on reading it, unless it has no name and could have been replaced by a
cast. -/
def Protects (h : Hierarchy) (v : ValueId) (y : Value) (c d : Body) : Prop :=
  KeepsReading v c d ∨ y.isNamed = false ∧ SharplyCast h v y.type c d

namespace Protects

variable (hd : Protects h v y c d)
include hd

theorem of_grows (hgrows : Grows d e) (hphis : KeepsPhis d e) : Protects h v y c e :=
  hd.imp (fun hkeeps => hkeeps.of_grows hgrows hphis)
    (And.imp_right fun hcast => hcast.step (hgrows.operation _ _))

theorem retargeted (hop : d.operation i = .ok (.call call)) :
    Protects h v y c (d.retargeted i call method) := by
  refine hd.imp (fun hkeeps => hkeeps.retargeted hop) (And.imp_right fun hcast => hcast.step ?_)
  intro k u name hk
  exact operation_replaced.2 ⟨_, hk, if_neg (ne_of_call_of_cast hop hk).symm⟩

/-- A call that has been made virtual is let read a cast in the place of its receiver. -/
theorem redirectCall (hv : c.HasValue v) (hcall : c.target? i = some (.interface, method))
    (hop : d.operation i = .ok (.call call)) (hkind : call.kind = .virtual)
    (hreceiver : call.receiver? = some old) (hnew : ¬ c.HasValue new)
    (he : d.redirectOperand i old new = .ok (changed, e)) : Protects h v y c e := by
  refine hd.imp (fun hkeeps => ?_) (And.imp_right fun hcast => hcast.step ?_)
  · by_cases hold : old = v
    · subst hold
      exact hkeeps.redirectOperand (.inr (hkeeps.madeVirtualOn hv hcall hop hkind hreceiver)) hnew
        he
    · exact hkeeps.redirectOperand (.inl hold) hnew he
  · intro k u name hk
    have hki : k ≠ i := (ne_of_call_of_cast hop hk).symm
    exact (operation_redirectOperand_of_ne hki he).2 hk

/-- A cast of another value is spread. -/
theorem redirectUses {tree : DominatorTree} {excluded : List InstrId} {r : Redirected}
    (hold : old ≠ v) (hnew : ¬ c.HasValue new)
    (he : d.redirectUses tree old new k excluded = .ok (r, e)) : Protects h v y c e := by
  refine hd.imp (fun hkeeps => hkeeps.redirectUses hold hnew he)
    (And.imp_right fun hcast => hcast.step ?_)
  intro j u name hj
  obtain ⟨f, hf, hread⟩ := (rereads_redirectUses he).operation j
  have hfv : f v = v := (hread v).resolve_right fun hv => hold hv.1.symm
  apply (hf _).2
  exact ⟨_, hj, by rw [Operation.mapOperands, hfv]⟩

end Protects

/-- The cast that is spread goes on reading what it has read. -/
theorem operation_redirectUses_definer {tree : DominatorTree} {excluded : List InstrId}
    {r : Redirected} {op : Operation} (hop : c.operation k = .ok op)
    (hd : c.redirectUses tree old new k excluded = .ok (r, d)) : d.operation k = .ok op := by
  apply redirectUses_invariant (fun e => e.operation k = .ok op) hd hop
  · intro i changed e e' hi he hstep
    exact (operation_redirectOperand_of_ne hi.symm hstep).2 he
  · intro phi changed e e' he hstep
    rcases redirectPhi_eq_ok hstep with ⟨-, rfl⟩ | ⟨b, x, p, edges, -, -, -, -, -, -, -, rfl⟩
    · exact he
    · exact he

end Body

namespace Devirtualizing

open Body

variable {h : Hierarchy} {s s' : Devirtualization.State h} {c : Body} {i k : InstrId} {index : Nat}
  {call call' : Call} {target method : MethodRef} {receiver v u : ValueId} {y : Value}
  {holder : TypeName} {type : StaticType} {options : Options} {moved : Moved}

/-! ### The pass -/

theorem keepsPhis_placeCast (hs : s.body.Grounded)
    (hrun : (placeCast i index receiver holder type).run s = .ok ((k, u, moved), s')) :
    KeepsPhis s.body s'.body := by
  obtain ⟨s₁, b, d, stats, hnew, -, hroom, hinsert, -⟩ := placeCast_cases hrun
  have hs₁ := (sameLayout_newCastValue (i := i) hs hnew).2.1
  have hvalue : KeepsPhis s.body s₁.body := by
    obtain ⟨-, c, rfl, rfl | ⟨r, hset⟩⟩ := newCastValue_cases hnew
    · exact .of_block id
    · obtain ⟨-, rfl⟩ := modifyValue_eq_ok.1 hset
      exact .of_block id
  have hmade : KeepsPhis s₁.body d := by
    cases hroom with
    | whole => exact .of_block id
    | split hsplit =>
      obtain ⟨x, g, version, -, -, -, hg, rfl⟩ := split_cases hs₁.toArranged hsplit
      exact (KeepsPhis.cut.trans (.movesEdges hg)).trans (.trans .inserted (.of_block id))
  obtain ⟨-, -, -, hbody⟩ := insertAt_eq_ok.1 hinsert
  rw [hbody]
  exact (hvalue.trans hmade).trans .inserted

/-- What is kept of the body `c` while its calls are visited, as far as reading the value goes. -/
structure Shields (c : Body) (v : ValueId) (y : Value) (s : Devirtualization.State h) : Prop where
  overlays : Overlays c s
  known : ∀ w x, c.value w = .ok x → ∃ z, s.body.value w = .ok z ∧ z.SameKnown x
  casts : ∀ e ∈ s.casts, ¬ c.HasValue e.2
  protects : Protects h v y c s.body

theorem Shields.turns (hs : Shields c v y s) (ht : Turns i call target s s')
    (hop : s.body.operation i = .ok (.call call)) : Shields c v y s' where
  overlays := overlaid_turns hs.overlays ht hop
  known w x hx := by
    obtain ⟨z, hz, hxz⟩ := hs.known w x hx
    rw [ht.body]
    exact ⟨_, value_replaced.2 ⟨z, hz, rfl⟩, hxz⟩
  casts := ht.casts ▸ hs.casts
  protects := ht.body ▸ hs.protects.retargeted hop

theorem Shields.idle (hs : Shields c v y s) (hidle : Idle s s') : Shields c v y s' where
  overlays := overlaid_idle hs.overlays hidle
  known := hidle.body ▸ hs.known
  casts := hidle.casts ▸ hs.casts
  protects := hidle.body ▸ hs.protects

theorem Shields.hasValue (hs : Shields c v y s) {w : ValueId} (hw : c.HasValue w) :
    s.body.HasValue w := by
  obtain ⟨x, hx⟩ := exists_value_iff.2 hw
  obtain ⟨z, hz, -⟩ := hs.known w x hx
  exact hasValue_of_value hz

/-- The receiver of a call that has been made virtual is cast. If it is the value and the cast is
spread, this cast is the one that could be. -/
theorem Shields.castReceiver (hs : Shields c v y s) (hy : c.value v = .ok y)
    (hcall : c.target? i = some (.interface, method)) (hop : s.body.operation i = .ok (.call call))
    (hkind : call.kind = .virtual) (hreceiver : call.receiver? = some receiver)
    (hrun : (castReceiver i index receiver holder).run s = .ok (moved, s')) :
    Shields c v y s' := by
  have hv := hasValue_of_value hy
  have hover := overlaid_castReceiver hs.overlays hop hrun
  obtain ⟨_, _, _, henlarges, -⟩ := (accounts_castReceiver hs.overlays.grounded hrun).enlarges
  have hknown : ∀ w x, c.value w = .ok x → ∃ z, s'.body.value w = .ok z ∧ z.SameKnown x := by
    intro w x hx
    obtain ⟨z, hz, hxz⟩ := hs.known w x hx
    obtain ⟨z', hz', hzz'⟩ := henlarges.value w z hz
    exact ⟨z', hz', hzz'.trans hxz⟩
  rcases castReceiver_cases hrun with ⟨rfl, -⟩ | ⟨cast, changed, hmem, hreads, hcasts, -⟩ |
    ⟨x, k, u, s₁, s₂, changed, ⟨hx, -⟩, hplace, hreads, hcasts, -, -, hspread⟩
  · exact hs
  · refine ⟨hover, hknown, hcasts ▸ hs.casts, ?_⟩
    exact hs.protects.redirectCall hv hcall hop hkind hreceiver (hs.casts _ hmem) hreads
  · obtain ⟨hadds, hfresh, -⟩ := run_placeCast hplace
    have hnew : ¬ c.HasValue u := fun hu => hfresh (hs.hasValue hu)
    have hspared₁ := hs.protects.of_grows hadds.body
      (keepsPhis_placeCast hs.overlays.grounded hplace)
    have hspared₂ := hspared₁.redirectCall hv hcall (hadds.body.operation i _ hop) hkind hreceiver
      hnew hreads
    obtain ⟨hcasts', -, -, hbody⟩ := spreadCast_cases hspread
    refine ⟨hover, hknown, ?_, ?_⟩
    · rw [hcasts', hcasts, hadds.casts]
      exact List.forall_mem_cons.2 ⟨hnew, hs.casts⟩
    · rcases hbody with hsame | ⟨⟨tree, excluded, replaced, huses⟩, z, hz, hnamed, hle⟩
      · rw [hsame]
        exact hspared₂
      · by_cases hold : receiver = v
        · subst hold
          obtain ⟨hs₂, hk, hcast⟩ := overlaid_readCast hs.overlays hop hx hplace hreads
          obtain ⟨z', hz', -, hname⟩ := hs₂.carries.value hv hy
          obtain rfl := Except.ok.inj (hz.symm.trans hz')
          obtain ⟨x', hx', hxy⟩ := hs.known receiver y hy
          obtain rfl := Except.ok.inj (hx.symm.trans hx')
          obtain ⟨z₁, hz₁, hzx⟩ := hadds.body.value receiver x hx
          obtain ⟨z₂, hz₂, hzz⟩ := (rereads_redirectOperand hreads).value receiver z₁ hz₁
          obtain rfl := Except.ok.inj (hz.symm.trans hz₂)
          refine .inr ⟨?_, k, u, holder, hk, operation_redirectUses_definer hcast huses, ?_⟩
          · rw [← hnamed, Value.isNamed, Value.isNamed, hname]
          · rwa [hzz.1, hzx.1, hxy.1] at hle
        · exact hspared₂.redirectUses hold hnew huses

theorem Shields.visit (hs : Shields c v y s) (hy : c.value v = .ok y) (hcalls : CountsCalls c s)
    (hrun : (visit options i index).run s = .ok (moved, s')) : Shields c v y s' := by
  apply visit_invariant Shields.idle Shields.turns _ hs hrun
  intro call target receiver moved s₁ s₂ hs₁ hturns hop hkind hreceiver hcast
  have hcall : c.target? i = some (.interface, call.method) := by
    refine hcalls.unturned ?_ (by decide)
    rw [target?_eq hop, Call.target, hkind]
  exact hs₁.castReceiver hy hcall (hturns.operation hop) rfl hreceiver hcast

end Devirtualizing

namespace Body

open Devirtualizing

variable {h : Hierarchy} {c : Body} {options : Options} {resolver : Resolver h}
  {run : PassRun h Devirtualized} {s : Devirtualization.State h} {v : ValueId} {y : Value}

theorem protects_walkCalls (hc : c.Grounded) (hy : c.value v = .ok y)
    (hrun : c.walkCalls options resolver = .ok s) : Protects h v y c s.body := by
  have hinv : Shields c v y s ∧ CountsCalls c s := by
    apply walkCalls_invariant (motive := fun s => Shields c v y s ∧ CountsCalls c s) _ _ hrun
    · intro i index moved s s' ⟨hs, hcalls⟩ hvisit
      exact ⟨hs.visit hy hcalls hvisit, hcalls.visit hvisit⟩
    · intro tree
      refine ⟨⟨.start hc, fun _ x hx => ⟨x, hx, .refl x⟩, ?_, .inl (.refl v c)⟩,
        countsCalls_start tree⟩
      simp
  exact hinv.1.protects

/-- Let a value have a name, or let no new cast of it that is left in the end say as much as its
type. Then every instruction and every phi that reads the value before the pass reads it
afterwards, apart from interface calls on the value that have been made virtual. In such a call one
new value stands wherever the value stood, not only as the receiver. -/
theorem reads_of_devirtualize (hc : c.Made) (hrun : c.devirtualize options resolver = .ok run)
    (hy : c.value v = .ok y)
    (hprotected : y.isNamed = true ∨ ∀ k u name, ¬ c.HasInstruction k →
      run.body.operation k = .ok (.cast u v name) →
      (StaticType.ofClass name y.type.nullability).le h y.type = false) :
    (∀ i op₀, c.operation i = .ok op₀ → ∃ op u, run.body.operation i = .ok op ∧
      (∀ n : Nat, op₀.operands[n]? = some v → op.operands[n]? = some u) ∧
      (u = v ∨ ¬ c.HasValue u ∧ MadeVirtualOn v c run.body i)) ∧
    ∀ b x₀, c.block b = .ok x₀ → ∃ x, run.body.block b = .ok x ∧
      ∀ (m : Nat) p₀, x₀.phis[m]? = some p₀ → ∃ p, x.phis[m]? = some p ∧ p.out = p₀.out ∧
        ∀ n : Nat, p₀.operands[n]? = some v → p.operands[n]? = some v := by
  obtain ⟨s, affected, d, l, hwalk, hsettle, -, rfl⟩ := devirtualize_eq_ok.1 hrun
  have hretyped := retyped_of_settleTypes hsettle
  have hkeeps : KeepsReading v c s.body := by
    rcases protects_walkCalls hc.grounded hy hwalk with
      hkeeps | ⟨hnamed, k, u, name, hk, hcast, hle⟩
    · exact hkeeps
    · rcases hprotected with hname | hblunt
      · exact absurd (hname.symm.trans hnamed) (by decide)
      · rw [← hretyped.operation] at hcast
        exact absurd (hle.symm.trans (hblunt k u name hk hcast)) (by decide)
  constructor
  · intro i op₀ hop₀
    obtain ⟨op, f, hop, hoperands, hf, hread⟩ := hkeeps.operation hop₀
    refine ⟨op, f v, hretyped.operation.trans hop, fun n hn => ?_, ?_⟩
    · rw [hoperands, List.getElem?_map, hn, Option.map_some]
    · rcases hread with hv | ⟨call, m, hcall, hkind, hreceiver, ht⟩
      · exact .inl hv
      · exact (hf v).imp_right fun hnew =>
          ⟨hnew, call, m, hcall, hkind, hreceiver, hretyped.target?.trans ht⟩
  · intro b x₀ hx₀
    obtain ⟨x, hx, -, hphis⟩ := hkeeps.block hx₀
    have hx' : d.block b = .ok x := by
      obtain ⟨type, rfl⟩ := hretyped
      exact hx
    refine ⟨x, hx', fun m p₀ hp₀ => ?_⟩
    obtain ⟨p, hp, hout, hread⟩ := hphis m p₀ hp₀
    refine ⟨p, hp, hout, fun n hn => ?_⟩
    obtain ⟨u, hu, huv⟩ := hread n v hn
    rw [hu, huv rfl]

/-- A class implements a method that takes an object of the interface. -/
def takingItself : Hierarchy :=
  { defined := [
      { name := "I", isInterface := true
        methods := [{ signature := { name := "g", parameters := ["I"] }, isAbstract := true }] },
      { name := "A", interfaces := ["I"]
        methods := [{ signature := { name := "g", parameters := ["I"] } }] }] }

/-- A call on a named value that is an argument as well, and a phi that reads the value. -/
def callOnItself : List DraftStep :=
  [.newBlock, .argument (.ofClass "I" .maybe), .localName ⟨0⟩ "x",
    .dynamic ⟨0⟩ { name := "A", exact := true },
    .call ⟨0⟩ .interface ⟨"I", { name := "g", parameters := ["I"] }⟩ [⟨0⟩, ⟨0⟩], .goto ⟨0⟩ ⟨1⟩,
    .phi ⟨1⟩ (.ofClass "I" .maybe) [(⟨0⟩, ⟨0⟩)], .ret ⟨1⟩ (some ⟨1⟩)]

set_option synthInstance.maxSize 256 in
/-- The phi goes on reading the named value. -/
theorem reads_callOnItself :
    ∃ made c run y, ofSteps (.plain "A" "m") callOnItself = .ok (made, c) ∧ c.Made ∧
      c.devirtualize {} (∅ : Resolver takingItself) = .ok run ∧ c.value ⟨0⟩ = .ok y ∧
      y.isNamed = true ∧ c.violations = .ok [] ∧
      ∃ x p, run.body.block ⟨1⟩ = .ok x ∧ x.phis[0]? = some p ∧ p.operands[0]? = some ⟨0⟩ := by
  obtain ⟨made, c, hwritten, hvalid, ⟨y, hy, hnamed⟩, ⟨x₀, hx₀, hphis₀⟩, run, hrun, -⟩ :
      ∃ made c, ofSteps (.plain "A" "m") callOnItself = .ok (made, c) ∧ c.violations = .ok [] ∧
        (∃ y, c.value ⟨0⟩ = .ok y ∧ y.isNamed = true) ∧
        (∃ x₀, c.block ⟨1⟩ = .ok x₀ ∧ x₀.phis = [{ out := ⟨1⟩, operands := [⟨0⟩] }]) ∧
        ∃ run, c.devirtualize {} (∅ : Resolver takingItself) = .ok run ∧
          run.body.violations = .ok [] := by
    decide +kernel
  have hc : c.Made := .written hwritten
  obtain ⟨-, hphis⟩ := reads_of_devirtualize hc hrun hy (.inl hnamed)
  obtain ⟨x, hx, hblock⟩ := hphis ⟨1⟩ x₀ hx₀
  obtain ⟨p, hp, -, hkept⟩ := hblock 0 _ (by rw [hphis₀, List.getElem?_cons_zero])
  exact ⟨made, c, run, y, hwritten, hc, hrun, hy, hnamed, hvalid, x, p, hx, hp, hkept 0 rfl⟩

set_option synthInstance.maxSize 256 in
/-- The cast stands for the named value in both places of the call. -/
theorem argument_replaced_callOnItself :
    ∃ made c, ofSteps (.plain "A" "m") callOnItself = .ok (made, c) ∧ c.violations = .ok [] ∧
      (∃ y, c.value ⟨0⟩ = .ok y ∧ y.isNamed = true) ∧
      c.operation ⟨1⟩ = .ok (.call { kind := .interface
                                     method := ⟨"I", { name := "g", parameters := ["I"] }⟩
                                     arguments := [⟨0⟩, ⟨0⟩] }) ∧
      ∃ run, c.devirtualize {} (∅ : Resolver takingItself) = .ok run ∧
        (∃ out, run.result = .ok out ∧ out.changed = true) ∧
        run.body.operation ⟨1⟩ = .ok (.call { kind := .virtual
                                              method := ⟨"A", { name := "g", parameters := ["I"] }⟩
                                              arguments := [⟨2⟩, ⟨2⟩] }) := by
  decide +kernel

end Body

end Devirt
