import Devirt.Proofs.Devirtualization.Course
import Devirt.Proofs.Devirtualization.Repetition
import Devirt.Proofs.Devirtualization.Targets
import Mathlib.Data.Set.Card

/-!
What devirtualization reports. Every step counts what it adds to the body and records the values it
creates, so the numbers add up along the walk. As no instruction is visited twice, a call that has
been given another target keeps it to the end.
-/

namespace Devirt

namespace Body

variable {c d e : Body} {b : BlockId} {i k : InstrId} {old new : ValueId} {op : Operation}
  {index casts casts' splits splits' : Nat} {fresh fresh' : List ValueId} {P : Operation → Prop}

/-! ### What is added to a body -/

def IsCast (c : Body) (k : InstrId) : Prop :=
  ∃ out object name, c.operation k = .ok (.cast out object name)

/-- The casts of the body `d` that are no instructions of `c`. -/
def newCasts (c d : Body) : Set InstrId := { k | ¬ c.HasInstruction k ∧ d.IsCast k }

theorem IsCast.hasInstruction (hk : c.IsCast k) : c.HasInstruction k := by
  obtain ⟨_, _, _, hop⟩ := hk
  exact hasInstruction_of_operation hop

/-- Instructions stay, and they are casts afterwards just if they have been casts before. -/
theorem GrowsBy.isCast_iff (hgrows : GrowsBy P c d) (hk : c.HasInstruction k) :
    d.HasInstruction k ∧ (d.IsCast k ↔ c.IsCast k) := by
  obtain ⟨op, hop⟩ := hk.exists_operation
  have hop' := hgrows.operation k op hop
  refine ⟨hasInstruction_of_operation hop', ?_⟩
  simp only [IsCast, hop, hop']

/-- The body `d` has come from `c` by adding so many casts and blocks, and the fresh values. -/
structure Enlarges (c d : Body) (casts splits : Nat) (fresh : List ValueId) : Prop where
  instruction : ∀ {k}, c.HasInstruction k → d.HasInstruction k ∧ (d.IsCast k ↔ c.IsCast k)
  casts : (newCasts c d).encard = casts
  blocks : d.blocks.length = c.blocks.length + splits
  value : ∀ v x, c.value v = .ok x → ∃ y, d.value v = .ok y ∧ y.SameKnown x
  fresh : ∀ {v}, d.HasValue v → c.HasValue v ∨ v ∈ fresh

namespace Enlarges

theorem trans (h : Enlarges c d casts splits fresh) (h' : Enlarges d e casts' splits' fresh') :
    Enlarges c e (casts + casts') (splits + splits') (fresh ++ fresh') where
  instruction hk := by
    obtain ⟨hd, hcast⟩ := h.instruction hk
    obtain ⟨he, hcast'⟩ := h'.instruction hd
    exact ⟨he, hcast'.trans hcast⟩
  casts := by
    -- a new cast has been added by the first step or by the second one
    have hunion : newCasts c e = newCasts c d ∪ newCasts d e := by
      ext k
      constructor
      · intro ⟨hnew, hcast⟩
        by_cases hk : d.HasInstruction k
        · exact .inl ⟨hnew, (h'.instruction hk).2.1 hcast⟩
        · exact .inr ⟨hk, hcast⟩
      · rintro (⟨hnew, hcast⟩ | ⟨hnew, hcast⟩)
        · exact ⟨hnew, (h'.instruction hcast.hasInstruction).2.2 hcast⟩
        · exact ⟨fun hk => hnew (h.instruction hk).1, hcast⟩
    have hdisjoint : Disjoint (newCasts c d) (newCasts d e) :=
      Set.disjoint_left.2 fun k hk hk' => hk'.1 hk.2.hasInstruction
    rw [hunion, Set.encard_union_eq hdisjoint, h.casts, h'.casts]
    rfl
  blocks := by
    rw [h'.blocks, h.blocks]
    omega
  value v x hx := by
    obtain ⟨y, hy, hxy⟩ := h.value v x hx
    obtain ⟨z, hz, hyz⟩ := h'.value v y hy
    exact ⟨z, hz, hyz.trans hxy⟩
  fresh hv := by
    rw [List.mem_append, ← or_assoc]
    exact (h'.fresh hv).imp_left h.fresh

/-- Instructions are added that are no casts. -/
theorem of_growsBy (hgrows : GrowsBy P c d) (hP : ∀ {out object name}, ¬ P (.cast out object name))
    (hblocks : d.blocks.length = c.blocks.length + splits)
    (hfresh : ∀ {v}, d.HasValue v → c.HasValue v ∨ v ∈ fresh) : Enlarges c d 0 splits fresh where
  instruction := hgrows.isCast_iff
  casts := by
    have hnone : newCasts c d = ∅ := by
      apply Set.eq_empty_of_forall_notMem
      rintro k ⟨hnew, out, object, name, hop⟩
      rcases hgrows.added k _ hop with hop | hcast
      · exact hnew (hasInstruction_of_operation hop)
      · exact hP hcast
    rw [hnone, Set.encard_empty]
    rfl
  blocks := hblocks
  value := hgrows.value
  fresh := hfresh

theorem refl (c : Body) : Enlarges c c 0 0 [] :=
  of_growsBy (P := fun _ => False) (.refl c) id rfl .inl

/-- Nothing is added, and casts stay casts. -/
theorem of_isCast (hinstruction : ∀ {k}, c.HasInstruction k → d.HasInstruction k)
    (hcast : ∀ {k}, d.IsCast k ↔ c.IsCast k) (hblocks : d.blocks.length = c.blocks.length)
    (hvalue : ∀ v x, c.value v = .ok x → ∃ y, d.value v = .ok y ∧ y.SameKnown x)
    (hfresh : ∀ {v}, d.HasValue v → c.HasValue v) : Enlarges c d 0 0 [] where
  instruction hk := ⟨hinstruction hk, hcast⟩
  casts := by
    have hnone : newCasts c d = ∅ :=
      Set.eq_empty_of_forall_notMem fun k hk => hk.1 (hcast.1 hk.2).hasInstruction
    rw [hnone, Set.encard_empty]
    rfl
  blocks := hblocks
  value := hvalue
  fresh hv := .inl (hfresh hv)

theorem of_rereads (hreads : Rereads old new c d) (hblocks : d.blocks.length = c.blocks.length)
    (hfresh : ∀ {v}, d.HasValue v → c.HasValue v) : Enlarges c d 0 0 [] := by
  refine of_isCast ?_ ?_ hblocks hreads.value hfresh
  · intro k hk
    obtain ⟨op, hop⟩ := hk.exists_operation
    obtain ⟨f, hf, -⟩ := hreads.operation k
    exact hasInstruction_of_operation ((hf _).2 ⟨op, hop, rfl⟩)
  · intro k
    obtain ⟨f, hf, -⟩ := hreads.operation k
    constructor
    · rintro ⟨out, object, name, hop⟩
      obtain ⟨op, hop, hmap⟩ := (hf _).1 hop
      cases op with
      | cast out' object' name' => exact ⟨out', object', name', hop⟩
      | _ => simp [Operation.mapOperands] at hmap
    · rintro ⟨out, object, name, hop⟩
      exact ⟨out, f object, name, (hf _).2 ⟨_, hop, rfl⟩⟩

theorem retargeted {call : Call} {method : MethodRef} (hop : c.operation i = .ok (.call call)) :
    Enlarges c (c.retargeted i call method) 0 0 [] := by
  refine of_isCast ?_ ?_ rfl ?_ hasValue_replaced.1
  · intro k hk
    obtain ⟨op, hop⟩ := hk.exists_operation
    exact hasInstruction_of_operation (operation_replaced.2 ⟨op, hop, rfl⟩)
  · intro k
    simp only [IsCast, operation_replaced]
    by_cases hk : k = i
    · simp [hk, hop]
    · simp [hk]
  · intro v x hx
    exact ⟨_, value_replaced.2 ⟨x, hx, rfl⟩, .refl _⟩

theorem redirectOperand {changed : Bool} (hd : c.redirectOperand i old new = .ok (changed, d)) :
    Enlarges c d 0 0 [] := by
  have hreads := rereads_redirectOperand hd
  obtain ⟨op, -, hd⟩ := redirectOperand_eq_ok.1 hd
  split at hd
  · obtain ⟨-, -, -, rfl⟩ := hd
    exact of_rereads hreads rfl hasValue_redirected.1
  · rw [hd.2]
    exact refl c

theorem redirectUses {tree : DominatorTree} {excluded : List InstrId} {r : Redirected}
    (hd : c.redirectUses tree old new k excluded = .ok (r, d)) : Enlarges c d 0 0 [] := by
  apply redirectUses_invariant (fun e => Enlarges c e 0 0 []) hd (refl c)
  · intro j changed e e' _ he hstep
    exact he.trans (.redirectOperand hstep)
  · intro phi changed e e' he hstep
    have hreads := rereads_redirectPhi hstep
    rcases redirectPhi_eq_ok hstep with ⟨-, rfl⟩ | ⟨b, x, p, edges, -, -, -, -, -, -, -, rfl⟩
    · exact he
    · apply he.trans (of_rereads hreads _ hasValue_phiRedirected.1)
      simp [phiRedirected, updateBlocks, updateValues]

theorem insertCast {v object : ValueId} {name : TypeName}
    (hd : c.insertAt b index (.cast v object name) = .ok (k, d)) : Enlarges c d 1 0 [] := by
  have hgrows : GrowsBy (fun _ => True) c d := grows_insertAt trivial hd
  obtain ⟨-, -, -, rfl⟩ := insertAt_eq_ok.1 hd
  refine ⟨hgrows.isCast_iff, ?_, ?_, hgrows.value, fun hv => .inl (hasValue_inserted.1 hv)⟩
  · have honly : newCasts c (c.inserted b index (.cast v object name)) =
        {⟨c.instructions.length⟩} := by
      ext j
      rw [Set.mem_singleton_iff]
      constructor
      · rintro ⟨hnew, _, _, _, hop⟩
        rcases operation_inserted.1 hop with hop | ⟨hj, -⟩
        · exact absurd (hasInstruction_of_operation hop) hnew
        · exact hj
      · rintro rfl
        exact ⟨Nat.lt_irrefl _, v, object, name, operation_inserted.2 (.inr ⟨rfl, rfl⟩)⟩
    rw [honly, Set.encard_singleton]
    rfl
  · simp [inserted, updateBlocks, updateValues, push]

theorem split {t : BlockId} (hc : c.Arranged) (hd : c.split b index = .ok (t, d)) :
    Enlarges c d 0 1 [] := by
  have hgrows : GrowsBy (fun op => ∃ t, op = .goto t) c d := grows_split (fun t => ⟨t, rfl⟩) hd
  obtain ⟨x, g, version, -, -, -, -, rfl⟩ := split_cases hc hd
  apply of_growsBy hgrows (fun h => nomatch h)
  · simp [inserted, updateBlocks, updateValues, push, cut, updateInstructions, pushBlock]
  · intro v hv
    have hcut : ((c.cut b index x).updateBlocks g).HasValue v := hasValue_inserted.1 hv
    exact .inl hcut

end Enlarges

end Body

namespace Devirtualizing

open Body

variable {h : Hierarchy} {s s₁ s' : Devirtualization.State h} {i k : InstrId} {index : Nat}
  {call : Call} {target : MethodRef} {receiver v : ValueId} {holder : TypeName} {type : StaticType}
  {options : Options} {moved : Moved}

/-! ### What is counted and recorded -/

/-- What the step has added is counted, and the values it has created are recorded as affected. -/
structure Accounts (s s' : Devirtualization.State h) : Prop where
  affected : ∀ v ∈ s.affected, v ∈ s'.affected
  enlarges : ∃ casts splits fresh, s.body.Enlarges s'.body casts splits fresh ∧
    (∀ v ∈ fresh, v ∈ s'.affected) ∧
    s'.stats.castsInserted = s.stats.castsInserted + casts ∧
    s'.stats.blocksSplit = s.stats.blocksSplit + splits

theorem Accounts.trans (hs : Accounts s s₁) (hs' : Accounts s₁ s') : Accounts s s' where
  affected v hv := hs'.affected v (hs.affected v hv)
  enlarges := by
    obtain ⟨casts, splits, fresh, hbody, hfresh, hcasts, hsplits⟩ := hs.enlarges
    obtain ⟨casts', splits', fresh', hbody', hfresh', hcasts', hsplits'⟩ := hs'.enlarges
    refine ⟨_, _, _, hbody.trans hbody', fun v hv => ?_, by omega, by omega⟩
    rcases List.mem_append.1 hv with hv | hv
    · exact hs'.affected v (hfresh v hv)
    · exact hfresh' v hv

theorem Idle.accounts (hidle : Idle s s') : Accounts s s' where
  affected v hv := hidle.affected ▸ hv
  enlarges := by
    rw [hidle.body, hidle.stats]
    exact ⟨0, 0, [], .refl _, by simp, rfl, rfl⟩

theorem Turns.accounts (ht : Turns i call target s s')
    (hop : s.body.operation i = .ok (.call call)) : Accounts s s' where
  affected := ht.affected
  enlarges := by
    rw [ht.body, ht.stats]
    refine ⟨0, 0, [], .retargeted hop, by simp, ?_, ?_⟩
    all_goals cases call.kind <;> rfl

theorem enlarges_newCastValue (hrun : (newCastValue receiver holder type).run s = .ok (v, s')) :
    s.body.Enlarges s'.body 0 0 [v] := by
  have hgrows : s.body.GrowsBy (fun _ => False) s'.body := growsBy_newCastValue hrun
  obtain ⟨rfl, c, rfl, rfl | ⟨r, hset⟩⟩ := newCastValue_cases hrun
  · apply Enlarges.of_growsBy hgrows id rfl
    intro u hu
    rw [List.mem_singleton]
    exact hasValue_createValue.1 hu
  · obtain ⟨-, rfl⟩ := modifyValue_eq_ok.1 hset
    apply Enlarges.of_growsBy hgrows id rfl
    intro u hu
    rw [List.mem_singleton]
    exact hasValue_createValue.1 (hasValue_updateValues.1 hu)

theorem enlarges_placeCast (hs : s.body.Grounded)
    (hrun : (placeCast i index receiver holder type).run s = .ok ((k, v, moved), s')) :
    s'.affected = s.affected ∧ ∃ splits, s.body.Enlarges s'.body 1 splits [v] ∧
      s'.stats.castsInserted = s.stats.castsInserted + 1 ∧
      s'.stats.blocksSplit = s.stats.blocksSplit + splits := by
  obtain ⟨s₁, b, c, stats, hnew, -, hroom, hinsert, -, haffected, hstats⟩ := placeCast_cases hrun
  have hvalue := enlarges_newCastValue hnew
  have hs₁ := (sameLayout_newCastValue (i := i) hs hnew).2.1
  obtain ⟨-, d, rfl, -⟩ := newCastValue_cases hnew
  rw [haffected, hstats]
  cases hroom with
  | whole => exact ⟨rfl, 0, hvalue.trans (.insertCast hinsert), rfl, rfl⟩
  | split hsplit =>
    exact ⟨rfl, 1, (hvalue.trans (.split hs₁.toArranged hsplit)).trans (.insertCast hinsert), rfl,
      rfl⟩

theorem accounts_castReceiver (hs : s.body.Grounded)
    (hrun : (castReceiver i index receiver holder).run s = .ok (moved, s')) : Accounts s s' := by
  rcases castReceiver_cases hrun with ⟨rfl, -, -⟩ |
    ⟨cast, changed, -, hreads, -, -, haffected, hstats⟩ |
    ⟨x, k, v, s₁, s₂, changed, -, hplace, hreads, -, hstats, haffected, hspread⟩
  · exact (Idle.refl s').accounts
  · constructor
    · intro v hv
      rw [haffected]
      exact OrderedSet.mem_insertAll.2 (.inl hv)
    · rw [hstats]
      exact ⟨0, 0, [], .redirectOperand hreads, by simp, rfl, rfl⟩
  · obtain ⟨haffected₁, splits, hplaced, hcasts, hsplits⟩ := enlarges_placeCast hs hplace
    obtain ⟨-, hstats', haffected', hbody⟩ := spreadCast_cases hspread
    have huses : s₂.body.Enlarges s'.body 0 0 [] := by
      rcases hbody with hsame | ⟨⟨tree, excluded, replaced, huses⟩, -⟩
      · rw [hsame]
        exact .refl _
      · exact .redirectUses huses
    rw [haffected₁] at haffected
    constructor
    · intro u hu
      apply haffected'
      rw [haffected]
      exact OrderedSet.mem_insertAll.2 (.inl hu)
    · rw [hstats', hstats]
      refine ⟨1, splits, [v], (hplaced.trans (.redirectOperand hreads)).trans huses, ?_, hcasts,
        hsplits⟩
      intro u hu
      apply haffected'
      rw [haffected]
      exact OrderedSet.mem_insertAll.2 (.inr hu)

theorem accounts_visit (hs : s.body.Grounded)
    (hrun : (visit options i index).run s = .ok (moved, s')) : Accounts s s' := by
  apply visit_invariant _ _ _ (Idle.refl s).accounts hrun
  · intro s₁ s₂ hs₁ hidle
    exact hs₁.trans hidle.accounts
  · intro call target s₁ s₂ hs₁ hturns hop
    exact hs₁.trans (hturns.accounts hop)
  · intro call target receiver moved s₁ s₂ hs₁ hturns hop _ _ hcast
    exact hs₁.trans (accounts_castReceiver (hturns.grounded hs hop) hcast)

end Devirtualizing

namespace Body

open Devirtualizing

variable {h : Hierarchy} {c d : Body} {options : Options} {resolver : Resolver h}
  {s s' : Devirtualization.State h} {kind : DispatchKind} {i : InstrId} {rest : List InstrId}
  {affected : OrderedSet ValueId}

/-! ### Calls that have been made virtual -/

/-- The calls of the kind in the body `c` that are virtual in `d`. -/
def madeVirtual (kind : DispatchKind) (c d : Body) : Set InstrId :=
  { i | ∃ m m', c.target? i = some (kind, m) ∧ d.target? i = some (.virtual, m') }

/-- Calls that are not virtual name what they have named in `c`, and those that have become so are
counted. -/
structure CountsCalls (c : Body) (s : Devirtualization.State h) : Prop where
  unturned : ∀ {i kind m}, s.body.target? i = some (kind, m) → kind ≠ .virtual →
    c.target? i = some (kind, m)
  counted : ∀ kind, kind ≠ .virtual → (madeVirtual kind c s.body).encard = s.stats.ofKind kind

namespace CountsCalls

variable {call : Call} {target : MethodRef} (hs : CountsCalls c s) (haims : Aims i call target s s')
include hs haims

/-- A call that is given a target joins those of its kind, unless it has been virtual before. -/
theorem madeVirtual_of_aims (hkind : kind ≠ .virtual) :
    madeVirtual kind c s'.body = if kind = call.kind then insert i (madeVirtual kind c s.body)
      else madeVirtual kind c s.body := by
  have hcall : s.body.target? i = some (call.kind, call.method) := target?_eq haims.operation
  ext j
  by_cases hj : j = i
  · subst hj
    have hself : j ∈ madeVirtual kind c s'.body ↔ ∃ m, c.target? j = some (kind, m) := by
      simp [madeVirtual, haims.target?]
    rw [hself]
    by_cases hvirtual : call.kind = .virtual
    · rw [if_neg fun heq => hkind (heq.trans hvirtual)]
      simp [madeVirtual, hcall, hvirtual]
    · rw [hs.unturned hcall hvirtual]
      split
      · rename_i heq
        simp [heq]
      · rename_i hne
        constructor
        · intro ⟨m, hm⟩
          exact absurd (Prod.mk.inj (Option.some.inj hm)).1.symm hne
        · intro ⟨m, m', _, hm'⟩
          rw [hcall] at hm'
          exact absurd (Prod.mk.inj (Option.some.inj hm')).1 hvirtual
  · have hother : j ∈ madeVirtual kind c s'.body ↔ j ∈ madeVirtual kind c s.body := by
      simp [madeVirtual, haims.target?, hj]
    rw [hother]
    split
    · simp [hj]
    · rfl

theorem of_aims : CountsCalls c s' where
  unturned ht hkind := by
    rw [haims.target?] at ht
    split at ht
    · exact absurd (Prod.mk.inj (Option.some.inj ht)).1.symm hkind
    · exact hs.unturned ht hkind
  counted kind hkind := by
    rw [hs.madeVirtual_of_aims haims hkind, haims.counted kind hkind]
    split
    · rename_i heq
      have hnew : i ∉ madeVirtual kind c s.body := by
        intro ⟨m, m', _, hm'⟩
        rw [target?_eq haims.operation] at hm'
        exact hkind (heq.trans (Prod.mk.inj (Option.some.inj hm')).1)
      rw [Set.encard_insert_of_notMem hnew, hs.counted kind hkind]
      rfl
    · exact hs.counted kind hkind

end CountsCalls

theorem CountsCalls.visit {index : Nat} {moved : Moved} (hs : CountsCalls c s)
    (hrun : (visit options i index).run s = .ok (moved, s')) : CountsCalls c s' := by
  rcases idle_or_aims hrun with hidle | ⟨call, target, haims⟩
  · constructor
    · rw [hidle.body]
      exact hs.unturned
    · rw [hidle.body, hidle.stats]
      exact hs.counted
  · exact hs.of_aims haims

theorem countsCalls_start (tree : DominatorTree) :
    CountsCalls c ({ body := c, resolver, tree } : Devirtualization.State h) := by
  refine ⟨fun ht _ => ht, fun kind hkind => ?_⟩
  have hnone : madeVirtual kind c c = ∅ := by
    apply Set.eq_empty_of_forall_notMem
    intro i ⟨m, m', hm, hm'⟩
    exact hkind (Prod.mk.inj (Option.some.inj (hm.symm.trans hm'))).1
  rw [hnone, Set.encard_empty]
  cases kind <;> rfl

/-- The calls that the walk has not come to name what they have named in `c`. If anything is counted
there is a call behind that names something else, and if nothing is counted nothing has changed. -/
structure CountsChanges (c : Body) (rest : List InstrId) (s : Devirtualization.State h) : Prop where
  nodup : rest.Nodup
  ahead : ∀ i ∈ rest, s.body.target? i = c.target? i
  changed : 0 < s.stats.total → ∃ i t, i ∉ rest ∧ c.target? i = some t ∧ s.body.target? i ≠ some t
  unchanged : s.stats.total = 0 → s.body = c ∧ s.affected = ∅

theorem CountsChanges.visit {index : Nat} {moved : Moved} (hs : CountsChanges c (i :: rest) s)
    (hrun : (visit options i index).run s = .ok (moved, s')) : CountsChanges c rest s' := by
  obtain ⟨hi, hrest⟩ := List.nodup_cons.1 hs.nodup
  have hahead : ∀ j ∈ rest, s.body.target? j = c.target? j := fun j hj =>
    hs.ahead j (List.mem_cons_of_mem _ hj)
  rcases visit_idle_or_counted hrun with ⟨-, hidle⟩ | ⟨-, hcounted⟩
  · refine ⟨hrest, hidle.body ▸ hahead, ?_, ?_⟩
    · rw [hidle.stats, hidle.body]
      intro htotal
      obtain ⟨j, t, hj, hdiffers⟩ := hs.changed htotal
      exact ⟨j, t, fun hmem => hj (List.mem_cons_of_mem _ hmem), hdiffers⟩
    · rw [hidle.stats, hidle.body, hidle.affected]
      exact hs.unchanged
  · rcases idle_or_aims hrun with hidle | ⟨call, target, haims⟩
    · rw [hidle.stats] at hcounted
      omega
    · -- the visited call names something else now, and is never visited again
      refine ⟨hrest, ?_, fun _ => ⟨i, call.target, hi, ?_, ?_⟩, fun htotal => by omega⟩
      · intro j hj
        have hne : j ≠ i := fun heq => hi (heq ▸ hj)
        rw [haims.target?, if_neg hne]
        exact hahead j hj
      · rw [← hs.ahead i List.mem_cons_self]
        exact target?_eq haims.operation
      · rw [haims.target?, if_pos rfl]
        intro htarget
        exact haims.differs (Option.some.inj htarget).symm

theorem countsChanges_walkCalls (hc : c.Grounded) (hrun : c.walkCalls options resolver = .ok s) :
    CountsChanges c [] s := by
  obtain ⟨tree, placed, visited, -, hplaced, hcourse, -, hall⟩ := hc.exists_course options resolver
  obtain rfl := hall s hrun
  rw [hrun] at hcourse
  apply hcourse.invariant (motive := CountsChanges c) fun hs hvisit => hs.visit hvisit
  refine ⟨listed_eq hplaced ▸ hc.nodup_listed, fun _ _ => rfl, ?_, fun _ => ⟨rfl, rfl⟩⟩
  intro htotal
  exact absurd htotal (Nat.lt_irrefl 0)

theorem accounts_walkCalls (hc : c.Grounded) (hrun : c.walkCalls options resolver = .ok s) :
    ∃ tree, Accounts ({ body := c, resolver, tree } : Devirtualization.State h) s := by
  have hinv : Overlays c s ∧
      ∃ tree, Accounts ({ body := c, resolver, tree } : Devirtualization.State h) s := by
    refine walkCalls_invariant (motive := fun s => Overlays c s ∧
      ∃ tree, Accounts ({ body := c, resolver, tree } : Devirtualization.State h) s) ?_ ?_ hrun
    · intro i index moved s s' ⟨hs, tree, haccounts⟩ hvisit
      exact ⟨overlaid_visit hs hvisit, tree,
        haccounts.trans (accounts_visit hs.grounded hvisit)⟩
    · intro tree
      exact ⟨.start hc, tree, (Idle.refl _).accounts⟩
  exact hinv.2

/-- Types settle on the values that are affected in the end, and not at all if nothing is
affected. -/
theorem settleTypes_affected (hsettle : settleTypes options s = .ok (affected, d)) :
    (∀ v ∈ s.affected, v ∈ affected) ∧
      (∀ v y, v ∉ affected → (d.value v = .ok y ↔ s.body.value v = .ok y)) ∧
      (s.affected = ∅ → d = s.body ∧ affected = ∅) := by
  rw [settleTypes] at hsettle
  split at hsettle
  · rename_i hwanted
    simp only [narrow, bind_eq_ok, pure_eq_ok, Except.ok.injEq, Prod.mk.injEq,
      Prod.exists] at hsettle
    obtain ⟨narrowed, d', ⟨s', hnarrow, rfl, rfl⟩, rfl, rfl⟩ := hsettle
    refine ⟨fun v hv => OrderedSet.mem_insertAll.2 (.inl hv), fun v y hv => ?_, fun hempty => ?_⟩
    · rw [OrderedSet.mem_insertAll, not_or] at hv
      exact Narrowing.value_of_run hnarrow fun hmem => hv.2 (OrderedSet.mem_toList.2 hmem)
    · rw [hempty] at hwanted
      exact absurd (Bool.and_eq_true_iff.1 hwanted).2 (by decide)
  · obtain ⟨rfl, rfl⟩ := Prod.mk.inj (Except.ok.inj hsettle)
    exact ⟨fun _ hv => hv, fun _ _ _ => Iff.rfl, fun hempty => ⟨rfl, hempty⟩⟩

end Body

/-- The report tells exactly what distinguishes the second body from the first one. -/
structure Devirtualized.Reports (out : Devirtualized) (c d : Body) : Prop where
  superToVirtual : (Body.madeVirtual .super c d).encard = out.stats.superToVirtual
  interfaceToVirtual : (Body.madeVirtual .interface c d).encard = out.stats.interfaceToVirtual
  castsInserted : (Body.newCasts c d).encard = out.stats.castsInserted
  blocksSplit : d.blocks.length = c.blocks.length + out.stats.blocksSplit
  created : ∀ v, d.HasValue v → ¬ c.HasValue v → v ∈ out.affected
  retyped : ∀ v x y, c.value v = .ok x → d.value v = .ok y → y.type ≠ x.type → v ∈ out.affected
  changed : out.changed = true ↔ ∃ i t, c.target? i = some t ∧ d.target? i ≠ some t
  unchanged : out.changed = false → d = c ∧ out.affected = ∅

namespace Body

variable {h : Hierarchy} {c : Body} {options : Options} {resolver : Resolver h}
  {run : PassRun h Devirtualized} {out : Devirtualized}

/-- Whenever the outcome of the pass is valid, its report is exact. -/
theorem reports_of_devirtualize (hc : c.Made) (hrun : c.devirtualize options resolver = .ok run)
    (hout : run.result = .ok out) : out.Reports c run.body := by
  obtain ⟨s, affected, d, l, hwalk, hsettle, -, rfl⟩ := devirtualize_eq_ok.1 hrun
  obtain rfl : { changed := 0 < s.stats.total, affected, stats := s.stats } = out := by
    cases l with
    | nil => exact Except.ok.inj hout
    | cons => cases hout
  have hretyped := retyped_of_settleTypes hsettle
  obtain ⟨hmono, hvalue, hempty⟩ := settleTypes_affected hsettle
  have hcalls : CountsCalls c s := walkCalls_invariant .visit countsCalls_start hwalk
  have hchanges := countsChanges_walkCalls hc.grounded hwalk
  obtain ⟨tree, -, casts, splits, fresh, hbody, hfresh, hcasts, hsplits⟩ :=
    accounts_walkCalls hc.grounded hwalk
  have hmade : ∀ kind, madeVirtual kind c d = madeVirtual kind c s.body := by
    intro kind
    simp only [madeVirtual, hretyped.target?]
  have hnew : newCasts c d = newCasts c s.body := by
    simp only [newCasts, IsCast, hretyped.operation]
  constructor
  · rw [hmade]
    exact hcalls.counted .super (by decide)
  · rw [hmade]
    exact hcalls.counted .interface (by decide)
  · rw [hnew, hbody.casts, hcasts]
    simp
  · have hblocks : d.blocks = s.body.blocks := by
      obtain ⟨type, rfl⟩ := hretyped
      rfl
    rw [hblocks, hbody.blocks, hsplits]
    simp
  · intro v hv hnew
    apply hmono
    exact hfresh v ((hbody.fresh (hretyped.hasValue.1 hv)).resolve_left hnew)
  · intro v x y hx hy htype
    by_contra hv
    obtain ⟨z, hz, hxz⟩ := hbody.value v x hx
    obtain rfl := Except.ok.inj (((hvalue v y hv).1 hy).symm.trans hz)
    exact htype hxz.1
  · simp only [decide_eq_true_eq, hretyped.target?]
    constructor
    · intro htotal
      obtain ⟨i, t, -, hdiffers⟩ := hchanges.changed htotal
      exact ⟨i, t, hdiffers⟩
    · intro ⟨i, t, ht, hdiffers⟩
      apply Nat.pos_of_ne_zero
      intro htotal
      rw [(hchanges.unchanged htotal).1] at hdiffers
      exact hdiffers ht
  · intro hchanged
    have htotal : s.stats.total = 0 := by simpa using hchanged
    obtain ⟨hsame, hnone⟩ := hchanges.unchanged htotal
    rw [← hsame]
    exact hempty hnone

/-- Two calls through the interface, each in a guarded block and on a receiver known to be of the
class, and a super call after them. -/
def callsOfTwoKinds : List DraftStep :=
  [.argument (.ofClass "I" .maybe), .argument (.ofClass "I" .maybe),
    .argument (.ofClass "B" .notNull), .dynamic ⟨0⟩ { name := "A", exact := true },
    .dynamic ⟨1⟩ { name := "A", exact := true }, .newBlock, .newBlock, .newBlock,
    .call ⟨0⟩ .interface (.plain "I" "f") [⟨0⟩], .handler ⟨0⟩ none ⟨3⟩, .goto ⟨0⟩ ⟨1⟩,
    .call ⟨1⟩ .interface (.plain "I" "f") [⟨1⟩], .handler ⟨1⟩ none ⟨3⟩, .goto ⟨1⟩ ⟨2⟩,
    .call ⟨2⟩ .super (.plain "A" "f") [⟨2⟩], .ret ⟨2⟩ none, .ret ⟨3⟩ none]

set_option synthInstance.maxSize 256 in
/-- Both receivers are cast, and both guarded blocks are split for that. -/
theorem reports_callsOfTwoKinds :
    ∃ made c run out, ofSteps (.plain "B" "g") callsOfTwoKinds = .ok (made, c) ∧ c.Made ∧
      c.devirtualize {} (∅ : Resolver Devirtualizing.implementedOnce) = .ok run ∧
      run.result = .ok out ∧ (madeVirtual .super c run.body).encard = 1 ∧
      (madeVirtual .interface c run.body).encard = 2 ∧ (newCasts c run.body).encard = 2 ∧
      run.body.blocks.length = c.blocks.length + 2 ∧
      ∃ i t, c.target? i = some t ∧ run.body.target? i ≠ some t := by
  obtain ⟨made, c, hwritten, run, hrun, out, hout, hchanged, hsuper, hinterface, hcasts, hsplits⟩ :
      ∃ made c, ofSteps (.plain "B" "g") callsOfTwoKinds = .ok (made, c) ∧
        ∃ run, c.devirtualize {} (∅ : Resolver Devirtualizing.implementedOnce) = .ok run ∧
        ∃ out, run.result = .ok out ∧ out.changed = true ∧ out.stats.superToVirtual = 1 ∧
          out.stats.interfaceToVirtual = 2 ∧ out.stats.castsInserted = 2 ∧
          out.stats.blocksSplit = 2 := by
    decide +kernel
  have hc : c.Made := .written hwritten
  have hreports := reports_of_devirtualize hc hrun hout
  refine ⟨made, c, run, out, hwritten, hc, hrun, hout, ?_, ?_, ?_, ?_, hreports.changed.1 hchanged⟩
  · rw [hreports.superToVirtual, hsuper]
    rfl
  · rw [hreports.interfaceToVirtual, hinterface]
    rfl
  · rw [hreports.castsInserted, hcasts]
    rfl
  · rw [hreports.blocksSplit, hsplits]

end Body

end Devirt
