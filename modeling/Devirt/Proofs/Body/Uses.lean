import Devirt.Body.Uses
import Devirt.Proofs.Body.Intact
import Mathlib.Data.List.Nodup

/-!
Replacing uses of a value. Each replacement changes the operands it reports and nothing else, and
the records follow.
-/

namespace Devirt

variable {old new : ValueId}

@[simp] theorem length_redirectInputs {operands : List ValueId} {edges : List Bool} :
    (redirectInputs old new operands edges).length = operands.length := by
  fun_induction redirectInputs old new operands edges with
  | case1 v operands isOpen edges ih => simp [ih]
  | case2 => rfl

/-- The operand on an edge changes exactly when it is the old value and the edge is open. -/
theorem getElem?_redirectInputs {operands : List ValueId} {edges : List Bool} {n : Nat} :
    (redirectInputs old new operands edges)[n]? =
      operands[n]?.map fun v => if v = old ∧ edges[n]? = some true then new else v := by
  fun_induction redirectInputs old new operands edges generalizing n with
  | case1 v operands isOpen edges ih =>
    cases n with
    | zero => by_cases hv : v = old <;> by_cases ho : isOpen = true <;> simp [hv, ho]
    | succ n => simpa using ih
  | case2 operands edges hnone =>
    cases operands with
    | nil => simp
    | cons v operands =>
      cases edges with
      | nil => simp
      | cons e edges => exact (hnone v operands e edges rfl rfl).elim

theorem mem_redirectInputs {operands : List ValueId} {edges : List Bool} {v : ValueId}
    (hv : v ∈ redirectInputs old new operands edges) : v = new ∨ v ∈ operands := by
  obtain ⟨n, hn⟩ := List.mem_iff_getElem?.1 hv
  rw [getElem?_redirectInputs, Option.map_eq_some_iff] at hn
  obtain ⟨w, hw, rfl⟩ := hn
  split
  · exact .inl rfl
  · exact .inr (List.mem_of_getElem? hw)

theorem mem_redirectInputs_of_ne {operands : List ValueId} {edges : List Bool} {v : ValueId}
    (hv : v ∈ operands) (hne : v ≠ old) : v ∈ redirectInputs old new operands edges := by
  obtain ⟨n, hn⟩ := List.mem_iff_getElem?.1 hv
  refine List.mem_of_getElem? (i := n) ?_
  rw [getElem?_redirectInputs, hn]
  simp [hne]

/-- If some edge is open for the old value, the new one is read there. -/
theorem new_mem_redirectInputs {operands : List ValueId} {edges : List Bool}
    (h : ¬ (operands.zip edges).all fun (v, isOpen) => v ≠ old || !isOpen) :
    new ∈ redirectInputs old new operands edges := by
  simp only [List.all_eq_true, Prod.forall, Bool.or_eq_true, decide_eq_true_eq, Bool.not_eq_true',
    not_forall, not_or, Decidable.not_not, Bool.not_eq_false] at h
  obtain ⟨v, e, hmem, rfl, rfl⟩ := h
  obtain ⟨n, hn⟩ := List.mem_iff_getElem?.1 hmem
  rw [List.getElem?_zip_eq_some] at hn
  refine List.mem_of_getElem? (i := n) ?_
  simp [getElem?_redirectInputs, hn.1, hn.2]

/-- Where outputs differ, changing the first phi with an output changes all of them. -/
theorem Block.modifyPhi_phis {x : Block} {phi : ValueId} {f : Phi → Phi}
    (hnodup : (x.phis.map (·.out)).Nodup) :
    (x.modifyPhi phi f).phis = x.phis.map fun p => if p.out = phi then f p else p := by
  simp only [modifyPhi]
  generalize x.phis = l at hnodup ⊢
  induction l with
  | nil => rfl
  | cons p l ih =>
    simp only [List.map_cons, List.nodup_cons] at hnodup
    by_cases hp : p.out = phi
    · have hrest : l.map (fun p => if p.out = phi then f p else p) = l := by
        refine (List.map_congr_left fun q hq => ?_).trans (List.map_id l)
        have : q.out ≠ phi := fun h => hnodup.1 (hp ▸ h ▸ List.mem_map_of_mem hq)
        simp [this]
      simp [List.findIdx_cons, hp, hrest]
    · simp [List.findIdx_cons, hp, ih hnodup.2]

theorem Block.map_out_modifyPhi {x : Block} {phi : ValueId} {operands : List ValueId} :
    (x.modifyPhi phi fun p => { p with operands }).phis.map (·.out) = x.phis.map (·.out) := by
  apply List.ext_getElem?
  intro n
  simp only [modifyPhi, List.getElem?_map, List.getElem?_modify]
  cases x.phis[n]? with
  | none => rfl
  | some p => split <;> rfl

/-- Only the phi that is found is changed. -/
theorem Block.getElem?_modifyPhi {x : Block} {phi : ValueId} {f : Phi → Phi} {p q : Phi} {n : Nat}
    (hp : x.phi? phi = some p) (hq : (x.modifyPhi phi f).phis[n]? = some q) :
    ∃ q₀, x.phis[n]? = some q₀ ∧ (q = q₀ ∨ q₀ = p ∧ q = f p) := by
  rw [modifyPhi, List.getElem?_modify, Option.map_eq_map, Option.map_eq_some_iff] at hq
  obtain ⟨q₀, hq₀, rfl⟩ := hq
  refine ⟨q₀, hq₀, ?_⟩
  split
  · rename_i hn
    right
    rw [phi?, List.find?_eq_getElem?_findIdx, hn, hq₀] at hp
    exact ⟨Option.some.inj hp, congrArg f (Option.some.inj hp)⟩
  · exact .inl rfl

namespace Body

variable {c d : Body} {b s : BlockId} {i j : InstrId} {v phi : ValueId} {t : DominatorTree}

/-- The body after a phi has got other operands, with `new` in the place of `old`. -/
def phiRedirected (c : Body) (b : BlockId) (old new phi : ValueId) (operands : List ValueId) :
    Body :=
  (c.updateBlocks fun s x =>
    if s = b then x.modifyPhi phi fun p => { p with operands } else x).updateValues fun v x =>
      { x with
        phiUsers :=
          let rest := if v = old ∧ old ∉ operands then x.phiUsers.erase phi else x.phiUsers
          if v = new then rest.insert phi else rest }

/-- What redirecting a phi does. -/
theorem redirectPhi_eq_ok {changed : Bool} (h : c.redirectPhi t old new phi = .ok (changed, d)) :
    (changed = false ∧ d = c) ∨
      ∃ b x p edges, changed = true ∧ c.block b = .ok x ∧ x.phi? phi = some p ∧
        (∃ y, c.value phi = .ok y ∧ y.definition = .phi b) ∧
        x.predecessors.mapM (fun source => c.availableOnEdge t new source b) = .ok edges ∧
        new ∈ redirectInputs old new p.operands edges ∧ c.HasValue new ∧
        d = c.phiRedirected b old new phi (redirectInputs old new p.operands edges) := by
  simp only [redirectPhi, bind_eq_ok] at h
  obtain ⟨y, hy, h⟩ := h
  split at h
  · rename_i b hdef
    simp only [bind_eq_ok] at h
    obtain ⟨x, hx, h⟩ := h
    split at h
    · rename_i p hp
      simp only [bind_eq_ok] at h
      obtain ⟨edges, hedges, h⟩ := h
      split at h
      · left
        simpa [eq_comm] using h
      · rename_i hopen
        right
        simp only [bind_eq_ok, modifyBlock_eq_ok] at h
        obtain ⟨e, ⟨-, rfl⟩, h⟩ := h
        refine ⟨b, x, p, edges, ?_⟩
        split at h
        · rename_i hold
          simp only [ok_bind, pure_eq_ok, bind_eq_ok, addPhiUser, modifyValue_eq_ok,
            Except.ok.injEq, Prod.mk.injEq] at h
          obtain ⟨e, ⟨hnew, rfl⟩, rfl, rfl⟩ := h
          refine ⟨rfl, hx, hp, ⟨y, hy, hdef⟩, hedges, new_mem_redirectInputs hopen,
            by simpa using hnew, ?_⟩
          rw [phiRedirected]
          congr
          funext w z
          have : ¬ (w = old ∧ old ∉ redirectInputs old new p.operands edges) := fun h => h.2 hold
          simp only [this, if_false]
          split <;> rfl
        · rename_i hold
          simp only [bind_eq_ok, addPhiUser, removePhiUser, modifyValue_eq_ok, pure_eq_ok,
            Except.ok.injEq, Prod.mk.injEq] at h
          obtain ⟨e, ⟨-, rfl⟩, e', ⟨hnew, rfl⟩, rfl, rfl⟩ := h
          refine ⟨rfl, hx, hp, ⟨y, hy, hdef⟩, hedges, new_mem_redirectInputs hopen,
            by simpa using hnew, ?_⟩
          rw [phiRedirected, updateValues_updateValues]
          congr
          funext w z
          simp only [hold, not_false_eq_true, and_true]
          split_ifs <;> rfl
    · left
      simpa [eq_comm] using h
  · left
    simpa [eq_comm] using h

section PhiRedirected

variable {operands : List ValueId}

@[simp] theorem block_phiRedirected {y : Block} :
    (c.phiRedirected b old new phi operands).block s = .ok y ↔
      ∃ x, c.block s = .ok x ∧
        (if s = b then x.modifyPhi phi fun p => { p with operands } else x) = y := by
  simp [phiRedirected]

@[simp] theorem value_phiRedirected {y : Value} :
    (c.phiRedirected b old new phi operands).value v = .ok y ↔
      ∃ x, c.value v = .ok x ∧
        { x with
          phiUsers :=
            let rest := if v = old ∧ old ∉ operands then x.phiUsers.erase phi else x.phiUsers
            if v = new then rest.insert phi else rest } = y := by
  simp [phiRedirected]

@[simp] theorem hasValue_phiRedirected :
    (c.phiRedirected b old new phi operands).HasValue v ↔ c.HasValue v := by
  simp [phiRedirected]

@[simp] theorem hasBlock_phiRedirected :
    (c.phiRedirected b old new phi operands).HasBlock s ↔ c.HasBlock s := by
  simp [phiRedirected]

@[simp] theorem operation_phiRedirected :
    (c.phiRedirected b old new phi operands).operation i = c.operation i := rfl

@[simp] theorem blockOf_phiRedirected :
    (c.phiRedirected b old new phi operands).blockOf i = c.blockOf i := rfl

/-- The phis of the body afterwards: one of them has other operands. -/
theorem hasPhi_phiRedirected
    (hnodup : ∀ {x}, c.block b = .ok x → (x.phis.map (·.out)).Nodup) {q : Phi} :
    (c.phiRedirected b old new phi operands).HasPhi s q ↔
      (s = b ∧ q.out = phi ∧ q.operands = operands ∧ ∃ p, c.HasPhi b p ∧ p.out = phi) ∨
        (¬ (s = b ∧ q.out = phi) ∧ c.HasPhi s q) := by
  constructor
  · rintro ⟨_, hy, hq⟩
    obtain ⟨x, hx, rfl⟩ := block_phiRedirected.1 hy
    split at hq
    · rename_i hs
      subst hs
      rw [Block.modifyPhi_phis (hnodup hx), List.mem_map] at hq
      obtain ⟨p, hp, rfl⟩ := hq
      split
      · rename_i hout
        exact .inl ⟨rfl, hout, rfl, p, ⟨x, hx, hp⟩, hout⟩
      · rename_i hout
        exact .inr ⟨fun h => hout h.2, x, hx, hp⟩
    · rename_i hs
      exact .inr ⟨fun h => hs h.1, x, hx, hq⟩
  · rintro (⟨rfl, hout, hop, p, ⟨x, hx, hp⟩, hpout⟩ | ⟨hne, x, hx, hq⟩)
    · refine ⟨_, block_phiRedirected.2 ⟨x, hx, rfl⟩, ?_⟩
      rw [if_pos rfl, Block.modifyPhi_phis (hnodup hx), List.mem_map]
      refine ⟨p, hp, ?_⟩
      rw [if_pos hpout]
      cases q
      simp_all
    · refine ⟨_, block_phiRedirected.2 ⟨x, hx, rfl⟩, ?_⟩
      split
      · rename_i hs
        rw [Block.modifyPhi_phis (hnodup (hs ▸ hx)), List.mem_map]
        exact ⟨q, hq, if_neg fun h => hne ⟨hs, h⟩⟩
      · exact hq

/-- Where one phi outputs a value, it is recorded with exactly what it now reads. -/
theorem mem_phiUsers_phiRedirected
    (hnodup : ∀ {x}, c.block b = .ok x → (x.phis.map (·.out)).Nodup) {p : Phi}
    (hp : c.HasPhi b p) (hout : p.out = phi)
    (hunique : ∀ {s q}, c.HasPhi s q → q.out = phi → s = b ∧ q = p) (hmem : new ∈ operands)
    (hsub : ∀ v ∈ operands, v = new ∨ v ∈ p.operands)
    (hkeep : ∀ v ∈ p.operands, v ≠ old → v ∈ operands) {x : Value}
    (husers : ∀ q, q ∈ x.phiUsers ↔ ∃ s r, c.HasPhi s r ∧ r.out = q ∧ v ∈ r.operands)
    (q : ValueId) :
    (q ∈ (let rest := if v = old ∧ old ∉ operands then x.phiUsers.erase phi else x.phiUsers
      if v = new then rest.insert phi else rest)) ↔
      ∃ s r, (c.phiRedirected b old new phi operands).HasPhi s r ∧ r.out = q ∧ v ∈ r.operands := by
  by_cases hq : q = phi
  · subst hq
    have hright : (∃ s r, (c.phiRedirected b old new q operands).HasPhi s r ∧ r.out = q ∧
        v ∈ r.operands) ↔ v ∈ operands := by
      constructor
      · rintro ⟨s, r, hr, hrout, hv⟩
        rcases (hasPhi_phiRedirected hnodup).1 hr with ⟨-, -, hoperands, -⟩ | ⟨hne, hr⟩
        · rwa [hoperands] at hv
        · exact absurd ⟨(hunique hr hrout).1, hrout⟩ hne
      · intro hv
        exact ⟨b, ⟨q, operands⟩, (hasPhi_phiRedirected hnodup).2
          (.inl ⟨rfl, rfl, rfl, p, hp, hout⟩), rfl, hv⟩
    have hleft : q ∈ x.phiUsers ↔ v ∈ p.operands := by
      rw [husers]
      constructor
      · rintro ⟨s, r, hr, hrout, hv⟩
        rwa [(hunique hr hrout).2] at hv
      · exact fun hv => ⟨b, p, hp, hout, hv⟩
    rw [hright]
    by_cases hvn : v = new
    · simp [hvn, hmem]
    · by_cases hvo : v = old ∧ old ∉ operands
      · simp only [hvn, if_false, if_pos hvo]
        simp [hvo.1, hvo.2]
      · simp only [hvn, if_false, if_neg hvo]
        rw [hleft]
        constructor
        · intro hv
          by_cases h : v = old
          · by_contra hnot
            exact hvo ⟨h, h ▸ hnot⟩
          · exact hkeep v hv h
        · exact fun hv => (hsub v hv).resolve_left hvn
  · have hsame : (q ∈ (let rest := if v = old ∧ old ∉ operands then x.phiUsers.erase phi
          else x.phiUsers
        if v = new then rest.insert phi else rest)) ↔ q ∈ x.phiUsers := by
      simp only
      split_ifs <;> simp [hq]
    rw [hsame, husers]
    constructor
    · rintro ⟨s, r, hr, rfl, hv⟩
      exact ⟨s, r, (hasPhi_phiRedirected hnodup).2 (.inr ⟨fun h => hq h.2, hr⟩), rfl, hv⟩
    · rintro ⟨s, r, hr, rfl, hv⟩
      rcases (hasPhi_phiRedirected hnodup).1 hr with ⟨-, hrout, -⟩ | ⟨-, hr⟩
      · exact absurd hrout hq
      · exact ⟨s, r, hr, rfl, hv⟩

/-- Only one phi outputs a value. -/
theorem TracksPhis.eq_of_out (hc : c.TracksPhis) {p q : Phi} (hp : c.HasPhi b p)
    (hq : c.HasPhi s q) (hout : p.out = q.out) : b = s ∧ p = q := by
  obtain ⟨y, hy⟩ := exists_value_iff.2 (hc.phi_hasValue hp p.out (by simp))
  have h1 := (hc.definition_phi hy b).2 ⟨p, hp, rfl⟩
  have h2 := (hc.definition_phi hy s).2 ⟨q, hq, hout.symm⟩
  obtain rfl : b = s := by simpa using h1.symm.trans h2
  obtain ⟨x, hx, hpx⟩ := hp
  obtain ⟨x', hx', hqx⟩ := hq
  obtain rfl : x = x' := Except.ok.inj (hx.symm.trans hx')
  exact ⟨rfl, List.inj_on_of_nodup_map (hc.phi_nodup hx) hpx hqx hout⟩

/-- A phi may read another existing value in the place of one of its operands. -/
theorem Intact.phiRedirected (hc : c.Intact) {p : Phi} (hp : c.HasPhi b p) (hout : p.out = phi)
    (hnew : c.HasValue new) (hmem : new ∈ operands) (hsub : ∀ v ∈ operands, v = new ∨ v ∈ p.operands)
    (hkeep : ∀ v ∈ p.operands, v ≠ old → v ∈ operands) :
    (c.phiRedirected b old new phi operands).Intact := by
  have hother : ∀ {s q}, q.out ≠ phi →
      ((c.phiRedirected b old new phi operands).HasPhi s q ↔ c.HasPhi s q) := by
    intro s q hq
    rw [hasPhi_phiRedirected hc.phi_nodup]
    simp [hq]
  refine ⟨hc.toArranged.congr rfl ?_ fun _ => rfl,
    hc.toTracksInstructions.congr (fun _ => rfl) (fun v => hasValue_phiRedirected.2) ?_,
    ⟨?_, ?_, ?_, ?_⟩⟩
  · intro s
    rw [Body.phiRedirected, block_updateValues]
    exact map_block_updateBlocks (fun s x => by split <;> rfl) s
  · intro v y hy
    obtain ⟨x, hx, rfl⟩ := value_phiRedirected.1 hy
    exact ⟨x, hx, fun _ => Iff.rfl, fun _ => Iff.rfl⟩
  · intro v y hy q
    obtain ⟨x, hx, rfl⟩ := value_phiRedirected.1 hy
    exact mem_phiUsers_phiRedirected hc.phi_nodup hp hout
      (fun hq hqout => hc.toTracksPhis.eq_of_out hq hp (hqout.trans hout.symm)) hmem hsub hkeep
      (hc.phiUsers hx) q
  · intro s q hq v hv
    rw [hasValue_phiRedirected]
    rcases (hasPhi_phiRedirected hc.phi_nodup).1 hq with ⟨-, hqout, hop, -⟩ | ⟨-, hq⟩
    · rw [hqout, hop] at hv
      rcases List.mem_cons.1 hv with rfl | hv
      · exact hc.phi_hasValue hp v (by simp [hout])
      · rcases hsub v hv with rfl | hv
        · exact hnew
        · exact hc.phi_hasValue hp v (List.mem_cons_of_mem _ hv)
    · exact hc.phi_hasValue hq v hv
  · intro v y hy s
    obtain ⟨x, hx, rfl⟩ := value_phiRedirected.1 hy
    refine (hc.definition_phi hx s).trans ?_
    constructor
    · rintro ⟨q, hq, rfl⟩
      by_cases hqout : q.out = phi
      · obtain ⟨rfl, rfl⟩ := hc.toTracksPhis.eq_of_out hq hp (hqout.trans hout.symm)
        exact ⟨⟨q.out, operands⟩, (hasPhi_phiRedirected hc.phi_nodup).2
          (.inl ⟨rfl, hqout, rfl, q, hq, hqout⟩), rfl⟩
      · exact ⟨q, (hother hqout).2 hq, rfl⟩
    · rintro ⟨q, hq, rfl⟩
      rcases (hasPhi_phiRedirected hc.phi_nodup).1 hq with ⟨rfl, hqout, -, r, hr, hrout⟩ | ⟨-, hq⟩
      · exact ⟨r, hr, hrout.trans hqout.symm⟩
      · exact ⟨q, hq, rfl⟩
  · intro s y hy
    obtain ⟨x, hx, rfl⟩ := block_phiRedirected.1 hy
    split
    · rw [Block.map_out_modifyPhi]
      exact hc.phi_nodup hx
    · exact hc.phi_nodup hx

end PhiRedirected

theorem redirectUser_cases {definer : InstrId} {changed : Bool}
    (hd : c.redirectUser t old new definer i = .ok (changed, d)) :
    d = c ∨ c.redirectOperand i old new = .ok (changed, d) := by
  simp only [redirectUser, bind_eq_ok] at hd
  obtain ⟨after, -, hd⟩ := hd
  split at hd
  · exact .inr hd
  · simp only [pure_eq_ok, Except.ok.injEq, Prod.mk.injEq] at hd
    exact .inl hd.2.symm

/-- What each single redirection keeps, all of them together keep. -/
theorem redirectUses_invariant {definer : InstrId} {excluded : List InstrId} {r : Redirected}
    (motive : Body → Prop) (hd : c.redirectUses t old new definer excluded = .ok (r, d))
    (hc : motive c)
    (huser : ∀ i changed e e', i ≠ definer → motive e →
      e.redirectOperand i old new = .ok (changed, e') → motive e')
    (hphi : ∀ phi changed e e', motive e → e.redirectPhi t old new phi = .ok (changed, e') →
      motive e') : motive d := by
  simp only [redirectUses, bind_eq_ok, pure_eq_ok, Except.ok.injEq, Prod.mk.injEq, Prod.exists] at hd
  obtain ⟨x, -, done, e, husers, y, -, done', d', hphis, -, rfl⟩ := hd
  have he : motive e := by
    refine foldlM_invariant (fun p : List InstrId × Body => motive p.2) husers hc ?_
    rintro i hi ⟨l, c'⟩ ⟨l', d'⟩ hc' hstep
    simp only [List.mem_filter, Bool.and_eq_true, decide_eq_true_eq] at hi
    simp only [bind_eq_ok, Except.ok.injEq, Prod.mk.injEq, Prod.exists] at hstep
    obtain ⟨changed, d'', hstep, -, rfl⟩ := hstep
    rcases redirectUser_cases hstep with rfl | hstep
    · exact hc'
    · exact huser i changed c' d'' hi.2.1 hc' hstep
  refine foldlM_invariant (fun p : List ValueId × Body => motive p.2) hphis he ?_
  rintro phi - ⟨l, c'⟩ ⟨l', d'⟩ hc' hstep
  simp only [bind_eq_ok, Except.ok.injEq, Prod.mk.injEq, Prod.exists] at hstep
  obtain ⟨changed, d'', hstep, -, rfl⟩ := hstep
  exact hphi phi changed c' d'' hc' hstep

/-- If each single redirection succeeds under an invariant, all of them together do. -/
theorem redirectUses_total {definer : InstrId} {excluded : List InstrId} (motive : Body → Prop)
    (hc : motive c) (hvalue : ∀ e, motive e → e.HasValue old)
    (huser : ∀ i y, c.value old = .ok y → i ∈ y.users → ∀ e, motive e →
      ∃ changed e', e.redirectUser t old new definer i = .ok (changed, e') ∧ motive e')
    (hphi : ∀ phi e y, motive e → e.value old = .ok y → phi ∈ y.phiUsers → ∀ e, motive e →
      ∃ changed e', e.redirectPhi t old new phi = .ok (changed, e') ∧ motive e') :
    ∃ q, c.redirectUses t old new definer excluded = .ok q ∧ motive q.2 := by
  obtain ⟨y, hy⟩ := exists_value_iff.2 (hvalue c hc)
  unfold redirectUses
  rw [hy, ok_bind]
  refine bind_total (foldlM_total (fun p : List InstrId × Body => motive p.2) hc ?_) ?_
  · rintro i hi ⟨done, e⟩ he
    have hmem : i ∈ y.users := OrderedSet.mem_toList.1 (List.mem_filter.1 hi).1
    obtain ⟨changed, e', hrun, he'⟩ := huser i y hy hmem e he
    exact ⟨(if changed then done ++ [i] else done, e'), by simp only [hrun, ok_bind, pure_eq_ok], he'⟩
  · rintro ⟨done, e⟩ he
    obtain ⟨z, hz⟩ := exists_value_iff.2 (hvalue e he)
    dsimp only
    rw [hz, ok_bind]
    refine bind_total (foldlM_total (fun p : List ValueId × Body => motive p.2) he ?_) ?_
    · rintro phi hmem ⟨done', f⟩ hf
      obtain ⟨changed, f', hrun, hf'⟩ := hphi phi e z he hz (OrderedSet.mem_toList.1 hmem) f hf
      exact ⟨(if changed then done' ++ [phi] else done', f'),
        by simp only [hrun, ok_bind, pure_eq_ok], hf'⟩
    · rintro ⟨done', f⟩ hf
      exact ⟨_, rfl, hf⟩

end Body

end Devirt
