import Devirt.Proofs.Devirtualization.Safety
import Devirt.Proofs.Devirtualization.Soundness
import Devirt.Proofs.Execution.Steps

/-!
A frame of the original body beside a frame of the rewritten one. Wherever a cast made by the
rewriting is there, it holds what the value it stands for holds. That lasts although loops define a
value anew: then the casts of the value are not there any more.
-/

namespace Devirt

namespace Body

open Devirt.Frame

variable {h : Hierarchy} {c₀ c : Body} {b p q s t : BlockId} {i k : InstrId} {u v w r : ValueId}
  {x y : Block} {n m : Nat} {name : TypeName}

/-! ### Values along the control flow -/

/-- What is there after an instruction that does not output it is there before. -/
theorem Ready.of_succ (hx : c.block b = .ok x) (hready : c.Ready v b (n + 1))
    (hout : ∀ i, x.instructions[n]? = some i → ¬ c.Outputs i v) : c.Ready v b n := by
  rcases hready with ⟨i, x', k, hi, hx', hk, hlt⟩ | hready
  · obtain rfl := Except.ok.inj (hx.symm.trans hx')
    have hkn : k ≠ n := by
      rintro rfl
      exact hout i hk hi
    exact .inl ⟨i, x, k, hi, hx, hk, by omega⟩
  · exact .inr hready

theorem Arranged.ready_end (hI : c.Arranged) (hi : c.Outputs i v) (hof : c.blockOf i = .ok q)
    (hy : c.block q = .ok y) : c.Ready v q y.instructions.length := by
  obtain ⟨y', hy', hmem⟩ := hI.recorded hof
  obtain rfl := Except.ok.inj (hy.symm.trans hy')
  obtain ⟨k, hk⟩ := List.mem_iff_getElem?.1 hmem
  exact .inl ⟨i, y, k, hi, hy, hk, (List.getElem?_eq_some_iff.1 hk).1⟩

theorem OnEdge.ready (hI : c.Arranged) (hedge : c.OnEdge v q b) (hy : c.block q = .ok y) :
    c.Ready v q y.instructions.length := by
  rcases hedge with ⟨i, op, hop, hout, hof, -⟩ | hready
  · exact hI.ready_end ⟨op, hop, hout⟩ hof hy
  · exact .inr hready

/-- The result of an instruction that is there at the start of a block is there at the end of every
block that jumps to it. -/
theorem Ready.of_jump (hI : c.Intact) (hc : c.Consistent) (hi : c.Outputs i v)
    (hready : c.Ready v b 0) (hjump : c.Jumps q b) (hy : c.block q = .ok y) :
    c.Ready v q y.instructions.length := by
  rcases hready with ⟨_, _, _, _, _, _, hlt⟩ | ⟨hnot, a, havail, hdom⟩
  · omega
  by_cases hhere : ∃ j, c.Outputs j v ∧ c.blockOf j = .ok q
  · obtain ⟨j, hj, hof⟩ := hhere
    exact hI.ready_end hj hof hy
  · refine .inr ⟨fun j hj hof => hhere ⟨j, hj, hof⟩, a, havail, ?_⟩
    by_cases hab : a = b
    · -- the value is there from `b` on, so control comes from the block that defines it
      subst hab
      rcases havail with ⟨phi, hphi, rfl⟩ | ⟨j, op, r, hop, hout, hof, x, -, hfrom⟩
      · exact absurd hi (hI.not_outputs_phi hphi)
      · split at hfrom
        · obtain ⟨-, z, hz, hpreds⟩ := hfrom
          obtain ⟨z', hz', hmem⟩ := hc.symmetric_out (.inl hjump)
          obtain rfl := Except.ok.inj (hz.symm.trans hz')
          obtain rfl : q = r := by simpa [hpreds] using hmem
          exact absurd ⟨j, ⟨op, hop, hout⟩, hof⟩ hhere
        · exact absurd (hfrom ▸ hof) (hnot j ⟨op, hop, hout⟩)
    · intro havoids
      exact hdom (havoids.tail (.inl hjump) (Ne.symm hab))

/-- Right before the place, the value is defined. -/
def After (c : Body) (v : ValueId) (b : BlockId) (n : Nat) : Prop :=
  (∃ i x k, c.Outputs i v ∧ c.block b = .ok x ∧ x.instructions[k]? = some i ∧ n = k + 1) ∨
    ∃ phi, c.HasPhi b phi ∧ phi.out = v ∧ n = 0

theorem After.unique (hI : c.Intact) (hb : c.After v b n) (hq : c.After v q m) :
    q = b ∧ m = n := by
  rcases hb with ⟨i, x, k, hi, hx, hk, rfl⟩ | ⟨phi, hphi, rfl, rfl⟩
  · rcases hq with ⟨j, y, k', hj, hy, hk', rfl⟩ | ⟨phi, hphi, rfl, rfl⟩
    · obtain rfl := hI.eq_of_outputs hi hj
      obtain rfl := hI.block_unique hy hx (List.mem_of_getElem? hk') (List.mem_of_getElem? hk)
      obtain rfl := Except.ok.inj (hx.symm.trans hy)
      obtain ⟨hlt, -⟩ := List.getElem?_eq_some_iff.1 hk
      obtain rfl := (List.getElem?_inj hlt (hI.nodup hx)).1 (hk.trans hk'.symm)
      exact ⟨rfl, rfl⟩
    · exact absurd hi (hI.not_outputs_phi hphi)
  · rcases hq with ⟨j, _, _, hj, -⟩ | ⟨phi', hphi', hout, rfl⟩
    · exact absurd hj (hI.not_outputs_phi hphi)
    · obtain ⟨z, hz, hdef⟩ := hI.value_of_hasPhi hphi
      have hdef' := (hI.definition_phi hz q).2 ⟨phi', hphi', hout⟩
      exact ⟨Definition.phi.inj (hdef'.symm.trans hdef), rfl⟩

/-! ### Frames that agree -/

/-- At the place of the rewritten body, the frame `f'` holds all that the frame `f` of the original
body holds, and in the casts that are there what the values hold for which they stand. -/
structure Agree (h : Hierarchy) (c₀ c : Body) (f f' : Frame) (b : BlockId) (n : Nat) : Prop where
  old : ∀ {v a}, c₀.HasValue v → f.read v = .ok a → f'.read v = .ok a
  cast : ∀ {u w}, Stands c₀ c u w → ¬ c₀.HasValue u → c.Ready u b n →
    ∃ a, f.read w = .ok a ∧ f'.read u = .ok a ∧ ∀ C, a = .object C → Passes h c₀ c C u w
  /-- Once a value has been defined, it will not be defined again while a cast of it is there. -/
  fresh : ∀ {u w a}, Stands c₀ c u w → ¬ c₀.HasValue u → f.read w = .ok a →
    ∀ {b n}, c.After w b n → ¬ c.Ready u b n

namespace Agree

variable {f f' g g' : Frame} {a : RuntimeValue} {l : List (ValueId × RuntimeValue)}

theorem read (hA : Agree h c₀ c f f' b n) (hr : Rewritten c₀ c) (hu : Stands c₀ c u w)
    (hready : ¬ c₀.HasValue u → c.Ready u b n) (hw : f.read w = .ok a) :
    f'.read u = .ok a ∧ ∀ C, a = .object C → Passes h c₀ c C u w := by
  by_cases hold : c₀.HasValue u
  · obtain rfl := hu.eq_of_old hr hold
    exact ⟨hA.old hold hw, fun _ _ => .old hold⟩
  · obtain ⟨a', hw', hu', hpasses⟩ := hA.cast hu hold (hready hold)
    obtain rfl := Except.ok.inj (hw.symm.trans hw')
    exact ⟨hu', hpasses⟩

/-- Both frames take on the values of old definitions, by which no cast comes to be there. -/
theorem write (hA : Agree h c₀ c f f' b n) (hI : c.Intact) (hg : Writes l f g)
    (hg' : Writes l f' g') (hl : ∀ v a, (v, a) ∈ l → c₀.HasValue v ∧ c.After v q m)
    (hready : ∀ u w, Stands c₀ c u w → ¬ c₀.HasValue u → c.Ready u q m → c.Ready u b n) :
    Agree h c₀ c g g' q m where
  old {v a} hv hread := by
    by_cases hmem : ∃ a, (v, a) ∈ l
    · obtain ⟨a', hmem⟩ := hmem
      obtain rfl := Except.ok.inj (hread.symm.trans (hg.mem hmem))
      exact hg'.mem hmem
    · have hnot := not_exists.1 hmem
      rw [hg'.other hnot]
      exact hA.old hv ((hg.other hnot).symm.trans hread)
  cast {u w} hu hnew hhere := by
    obtain ⟨a, hw, hu', hpasses⟩ := hA.cast hu hnew (hready u w hu hnew hhere)
    have hw' : ∀ a, (w, a) ∉ l := fun a' hmem => hA.fresh hu hnew hw (hl w a' hmem).2 hhere
    have hu'' : ∀ a, (u, a) ∉ l := fun a' hmem => hnew (hl u a' hmem).1
    exact ⟨a, (hg.other hw').trans hw, (hg'.other hu'').trans hu', hpasses⟩
  fresh {u w a} hu hnew hread b' n' hafter hthere := by
    by_cases hmem : ∃ a, (w, a) ∈ l
    · obtain ⟨a', hmem⟩ := hmem
      -- a cast that is there now would have been there before, and the value with it
      obtain ⟨rfl, rfl⟩ := (hl w a' hmem).2.unique hI hafter
      obtain ⟨_, hw, -⟩ := hA.cast hu hnew (hready u w hu hnew hthere)
      exact hA.fresh hu hnew hw hafter hthere
    · exact hA.fresh hu hnew ((hg.other (not_exists.1 hmem)).symm.trans hread) hafter hthere

/-- The frame of the rewritten body has executed a new cast. -/
theorem pass (hA : Agree h c₀ c f f' b n) (hr : Rewritten c₀ c) (hI : c.Intact)
    (hx : c.block b = .ok x) (hn : x.instructions[n]? = some k) (hk : ¬ c₀.HasInstruction k)
    (hop : c.operation k = .ok (.cast v r name)) (hv : Stands c₀ c v w) (hw : f.read w = .ok a)
    (hpasses : ∀ C, a = .object C → Passes h c₀ c C v w) (hg' : Writes [(v, a)] f' g') :
    Agree h c₀ c f g' b (n + 1) where
  old {u a} hu hread := by
    have huv : u ≠ v := by
      rintro rfl
      rcases hr.created hop hk with ⟨t, heq, -⟩ | ⟨u', r', name', heq, hnew⟩
      · cases heq
      · obtain ⟨rfl, -, -⟩ := Operation.cast.inj heq
        exact hnew hu
    rw [hg'.other (by simp [huv])]
    exact hA.old hu hread
  cast {u w'} hu hnew hready := by
    by_cases huv : u = v
    · subst huv
      obtain rfl := hv.unique hr hI.toTracksInstructions hu
      exact ⟨a, hw, hg'.mem (by simp), hpasses⟩
    · rw [hg'.other (by simp [huv])]
      apply hA.cast hu hnew
      apply hready.of_succ hx
      intro i hi hout
      obtain rfl := Option.some.inj (hi.symm.trans hn)
      obtain ⟨op, hop', hout⟩ := hout
      obtain rfl := Except.ok.inj (hop.symm.trans hop')
      exact huv (Option.some.inj hout).symm
  fresh hu hnew hread := hA.fresh hu hnew hread

/-- Before anything is executed, no cast is there. -/
theorem start (hr : Rewritten c₀ c) (hI₀ : c₀.Intact) (hc₀ : c₀.Consistent) (hI : c.Intact)
    (hc : c.Consistent) (hf : f.values = []) : Agree h c₀ c f f' c.entry 0 := by
  have hnone : ∀ {v a}, f.read v ≠ .ok a := by
    intro v a
    simp [Frame.read, hf]
  constructor
  · intro v a _ hread
    exact absurd hread hnone
  · intro u w hu hnew hready
    rcases hready with ⟨_, _, _, _, _, _, hlt⟩ | ⟨hnot, a, havail, hdom⟩
    · omega
    -- only the entry dominates itself
    obtain rfl : a = c.entry := by
      by_contra hne
      exact hdom ⟨Ne.symm hne, .refl⟩
    cases hu with
    | old hw => exact absurd hw hnew
    | cast hk hop _ =>
      obtain ⟨q, y, hof, hy, -⟩ := hI.exists_place hop
      obtain ⟨y', hy', hfrom⟩ := (AvailableFrom.of_operation hI hop rfl hof).1 havail
      obtain rfl := Except.ok.inj (hy.symm.trans hy')
      split at hfrom
      · rename_i hguard
        obtain ⟨hjumps, -⟩ := hfrom
        have hjump : c.Jumps q c.entry := (mem_normalSuccessors hjumps).1 (by simp)
        exact absurd hI₀.entry (hr.not_hasBlock_of_cast hI₀ hc₀ hI hc hk hop hof hy hguard.2 hjump)
      · exact absurd (hfrom ▸ hof) (hnot _ ⟨_, hop, rfl⟩)
  · intro u w a _ _ hread
    exact absurd hread hnone

end Agree

end Body

end Devirt
