import Devirt.Proofs.Devirtualization.Validity

/-!
Bodies without handlers. Devirtualization cuts no block of such a body, so the body is valid after
every single visit, and the walk may be stopped anywhere. What comes after the walk is narrowing: the
pass succeeds unless narrowing is endless, which it is in some hierarchies.
-/

namespace Devirt

open Relation Devirtualization.State

namespace Body

/-- No block has a handler. -/
def Unguarded (c : Body) : Prop := ∀ x ∈ c.blocks, x.handlers = []

instance (c : Body) : Decidable c.Unguarded := inferInstanceAs (Decidable (∀ x ∈ c.blocks, _))

variable {c₀ c : Body} {b t : BlockId}

/-- Only guarded blocks are cut. -/
theorem Unguarded.not_tailOf (hplain : c₀.Unguarded) (hI₀ : c₀.Intact) (hc₀ : c₀.Consistent)
    (hs : Stage c₀ c) : ¬ TailOf c₀ c b t := by
  intro htail
  obtain ⟨x₀, x, hx₀, -, hcut⟩ := hs.rewritten.exists_cut hI₀.toArranged hc₀.closed htail
  have hnone : x₀.handlers = [] := hplain x₀ (List.mem_of_getElem? (block_eq_ok.1 hx₀))
  have hguarded := hcut.guarded
  simp [Block.isGuarded, hnone] at hguarded

/-- Every stage of devirtualization is valid. -/
theorem Unguarded.violations_eq_nil (hplain : c₀.Unguarded) (hI₀ : c₀.Intact)
    (hc₀ : c₀.Consistent) (hs : Stage c₀ c) : c.violations = .ok [] := by
  apply (violations_eq_nil_iff hs.intact).2
  apply hs.consistent
  intro b t htail
  exact absurd htail (hplain.not_tailOf hI₀ hc₀ hs)

end Body

open Body

namespace Walk

variable {h : Hierarchy} {options : Options} {w w' : Walk h} {c₀ : Body}

/-- The walk gets from one place to another, in any number of rounds. -/
def Reaches (options : Options) : Walk h → Walk h → Prop :=
  ReflTransGen fun w w' => w.advance options = .ok (some w')

/-- What holds of the state at the start holds wherever the walk gets. -/
theorem Reaches.inv (hI₀ : c₀.Intact) (hc₀ : c₀.Consistent) (hreach : Reaches options w w')
    (hs : Inv c₀ w.state) (hold : ∀ i ∈ w.ahead, c₀.HasInstruction i) :
    Inv c₀ w'.state ∧ ∀ i ∈ w'.ahead, c₀.HasInstruction i := by
  induction hreach with
  | refl => exact ⟨hs, hold⟩
  | @tail v v' _ hadvance ih =>
    rcases exists_advance options hI₀ hc₀ ih.1 ih.2 with ⟨hend, -⟩ | ⟨v₁, hnext, hinv, hahead⟩
    · rw [hend] at hadvance
      cases hadvance
    · obtain rfl : v₁ = v' := by simpa using hnext.symm.trans hadvance
      refine ⟨hinv, fun i hi => ?_⟩
      rcases hahead with ⟨-, hsame, -⟩ | ⟨j, moved, -, hcons, -⟩
      · exact ih.2 i (hsame ▸ hi)
      · exact ih.2 i (hcons ▸ List.mem_cons_of_mem j hi)

/-- A walk that ends has got to the place where it ends. -/
theorem exists_reaches_of_run {rounds : Nat} {s : Devirtualization.State h}
    (hrun : Walk.run options rounds w = .ok s) :
    ∃ w', Reaches options w w' ∧ w'.advance options = .ok none ∧ w'.state = s := by
  induction rounds generalizing w with
  | zero => cases hrun
  | succ rounds ih =>
    obtain ⟨next, hnext, hrest⟩ := bind_eq_ok.1 hrun
    cases next with
    | none => exact ⟨w, .refl, hnext, Except.ok.inj hrest⟩
    | some w₁ =>
      obtain ⟨w', hreach, hend, hstate⟩ := ih hrest
      exact ⟨w', .head hnext hreach, hend, hstate⟩

end Walk

namespace Body

variable {h : Hierarchy} {c : Body} {options : Options} {resolver : Resolver h}

/-- The walk over the calls of a valid body: it never fails, and everything that is known of the
state is known wherever it gets. -/
theorem exists_walk (options : Options) (resolver : Resolver h) (hI : c.Intact)
    (hc : c.Consistent) :
    ∃ tree s, c.dominators = .ok tree ∧ c.walkCalls options resolver = .ok s ∧
      (∃ w, Walk.Reaches options { state := { body := c, resolver, tree } } w ∧
        w.advance options = .ok none ∧ w.state = s) ∧
      ∀ w, Walk.Reaches options { state := { body := c, resolver, tree } } w →
        Inv c w.state ∧ ∃ next, w.advance options = .ok next := by
  obtain ⟨tree, htree⟩ := hI.exists_dominators
  obtain ⟨l, hl, hmem⟩ := hI.exists_placed
  obtain ⟨s, hwalk, -⟩ : ∃ s, c.walkCalls options resolver = .ok s ∧ Inv c s ∧ True :=
    exists_walkCalls (motive := fun _ _ => True) (fun _ _ _ _ => trivial) hI hc fun _ _ _ => trivial
  have hrun : Walk.run options (l.length + c.order.length + 1)
      { state := { body := c, resolver, tree } } = .ok s := by
    simpa [walkCalls, htree, walkRounds, hl] using hwalk
  have hahead : Walk.ahead { state := { body := c, resolver, tree } } = l := ahead_start hl
  refine ⟨tree, s, htree, hwalk, Walk.exists_reaches_of_run hrun, fun w hreach => ?_⟩
  obtain ⟨hinv, hold⟩ := hreach.inv hI hc (inv_start resolver hI hc htree)
    (hahead ▸ fun i hi => (hmem i).1 hi)
  refine ⟨hinv, ?_⟩
  rcases Walk.exists_advance options hI hc hinv hold with ⟨hend, -⟩ | ⟨w', hnext, -⟩
  · exact ⟨none, hend⟩
  · exact ⟨some w', hnext⟩

/-- A valid body without handlers stays valid from visit to visit. The walk over it comes to its
end, and then the pass succeeds exactly if narrowing does not go on for ever. It never does where the
hierarchy is acyclic and nothing stands above its root. -/
theorem valid_of_reaches_of_unguarded {method : MethodRef} {steps : List DraftStep}
    {made : List Created} (hwritten : Body.ofSteps method steps = .ok (made, c))
    (hvalid : c.violations = .ok []) (hplain : c.Unguarded) (options : Options)
    (resolver : Resolver h) :
    ∃ tree s, c.dominators = .ok tree ∧ c.walkCalls options resolver = .ok s ∧
      (∃ w, Walk.Reaches options { state := { body := c, resolver, tree } } w ∧
        w.advance options = .ok none ∧ w.state = s) ∧
      (∀ w, Walk.Reaches options { state := { body := c, resolver, tree } } w →
        w.state.body.violations = .ok [] ∧ ∃ next, w.advance options = .ok next) ∧
      ((∃ run out, c.devirtualize options resolver = .ok run ∧ run.result = .ok out ∧
          run.body.violations = .ok []) ↔ ¬ s.NeverSettles options) ∧
      (s.NeverSettles options → c.devirtualize options resolver = .error .unsettled ∧
        ¬ (h.Acyclic ∧ h.supertypes rootType = [])) := by
  have hI := intact_of_ofSteps hwritten
  have hc := (violations_eq_nil_iff hI).1 hvalid
  obtain ⟨tree, s, htree, hwalk, hend, hreach⟩ := exists_walk options resolver hI hc
  have hs : Inv c s := by
    obtain ⟨w, hw, -, rfl⟩ := hend
    exact (hreach w hw).1
  refine ⟨tree, s, htree, hwalk, hend, fun w hw => ?_, ⟨?_, fun hsettles => ?_⟩, fun hnever => ?_⟩
  · obtain ⟨hinv, hnext⟩ := hreach w hw
    exact ⟨hplain.violations_eq_nil hI hc hinv.stage, hnext⟩
  · rintro ⟨run, out, hrun, -⟩ hnever
    rw [devirtualize_of_neverSettles hwalk hnever] at hrun
    cases hrun
  · obtain ⟨affected, d, hsettle⟩ :=
      (settleTypes_cases options hs).resolve_left fun hnever => hsettles hnever.1
    have hd := hplain.violations_eq_nil hI hc (hs.stage.retyped (retyped_of_settleTypes hsettle))
    exact ⟨_, _, devirtualize_eq_ok.2 ⟨s, affected, d, [], hwalk, hsettle, hd, rfl⟩, rfl, hd⟩
  · refine ⟨devirtualize_of_neverSettles hwalk hnever, ?_⟩
    rcases settleTypes_cases options hs with ⟨-, hnot⟩ | ⟨affected, d, hsettle⟩
    · exact hnot
    · rw [settleTypes_of_neverSettles hnever] at hsettle
      cases hsettle

/-- A call through the interface on a receiver known to be of the class. -/
def plainCall : List DraftStep :=
  [.argument (.ofClass "I" .maybe), .dynamic ⟨0⟩ { name := "A", exact := true },
    .call ⟨0⟩ .interface (.plain "I" "f") [⟨0⟩], .ret ⟨0⟩ none]

theorem devirtualize_plainCall :
    ∃ made c run out, Body.ofSteps (.plain "A" "f") plainCall = .ok (made, c) ∧
      c.violations = .ok [] ∧ c.Unguarded ∧
      c.devirtualize {} (∅ : Resolver Devirtualizing.implementedOnce) = .ok run ∧
      run.result = .ok out ∧ run.body.violations = .ok [] ∧ out.changed = true := by
  obtain ⟨made, c, hwritten, hvalid, hplain, run', hrun', hchanged⟩ :
      ∃ made c, Body.ofSteps (.plain "A" "f") plainCall = .ok (made, c) ∧
        c.violations = .ok [] ∧ c.Unguarded ∧
        ∃ run, c.devirtualize {} (∅ : Resolver Devirtualizing.implementedOnce) = .ok run ∧
          run.result.toOption.map (·.changed) = some true := by
    decide +kernel
  obtain ⟨tree, s, -, -, -, -, hiff, hnever⟩ := valid_of_reaches_of_unguarded hwritten hvalid
    hplain {} (∅ : Resolver Devirtualizing.implementedOnce)
  obtain ⟨run, out, hrun, hresult, hbody⟩ := hiff.2 fun hendless =>
    (hnever hendless).2 ⟨acyclic_implementedOnce, by decide +kernel⟩
  obtain rfl := Except.ok.inj (hrun'.symm.trans hrun)
  refine ⟨made, c, run', out, hwritten, hvalid, hplain, hrun, hresult, hbody, ?_⟩
  simpa [hresult, Except.toOption] using hchanged

end Body

/-! ### Types that never settle -/

/-- The root has a second definition, below the types `X` and `Z`, which as all types are below the
root. -/
def Hierarchy.rootRedefined : Hierarchy :=
  { defined := [
      { name := "I", isInterface := true
        methods := [{ signature := { name := "f" }, isAbstract := true }] },
      { name := "A", interfaces := ["I"], methods := [{ signature := { name := "f" } }] },
      { name := rootType, interfaces := ["X", "Z"] }] }

namespace Body

/-- A call in one arm of a branch, before a loop whose phi reads the receiver, an argument of type
`Z` and a cast of the phi itself to `X`. -/
def castLoop : List DraftStep :=
  [.newBlock, .newBlock, .newBlock, .newBlock, .argument (.ofClass "I" .maybe),
    .dynamic ⟨0⟩ { name := "A", exact := true }, .argument (.ofClass "Z" .maybe), .number ⟨0⟩ 1,
    .branch ⟨0⟩ ⟨2⟩ ⟨1⟩ ⟨3⟩, .call ⟨1⟩ .interface (.plain "I" "f") [⟨0⟩], .goto ⟨1⟩ ⟨2⟩,
    .goto ⟨3⟩ ⟨2⟩, .phi ⟨2⟩ (.ofClass "Z" .maybe) [(⟨1⟩, ⟨0⟩), (⟨2⟩, ⟨4⟩), (⟨3⟩, ⟨1⟩)],
    .cast ⟨2⟩ ⟨3⟩ "X", .branch ⟨2⟩ ⟨2⟩ ⟨2⟩ ⟨4⟩, .ret ⟨4⟩ none]

/-- The type of the phi goes from `Z` to the root and back, and that of the cast from `X` to the
root and back, so that no number of rounds is enough. -/
theorem devirtualize_castLoop :
    ∃ made c s, Body.ofSteps (.plain "A" "f") castLoop = .ok (made, c) ∧
      c.violations = .ok [] ∧ c.Unguarded ∧
      c.walkCalls {} (∅ : Resolver Hierarchy.rootRedefined) = .ok s ∧
      (∀ rounds, Narrowing.run Hierarchy.rootRedefined rounds
        { body := s.body, pending := s.affected } = .error .unsettled) ∧
      c.devirtualize {} (∅ : Resolver Hierarchy.rootRedefined) = .error .unsettled := by
  obtain ⟨made, c, hwritten, hvalid, hplain, s, hwalk, hsome, hperiod⟩ :
      ∃ made c, Body.ofSteps (.plain "A" "f") castLoop = .ok (made, c) ∧
        c.violations = .ok [] ∧ c.Unguarded ∧
        ∃ s, c.walkCalls {} (∅ : Resolver Hierarchy.rootRedefined) = .ok s ∧
          (Narrowing.turns Hierarchy.rootRedefined (2 + 4)
            { body := s.body, pending := s.affected }).isSome ∧
          Narrowing.turns Hierarchy.rootRedefined (2 + 4)
              { body := s.body, pending := s.affected } =
            Narrowing.turns Hierarchy.rootRedefined 2
              { body := s.body, pending := s.affected } := by
    decide +kernel
  have hendless : Narrowing.Endless Hierarchy.rootRedefined
      { body := s.body, pending := s.affected } :=
    Narrowing.endless_of_turns (Narrowing.isSome_turns_of_period (by omega) hsome hperiod)
  exact ⟨made, c, s, hwritten, hvalid, hplain, hwalk, hendless.run,
    devirtualize_of_neverSettles hwalk ⟨rfl, hendless⟩⟩

end Body

end Devirt
