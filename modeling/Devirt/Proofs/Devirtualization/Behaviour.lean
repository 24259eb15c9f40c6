import Devirt.Proofs.Devirtualization.Validity
import Devirt.Proofs.Execution.Simulation

/-!
Devirtualization keeps what programs do. If a run of the original program ends, and its calls are on
objects that their receivers are known to hold, then the run of the optimized program ends with the
same trace.
-/

namespace Devirt

namespace Body

open Devirtualization.State

variable {h : Hierarchy} {c₀ c d : Body} {u w : ValueId} {C : TypeName} {options : Options}
  {resolver : Resolver h}

theorem Passes.of_retyped (hr : Retyped c d) (hu : Passes h c₀ d C u w) : Passes h c₀ c C u w := by
  induction hu with
  | old hw => exact .old hw
  | cast hk hop hsub _ ih => exact .cast hk (hr.operation ▸ hop) hsub ih

theorem Faithful.retyped (hf : Faithful h c₀ c) (hr : Retyped c d) : Faithful h c₀ d where
  casts hw hx hC hk hop hpasses :=
    hf.casts hw hx hC hk (hr.operation ▸ hop) (hpasses.of_retyped hr)
  calls hw hx hC hcall₀ hw' hop hu hpasses hok := by
    rw [hr.context]
    exact hf.calls hw hx hC hcall₀ hw' (hr.operation ▸ hop) hu (hpasses.of_retyped hr) hok

theorem Refines.refl (hI : c.Intact) (hc : c.Consistent) : Refines h c c where
  toFaithful := Sound.refl.toFaithful
  intact_old := hI
  consistent_old := hc
  intact := hI
  consistent := hc
  rewritten := (Stage.refl hI hc).rewritten

variable (ha : h.Acyclic) (hd : h.DefinedOnce) (hn : h.ImplementsNoClass) (hp : h.NoPackageMembers)

include ha hd hn hp

/-- What a pass makes of a valid body without failing is a faithful rewriting. -/
theorem refines_of_devirtualize {run : PassRun h Devirtualized} {out : Devirtualized}
    (hI : c.Intact) (hc : c.Consistent) (hrun : c.devirtualize options resolver = .ok run)
    (hok : run.result = .ok out) : Refines h c run.body := by
  obtain ⟨s, affected, d, l, hwalk, hsettle, hl, rfl⟩ := devirtualize_eq_ok.1 hrun
  obtain ⟨s', hwalk', hs, -⟩ : ∃ s, c.walkCalls options resolver = .ok s ∧ Inv c s ∧ True :=
    exists_walkCalls (motive := fun _ _ => True) (fun _ _ _ _ => trivial) hI hc fun _ _ _ => trivial
  obtain rfl := Except.ok.inj (hwalk.symm.trans hwalk')
  have hretyped := retyped_of_settleTypes hsettle
  have hstage := hs.stage.retyped hretyped
  have hvalid : d.violations = .ok [] := by
    cases l with
    | nil => exact hl
    | cons => cases hok
  constructor
  · exact (sound_of_edits ha hd hn hp hI hc hs.path).toFaithful.retyped hretyped
  · exact hI
  · exact hc
  · exact hstage.intact
  · exact (violations_eq_nil_iff hstage.intact).1 hvalid
  · exact hstage.rewritten

theorem refines_of_runPasses {outcome o : MethodOutcome} {r : PassRun h MethodOutcome}
    (hI : c.Intact) (hc : c.Consistent)
    (hrun : Phase.runPasses outcome resolver c [.devirtualization options] = .ok r)
    (hok : r.result = .ok o) : Refines h c r.body := by
  obtain ⟨r₁, hpass, hrest⟩ := bind_eq_ok.1 hrun
  obtain ⟨run, hdevirtualize, hpass⟩ := bind_eq_ok.1 hpass
  obtain rfl := Except.ok.inj hpass
  cases hresult : run.result with
  | error e =>
    simp only [hresult, Except.map] at hrest
    obtain rfl := Except.ok.inj hrest
    cases hok
  | ok out =>
    simp only [hresult, Except.map] at hrest
    obtain rfl := Except.ok.inj hrest
    exact refines_of_devirtualize ha hd hn hp hI hc hdevirtualize hresult

theorem refines_of_runBodies {bodies bodies' : List Body} {report : PhaseReport}
    (hvalid : ∀ c ∈ bodies, c.Intact ∧ c.Consistent)
    (hrun : Phase.runBodies [.devirtualization options] resolver bodies =
      .ok (bodies', .ok report)) : List.Forall₂ (Refines h) bodies bodies' := by
  induction bodies generalizing bodies' resolver report with
  | nil =>
    obtain ⟨rfl, -⟩ := Prod.mk.inj (Except.ok.inj hrun)
    exact .nil
  | cons c bodies ih =>
    obtain ⟨hI, hc⟩ := hvalid c List.mem_cons_self
    obtain ⟨r, hpasses, hrest⟩ := bind_eq_ok.1 hrun
    cases hresult : r.result with
    | error e =>
      simp [hresult] at hrest
    | ok o =>
      simp only [hresult] at hrest
      obtain ⟨⟨rest, outcome⟩, hbodies, hall⟩ := bind_eq_ok.1 hrest
      obtain ⟨rfl, hreport⟩ := Prod.mk.inj (Except.ok.inj hall)
      have hfirst := refines_of_runPasses ha hd hn hp hI hc hpasses hresult
      cases outcome with
      | error e => cases hreport
      | ok report' => exact .cons hfirst (ih (fun c' hc' => hvalid c' (.tail c hc')) hbodies)

end Body

namespace Program

open Body

variable {p p' : Program} {settings : Settings} {report : PhaseReport} {limit : Nat}
  {method : MethodRef} {arguments : List RuntimeValue} {trace : List String}

/-- Bodies that refine each other are found for the same methods. -/
theorem rel_find? {h : Hierarchy} {l l' : List Body} (hl : List.Forall₂ (Refines h) l l')
    (m : MethodRef) : Option.Rel (Refines h) (l.find? (·.method = m)) (l'.find? (·.method = m)) := by
  induction hl with
  | nil => exact .none
  | @cons c c' l l' hR _ ih =>
    have hmethod := hR.rewritten.method_eq
    by_cases hm : c.method = m
    · rw [List.find?_cons_of_pos (by simpa using hm),
        List.find?_cons_of_pos (by simpa [hmethod] using hm)]
      exact .some hR
    · rw [List.find?_cons_of_neg (by simpa using hm),
        List.find?_cons_of_neg (by simpa [hmethod] using hm)]
      exact ih

/-- The optimized program refines the original one. -/
theorem refinedBy_of_optimize (ha : p.hierarchy.Acyclic) (hd : p.hierarchy.DefinedOnce)
    (hn : p.hierarchy.ImplementsNoClass) (hp : p.hierarchy.NoPackageMembers)
    (hvalid : ∀ c ∈ p.bodies, c.Intact ∧ c.Consistent)
    (hoptimize : p.optimize settings [] = .ok (p', .ok report)) : p.RefinedBy p' := by
  obtain ⟨⟨bodies, report'⟩, hrun, heq⟩ := bind_eq_ok.1 hoptimize
  obtain ⟨rfl, rfl⟩ := Prod.mk.inj (Except.ok.inj heq)
  have hbodies : List.Forall₂ (Refines p.hierarchy) p.bodies bodies := by
    unfold Phase.run at hrun
    split at hrun
    · obtain ⟨rfl, -⟩ := Prod.mk.inj (Except.ok.inj hrun)
      exact List.forall₂_same.2 fun c hc => .refl (hvalid c hc).1 (hvalid c hc).2
    · rename_i hactive
      have hpasses : (Phase.standard settings []).activePasses =
          [(Pass.devirtualization settings.options : Pass p.hierarchy)] := by
        cases hlevel : (Pass.devirtualization settings.options : Pass p.hierarchy).isActive
            settings.level with
        | false => simp [Phase.activePasses, Phase.standard, hlevel] at hactive
        | true => simp [Phase.activePasses, Phase.standard, hlevel]
      rw [hpasses] at hrun
      exact refines_of_runBodies ha hd hn hp hvalid hrun
  exact ⟨rfl, fun m => rel_find? (List.forall₂_reverse_iff.2 hbodies) m⟩

/-- Optimization keeps the trace of every run that ends, if the calls of the run are on objects that
their receivers are known to hold. -/
theorem exists_traceOf_optimize (ha : p.hierarchy.Acyclic) (hd : p.hierarchy.DefinedOnce)
    (hn : p.hierarchy.ImplementsNoClass) (hp : p.hierarchy.NoPackageMembers)
    (hwritten : ∀ c ∈ p.bodies, ∃ m steps made, Body.ofSteps m steps = .ok (made, c))
    (hvalid : ∀ c ∈ p.bodies, c.violations = .ok [])
    (hoptimize : p.optimize settings [] = .ok (p', .ok report))
    (hrun : p.traceOf limit method arguments = .ok trace)
    (hconforms : p.RunConforms method arguments) :
    ∃ limit', p'.traceOf limit' method arguments = .ok trace := by
  have hbodies : ∀ c ∈ p.bodies, c.Intact ∧ c.Consistent := by
    intro c hc
    obtain ⟨m, steps, made, hsteps⟩ := hwritten c hc
    have hI := intact_of_ofSteps hsteps
    exact ⟨hI, (violations_eq_nil_iff hI).1 (hvalid c hc)⟩
  exact (refinedBy_of_optimize ha hd hn hp hbodies hoptimize).exists_traceOf hconforms hrun

/-- A program of one body. -/
def ofBody (h : Hierarchy) (c : Body) : Program :=
  { hierarchy := h, entry := c.method, bodies := [c] }

set_option synthInstance.maxSize 256 in
/-- The block of a guarded call is cut, and the program calls the same methods as before. -/
theorem exists_traceOf_guardedCall :
    ∃ made c p' report, Body.ofSteps (.plain "B" "g")
        (.newBlock :: (guardedCall ⟨2⟩ ++ [.ret ⟨2⟩ none])) = .ok (made, c) ∧
      (ofBody Devirtualizing.implementedOnce c).optimize {} [] = .ok (p', .ok report) ∧
      (∃ d ∈ p'.bodies, TailOf c d ⟨0⟩ ⟨3⟩) ∧
      ∃ limit, p'.traceOf limit (.plain "B" "g") [.object "A"] = .ok ["B::g", "A::f"] := by
  obtain ⟨made, c, hwritten, hvalid, hnew, ⟨p', outcome, hoptimize, hok, d, hmem, hjumps⟩, hrun,
      hbody, f, hf, hconforms⟩ :
      ∃ made c, Body.ofSteps (.plain "B" "g")
          (.newBlock :: (guardedCall ⟨2⟩ ++ [.ret ⟨2⟩ none])) = .ok (made, c) ∧
        c.violations = .ok [] ∧ ¬ c.HasBlock ⟨3⟩ ∧
        (∃ p' outcome, (ofBody Devirtualizing.implementedOnce c).optimize {} [] = .ok (p', outcome) ∧
          outcome.isOk = true ∧ ∃ d ∈ p'.bodies, d.normalSuccessors ⟨0⟩ = .ok [⟨3⟩]) ∧
        (ofBody Devirtualizing.implementedOnce c).traceOf 10 (.plain "B" "g") [.object "A"] =
          .ok ["B::g", "A::f"] ∧
        (ofBody Devirtualizing.implementedOnce c).body? (.plain "B" "g") = some c ∧
        ∃ f, Frame.start c [.object "A"] = .ok f ∧
          Machine.ConformsFor (ofBody Devirtualizing.implementedOnce c) 10
            { frame := f, calls := [.plain "B" "g"] } := by
    decide +kernel
  cases outcome with
  | error e => cases hok
  | ok report =>
    refine ⟨made, c, p', report, hwritten, hoptimize, ⟨d, hmem, ?_, hnew⟩, ?_⟩
    · exact (mem_normalSuccessors hjumps).1 (by simp)
    · have hd : Devirtualizing.implementedOnce.DefinedOnce := by decide +kernel
      have hn : Devirtualizing.implementedOnce.ImplementsNoClass := by decide +kernel
      have hp : Devirtualizing.implementedOnce.NoPackageMembers := by decide +kernel
      refine exists_traceOf_optimize acyclic_implementedOnce hd hn hp ?_ ?_ hoptimize hrun
        (runConforms_of_conformsFor hbody hf hconforms)
      · intro c' hc'
        obtain rfl := List.mem_singleton.1 hc'
        exact ⟨_, _, made, hwritten⟩
      · intro c' hc'
        obtain rfl := List.mem_singleton.1 hc'
        exact hvalid

set_option synthInstance.maxSize 256 in
/-- Where a class implements another class, a call that skips to its superclass is turned into one
that does not select a method any more. -/
theorem traceOf_implementedClass :
    ∃ made c p' report, Hierarchy.implementedClass.Acyclic ∧
      Hierarchy.implementedClass.DefinedOnce ∧ Hierarchy.implementedClass.NoPackageMembers ∧
      Body.ofSteps (.plain "K" "g") [.create ⟨0⟩ "C", .call ⟨0⟩ .super (.plain "D" "f") [⟨0⟩],
        .ret ⟨0⟩ none] = .ok (made, c) ∧ c.violations = .ok [] ∧
      (ofBody Hierarchy.implementedClass c).optimize {} [] = .ok (p', .ok report) ∧
      (ofBody Hierarchy.implementedClass c).traceOf 10 (.plain "K" "g") [] =
        .ok ["K::g", "D::f"] ∧
      (ofBody Hierarchy.implementedClass c).RunConforms (.plain "K" "g") [] ∧
      ∀ limit, p'.traceOf limit (.plain "K" "g") [] ≠ .ok ["K::g", "D::f"] := by
  obtain ⟨made, c, hwritten, hvalid, ⟨p', outcome, hoptimize, hok, herror⟩, hrun, hbody, f, hf,
      hconforms⟩ :
      ∃ made c, Body.ofSteps (.plain "K" "g") [.create ⟨0⟩ "C",
          .call ⟨0⟩ .super (.plain "D" "f") [⟨0⟩], .ret ⟨0⟩ none] = .ok (made, c) ∧
        c.violations = .ok [] ∧
        (∃ p' outcome, (ofBody Hierarchy.implementedClass c).optimize {} [] = .ok (p', outcome) ∧
          outcome.isOk = true ∧ p'.traceOf 10 (.plain "K" "g") [] =
            .error (.conflictingDefaults (.plain "D" "f"))) ∧
        (ofBody Hierarchy.implementedClass c).traceOf 10 (.plain "K" "g") [] =
          .ok ["K::g", "D::f"] ∧
        (ofBody Hierarchy.implementedClass c).body? (.plain "K" "g") = some c ∧
        ∃ f, Frame.start c [] = .ok f ∧
          Machine.ConformsFor (ofBody Hierarchy.implementedClass c) 10
            { frame := f, calls := [.plain "K" "g"] } := by
    decide +kernel
  cases outcome with
  | error e => cases hok
  | ok report =>
    exact ⟨made, c, p', report, Hierarchy.acyclic_implementedClass, by decide +kernel,
      by decide +kernel, hwritten, hvalid, hoptimize, hrun,
      runConforms_of_conformsFor hbody hf hconforms, traceOf_ne_ok (by simp) herror⟩

end Program

end Devirt
