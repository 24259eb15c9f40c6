import Devirt.Proofs.Body.Draft
import Devirt.Proofs.Devirtualization.Walk
import Devirt.Proofs.Narrowing.States

/-!
What devirtualization leaves behind. On a valid body the pass comes to its end unless types never
settle, and its outcome is valid exactly if every block that it has cut could be cut safely.
-/

namespace Devirt

/-- Narrowing is asked for, and from the values that have been affected it goes on for ever. -/
def Devirtualization.State.NeverSettles {h : Hierarchy} (options : Options)
    (s : Devirtualization.State h) : Prop :=
  options.narrowTypes = true ∧ Narrowing.Endless h { body := s.body, pending := s.affected }

namespace Body

open Devirtualization.State

variable {h : Hierarchy} {c₀ c d : Body} {s : Devirtualization.State h} {options : Options}
  {resolver : Resolver h} {affected : OrderedSet ValueId}

theorem Stage.retyped (hs : Stage c₀ c) (hr : Retyped c d) : Stage c₀ d := by
  obtain ⟨hintact, hrewritten, hconsistent⟩ := hs
  refine ⟨hr.intact hintact, ?_, fun hsafe => hr.consistent (hconsistent fun b t ht => hsafe b t ?_)⟩
  · obtain ⟨type, rfl⟩ := hr
    exact hrewritten.updateValues _
  · obtain ⟨type, rfl⟩ := hr
    exact ht

/-- The outcome of a stage is consistent exactly if all cuts that led to it were safe. -/
theorem Stage.consistent_iff (hI₀ : c₀.Intact) (hc₀ : c₀.Consistent) (hs : Stage c₀ c) :
    c.Consistent ↔ ∀ b t, TailOf c₀ c b t → c₀.SplitSafe b :=
  ⟨fun hc _ _ ht => hs.rewritten.splitSafe_of_tailOf hI₀ hc₀ hs.intact hc ht, hs.consistent⟩

theorem Stage.exists_violations (hI₀ : c₀.Intact) (hc₀ : c₀.Consistent) (hs : Stage c₀ c) :
    ∃ l, c.violations = .ok l :=
  Body.exists_violations hs.intact (hs.rewritten.closed hI₀.toArranged hc₀.closed)
    fun hx _ hp => hs.rewritten.hasBlock_of_mem_predecessors hI₀.toArranged hc₀.closed hx hp

theorem retyped_of_settleTypes (hsettle : settleTypes options s = .ok (affected, d)) :
    Retyped s.body d := by
  rw [settleTypes] at hsettle
  split at hsettle
  · simp only [bind_eq_ok, pure_eq_ok, Except.ok.injEq, Prod.mk.injEq, Prod.exists] at hsettle
    obtain ⟨narrowed, d', hnarrow, -, rfl⟩ := hsettle
    exact retyped_of_narrow hnarrow
  · obtain ⟨-, rfl⟩ := Prod.mk.inj (Except.ok.inj hsettle)
    exact .refl _

theorem settleTypes_of_neverSettles (hnever : s.NeverSettles options) :
    settleTypes options s = .error .unsettled := by
  obtain ⟨hwanted, hendless⟩ := hnever
  have hsome : s.affected.isEmpty = false := by
    rw [Bool.eq_false_iff]
    intro hempty
    have hnone : s.affected.toList = [] := List.isEmpty_iff.1 hempty
    exact hendless _ (.rest (by simp [OrderedSet.popLast?, hnone]))
  simp [settleTypes, hwanted, hsome, narrow_of_endless hendless]

/-- Types settle unless narrowing is endless. For this the hierarchy must let one type be both above
and below another. -/
theorem settleTypes_cases (options : Options) (hs : Inv c₀ s) :
    (s.NeverSettles options ∧ ¬ (h.Acyclic ∧ h.supertypes rootType = [])) ∨
      ∃ affected d, settleTypes options s = .ok (affected, d) := by
  rw [settleTypes]
  split
  · rename_i hwanted
    have hcases := narrow_cases (h := h) (recorded_of_intact hs.stage.intact) hs.affected
    rcases hcases with ⟨⟨narrowed, d⟩, hr⟩ | ⟨-, hendless, hnot⟩
    · exact .inr ⟨s.affected.insertAll narrowed.toList, d, by simp [hr]⟩
    · exact .inl ⟨⟨(Bool.and_eq_true_iff.1 hwanted).1, hendless⟩, hnot⟩
  · exact .inr ⟨_, _, rfl⟩

/-- A pass walks over the calls, settles types and checks the body. -/
theorem devirtualize_eq_ok {run : PassRun h Devirtualized} :
    c.devirtualize options resolver = .ok run ↔
      ∃ s affected d l, c.walkCalls options resolver = .ok s ∧
        settleTypes options s = .ok (affected, d) ∧ d.violations = .ok l ∧
        { body := d
          resolver := s.resolver
          result := if l.isEmpty then
              .ok { changed := 0 < s.stats.total, affected, stats := s.stats }
            else .error (.inconsistent d.method.text l) } = run := by
  simp [devirtualize]

theorem devirtualize_of_neverSettles (hwalk : c.walkCalls options resolver = .ok s)
    (hnever : s.NeverSettles options) :
    c.devirtualize options resolver = .error .unsettled := by
  simp [devirtualize, hwalk, settleTypes_of_neverSettles hnever]

/-- A pass over a valid body. If it gives no outcome, narrowing goes on for ever after the walk, and
the hierarchy has a cycle or something stands above its root. -/
theorem devirtualize_cases {method : MethodRef} {steps : List DraftStep} {made : List Created}
    (hwritten : Body.ofSteps method steps = .ok (made, c)) (hvalid : c.violations = .ok [])
    (options : Options) (resolver : Resolver h) :
    (c.devirtualize options resolver = .error .unsettled ∧
        (∃ s, c.walkCalls options resolver = .ok s ∧ s.NeverSettles options) ∧
        ¬ (h.Acyclic ∧ h.supertypes rootType = [])) ∨
      ∃ run, c.devirtualize options resolver = .ok run ∧
        ((∃ out, run.result = .ok out) ↔ run.body.violations = .ok []) ∧
        (run.body.violations = .ok [] ↔ ∀ b t, TailOf c run.body b t → c.SplitSafe b) := by
  have hI := intact_of_ofSteps hwritten
  have hc := (violations_eq_nil_iff hI).1 hvalid
  obtain ⟨s, hwalk, hs, -⟩ : ∃ s, c.walkCalls options resolver = .ok s ∧ Inv c s ∧ True :=
    exists_walkCalls (motive := fun _ _ => True) (fun _ _ _ _ => trivial) hI hc fun _ _ _ => trivial
  rcases settleTypes_cases options hs with ⟨hnever, hnot⟩ | ⟨affected, d, hsettle⟩
  · exact .inl ⟨devirtualize_of_neverSettles hwalk hnever, ⟨s, hwalk, hnever⟩, hnot⟩
  · have hd := hs.stage.retyped (retyped_of_settleTypes hsettle)
    obtain ⟨l, hl⟩ := hd.exists_violations hI hc
    refine .inr ⟨_, devirtualize_eq_ok.2 ⟨s, affected, d, l, hwalk, hsettle, hl, rfl⟩, ?_, ?_⟩
    · cases l <;> simp [hl]
    · rw [← hd.consistent_iff hI hc]
      exact violations_eq_nil_iff hd.intact

/-- A call through the interface in a guarded block, on a receiver known to be of the class. Its
handler is the second block, and it goes on at the target. -/
def guardedCall (target : BlockId) : List DraftStep :=
  [.argument (.ofClass "I" .maybe), .dynamic ⟨0⟩ { name := "A", exact := true }, .newBlock,
    .call ⟨0⟩ .interface (.plain "I" "f") [⟨0⟩], .handler ⟨0⟩ none ⟨1⟩, .goto ⟨0⟩ target,
    .ret ⟨1⟩ none]

theorem acyclic_implementedOnce : Devirtualizing.implementedOnce.Acyclic :=
  Hierarchy.acyclic_of_rank
    (fun t => if t = rootType then 3 else if t = "I" then 2 else if t = "A" then 1 else 0)
    (by decide +kernel)

/-- If the block goes on apart from its handler, it is cut safely and the outcome is valid. -/
theorem devirtualize_guardedCall_apart :
    ∃ made c run, Body.ofSteps (.plain "A" "f")
        (.newBlock :: (guardedCall ⟨2⟩ ++ [.ret ⟨2⟩ none])) = .ok (made, c) ∧
      c.violations = .ok [] ∧
      c.devirtualize {} (∅ : Resolver Devirtualizing.implementedOnce) = .ok run ∧
      TailOf c run.body ⟨0⟩ ⟨3⟩ ∧ c.SplitSafe ⟨0⟩ ∧ ∃ out, run.result = .ok out := by
  obtain ⟨made, c, hwritten, hvalid, hnew, run', hrun', hbody, hjumps⟩ :
      ∃ made c, Body.ofSteps (.plain "A" "f")
          (.newBlock :: (guardedCall ⟨2⟩ ++ [.ret ⟨2⟩ none])) = .ok (made, c) ∧
        c.violations = .ok [] ∧ ¬ c.HasBlock ⟨3⟩ ∧
        ∃ run, c.devirtualize {} (∅ : Resolver Devirtualizing.implementedOnce) = .ok run ∧
          run.body.violations = .ok [] ∧ run.body.normalSuccessors ⟨0⟩ = .ok [⟨3⟩] := by
    decide +kernel
  rcases devirtualize_cases hwritten hvalid {} (∅ : Resolver Devirtualizing.implementedOnce) with
    ⟨-, -, hnot⟩ | ⟨run, hrun, hresult, hsafe⟩
  · exact absurd ⟨acyclic_implementedOnce, by decide +kernel⟩ hnot
  · obtain rfl := Except.ok.inj (hrun'.symm.trans hrun)
    have htail : TailOf c run'.body ⟨0⟩ ⟨3⟩ := ⟨(mem_normalSuccessors hjumps).1 (by simp), hnew⟩
    exact ⟨made, c, run', hwritten, hvalid, hrun, htail, hsafe.1 hbody _ _ htail, hresult.2 hbody⟩

/-- If the block goes on at its own handler, the edge from the head to the handler is lost. -/
theorem devirtualize_guardedCall_joined :
    ∃ made c run, Body.ofSteps (.plain "A" "f") (guardedCall ⟨1⟩) = .ok (made, c) ∧
      c.violations = .ok [] ∧
      c.devirtualize {} (∅ : Resolver Devirtualizing.implementedOnce) = .ok run ∧
      run.body.violations = .ok [.asymmetricEdge ⟨0⟩ ⟨1⟩] ∧ ∀ out, run.result ≠ .ok out := by
  obtain ⟨made, c, hwritten, hvalid, run, hrun, hbody, hresult⟩ :
      ∃ made c, Body.ofSteps (.plain "A" "f") (guardedCall ⟨1⟩) = .ok (made, c) ∧
        c.violations = .ok [] ∧
        ∃ run, c.devirtualize {} (∅ : Resolver Devirtualizing.implementedOnce) = .ok run ∧
          run.body.violations = .ok [.asymmetricEdge ⟨0⟩ ⟨1⟩] ∧ run.result.isOk = false := by
    decide +kernel
  refine ⟨made, c, run, hwritten, hvalid, hrun, hbody, fun out hout => ?_⟩
  simp [hout, Except.isOk, Except.toBool] at hresult

end Body

end Devirt
