import Devirt.Proofs.Body.Editing
import Devirt.Proofs.Execution.Provenance
import Devirt.Proofs.Narrowing.States
import Devirt.Proofs.Types.Join

/-!
Types that execution respects. What conforms to the types of a body in a run still conforms after
types have been narrowed: a narrowed type follows from the types of operands, and the value has been
passed on from one of them.
-/

namespace Devirt

/-! ### Conforming to a type -/

namespace RuntimeValue

/-- The value may stand where a reference of this type is expected. -/
def RefersTo (h : Hierarchy) (r : ReferenceType) : RuntimeValue → Prop
  | .null => r.nullability ≠ .notNull
  | .int _ => False
  | .object C =>
    r.nullability ≠ .null ∧ h.isSubtype C r.name = true ∧ (r.exact = true → C = r.name)

/-- The value may stand where the type is expected. All primitive types have numbers for values. -/
def Conforms (h : Hierarchy) (x : RuntimeValue) : StaticType → Prop
  | .bottom => False
  | .primitive _ => x.isReference = false
  | .null => x = .null
  | .reference r => x.RefersTo h r
  | .top => True

instance decidableRefersTo (h : Hierarchy) (r : ReferenceType) :
    (x : RuntimeValue) → Decidable (x.RefersTo h r)
  | .null => inferInstanceAs (Decidable (r.nullability ≠ .notNull))
  | .int _ => .isFalse id
  | .object _ => inferInstanceAs (Decidable (r.nullability ≠ .null ∧ _ ∧ _))

instance decidableConforms (h : Hierarchy) (x : RuntimeValue) :
    (t : StaticType) → Decidable (x.Conforms h t)
  | .bottom => .isFalse id
  | .primitive _ => inferInstanceAs (Decidable (x.isReference = false))
  | .null => inferInstanceAs (Decidable (x = .null))
  | .reference r => inferInstanceAs (Decidable (x.RefersTo h r))
  | .top => .isTrue trivial

variable {h : Hierarchy} {x : RuntimeValue} {s t : StaticType}

theorem RefersTo.of_le (hroot : h.class? rootType = some Class.root) {a b : ReferenceType}
    (hx : x.RefersTo h a) (hle : StaticType.le h (.reference a) (.reference b) = true) :
    x.RefersTo h b := by
  obtain ⟨hnull, hsub, hexact⟩ := StaticType.le_reference.1 hle
  cases x with
  | int n => exact hx
  | null =>
    have ha : a.nullability ≠ .notNull := hx
    show b.nullability ≠ .notNull
    revert ha hnull
    cases a.nullability <;> cases b.nullability <;> simp [Nullability.le]
  | object C =>
    obtain ⟨ha, hC, hname⟩ := hx
    refine ⟨?_, h.isSubtype_trans hroot hC hsub, ?_⟩
    · revert ha hnull
      cases a.nullability <;> cases b.nullability <;> simp [Nullability.le]
    · intro hb
      obtain ⟨hexact, hab⟩ := hexact hb
      rw [hname hexact, hab]

/-- What conforms to a type conforms to every type above it. -/
theorem Conforms.of_le (hroot : h.class? rootType = some Class.root) (hx : x.Conforms h s)
    (hle : s.le h t = true) : x.Conforms h t := by
  cases s with
  | bottom => exact absurd hx id
  | primitive p => cases t <;> simp_all [Conforms, StaticType.le]
  | null =>
    obtain rfl : x = .null := hx
    cases t <;> simp_all [Conforms, RefersTo, StaticType.le]
  | top => cases t <;> simp_all [Conforms, StaticType.le]
  | reference a =>
    cases t with
    | reference b => exact RefersTo.of_le hroot hx hle
    | top => exact trivial
    | _ => simp [StaticType.le] at hle

/-- What gets through a cast conforms to the class as it has conformed to the type before. -/
theorem Conforms.ofClass {name : TypeName} (hx : x.Conforms h t) (href : x.isReference = true)
    (hsub : ∀ C, x = .object C → h.isSubtype C name = true) :
    x.Conforms h (.ofClass name t.nullability) := by
  show x.RefersTo h { name, nullability := t.nullability }
  cases x with
  | int n => cases href
  | null =>
    show t.nullability ≠ .notNull
    cases t with
    | reference r => exact hx
    | _ => simp_all [Conforms, StaticType.nullability, isReference]
  | object C =>
    have hnull : t.nullability ≠ .null := by
      cases t with
      | reference r => exact hx.1
      | _ => simp_all [Conforms, StaticType.nullability]
    exact ⟨hnull, hsub C rfl, by simp⟩

theorem Conforms.notNull (hx : x.Conforms h t) (hne : x ≠ .null) :
    x.Conforms h (t.withNullability .notNull) := by
  cases t with
  | reference r =>
    show x.RefersTo h { r with nullability := .notNull }
    cases x with
    | null => exact absurd rfl hne
    | int n => exact hx
    | object C => exact ⟨by simp, hx.2⟩
  | _ => exact hx

/-- What conforms to one of the joined types conforms to their join. -/
theorem Conforms.foldl_join (hroot : h.class? rootType = some Class.root) {types : List StaticType}
    (hx : x.Conforms h s ∨ ∃ t ∈ types, x.Conforms h t) :
    x.Conforms h (types.foldl (StaticType.join h) s) := by
  induction types generalizing s with
  | nil =>
    rcases hx with hs | ⟨t, ht, -⟩
    · exact hs
    · cases ht
  | cons u types ih =>
    obtain ⟨hs, hu⟩ := StaticType.le_join h s u
    apply ih
    rcases hx with hx | ⟨t, ht, hx⟩
    · exact .inl (hx.of_le hroot hs)
    · rcases List.mem_cons.1 ht with rfl | ht
      · exact .inl (hx.of_le hroot hu)
      · exact .inr ⟨t, ht, hx⟩

end RuntimeValue

/-! ### Narrowing -/

namespace Body

variable {h : Hierarchy} {held : ValueId → RuntimeValue → Prop} {c d : Body} {v : ValueId}
  {x : RuntimeValue} {t : StaticType}

/-- Everything held conforms to the type of its value. -/
def Covers (h : Hierarchy) (held : ValueId → RuntimeValue → Prop) (c : Body) : Prop :=
  ∀ v x, held v x → ∃ y, c.value v = .ok y ∧ x.Conforms h y.type

variable (hroot : h.class? rootType = some Class.root)
include hroot

/-- A derived type is right of what is held if the types of the operands are. -/
theorem Covers.derivedType? (hc : c.Recorded) (hcovers : c.Covers h held)
    (hderived : c.derivedType? h v = .ok (some t)) (hexplains : c.Explains h held v x) :
    x.Conforms h t := by
  rcases hc.derivedType?_cases hderived with
    ⟨i, object, name, y, hop, hy, rfl⟩ | ⟨i, source, origin, y, hop, hy, rfl⟩ |
    ⟨b, phi, types, hphi, hout, htypes, rfl⟩
  · obtain ⟨hheld, href, hsub⟩ := hexplains.cast hop
    obtain ⟨y', hy', hconforms⟩ := hcovers object x hheld
    obtain rfl := Except.ok.inj (hy.symm.trans hy')
    split
    · exact hconforms
    · exact hconforms.ofClass href hsub
  · obtain ⟨hheld, hne⟩ := hexplains.assumeNonNull hop
    obtain ⟨y', hy', hconforms⟩ := hcovers source x hheld
    obtain rfl := Except.ok.inj (hy.symm.trans hy')
    exact hconforms.notNull hne
  · obtain ⟨o, ho, hheld⟩ := hexplains.phi hphi hout
    obtain ⟨y, hy, hmem⟩ := htypes o ho
    obtain ⟨y', hy', hconforms⟩ := hcovers o x hheld
    obtain rfl := Except.ok.inj (hy.symm.trans hy')
    exact .foldl_join hroot (.inr ⟨y.type, hmem, hconforms⟩)

end Body

namespace Narrowing

variable {h : Hierarchy} {held : ValueId → RuntimeValue → Prop} {s s' : Narrowing} {v : ValueId}

open Body

/-- One visit keeps the types right. -/
theorem covers_visit (hroot : h.class? rootType = some Class.root) (hs : s.body.Recorded)
    (hexplains : ∀ v x, held v x → s.body.Explains h held v x) (hcovers : s.body.Covers h held)
    (hrun : s.visit h v = .ok s') : s'.body.Covers h held := by
  obtain rfl | ⟨y, type, d, readers, -, hderived, -, -, hset, -, rfl⟩ := visit_cases hrun
  · exact hcovers
  · obtain ⟨-, rfl⟩ := modifyValue_eq_ok.1 hset
    intro u x hx
    obtain ⟨z, hz, hconforms⟩ := hcovers u x hx
    refine ⟨_, value_updateValues.2 ⟨z, hz, rfl⟩, ?_⟩
    split
    · rename_i huv
      subst huv
      exact hcovers.derivedType? hroot hs hderived (hexplains u x hx)
    · exact hconforms

end Narrowing

namespace Body

variable {h : Hierarchy} {held : ValueId → RuntimeValue → Prop} {c d : Body}
  {affected narrowed : OrderedSet ValueId}

/-- Another type for a value explains nothing else. -/
theorem Explains.retyped {v : ValueId} {x : RuntimeValue} (hx : c.Explains h held v x)
    (hd : Retyped c d) : d.Explains h held v x := by
  obtain ⟨type, rfl⟩ := hd
  exact ⟨hx.cast, hx.assumeNonNull, hx.phi⟩

/-- Narrowing keeps types right, in whatever order it comes to the values. -/
theorem Covers.narrow (hroot : h.class? rootType = some Class.root) (hc : c.Recorded)
    (hexplains : ∀ v x, held v x → c.Explains h held v x) (hcovers : c.Covers h held)
    (hrun : c.narrow h affected = .ok (narrowed, d)) : d.Covers h held := by
  obtain ⟨s, hs, heq⟩ := bind_eq_ok.1 hrun
  obtain ⟨-, rfl⟩ := Prod.mk.inj (Except.ok.inj heq)
  have hinvariant : Retyped c s.body ∧ s.body.Covers h held := by
    apply Narrowing.run_invariant (motive := fun d => Retyped c d ∧ d.Covers h held) _ _ hs
    · intro s₁ s₂ v ⟨hretyped, hs₁⟩ hvisit
      refine ⟨hretyped.trans (Narrowing.retyped_of_visit hvisit), ?_⟩
      exact Narrowing.covers_visit hroot (hretyped.recorded hc)
        (fun v x hx => (hexplains v x hx).retyped hretyped) hs₁ hvisit
    · exact ⟨.refl c, hcovers⟩
  exact hinvariant.2

end Body

/-! ### Runs -/

/-- What the frames of the body `c` hold conforms to the types that the values have in `d`. -/
def Machine.Respects (h : Hierarchy) (c d : Body) (m : Machine) : Prop :=
  ∀ f ∈ m.frames, f.body = c → ∀ q ∈ f.values, ∃ y, d.value q.1 = .ok y ∧ q.2.Conforms h y.type

instance Machine.decidableRespects (h : Hierarchy) (c d : Body) (m : Machine) :
    Decidable (m.Respects h c d) :=
  inferInstanceAs (Decidable (∀ f ∈ m.frames, f.body = c → ∀ q ∈ f.values, _))

namespace Program

variable {p : Program} {c : Body} {limit : Nat} {method : MethodRef} {arguments : List RuntimeValue}
  {affected : OrderedSet ValueId}

theorem covers_holdsIn_iff {d : Body} :
    d.Covers p.hierarchy (p.HoldsIn c limit method arguments) ↔
      ∀ m ∈ p.statesOf limit method arguments, m.Respects p.hierarchy c d := by
  constructor
  · intro hcovers m hm f hf hbody q hq
    exact hcovers q.1 q.2 ⟨m, hm, f, hf, hbody, hq⟩
  · intro hall v x ⟨m, hm, f, hf, hbody, hx⟩
    exact hall m hm f hf hbody (v, x) hx

/-- Narrowing of types is sound. If in a run all that the frames of a body hold conforms to the
types of the body, and no step casts a number or assumes of null that it is not, then all of it
conforms to the narrowed types, whichever values the narrowing starts from. -/
theorem respects_narrow (ha : p.hierarchy.Acyclic)
    (hroot : p.hierarchy.class? rootType = some Class.root) (hc : c.Edited)
    (hvalid : c.violations = .ok []) (haffected : ∀ v ∈ affected, c.HasValue v)
    (hrespects : ∀ m ∈ p.statesOf limit method arguments, m.Respects p.hierarchy c c)
    (hsane : ∀ m ∈ (p.statesOf limit method arguments).dropLast, m.Sane c) :
    ∃ narrowed d, c.narrow p.hierarchy affected = .ok (narrowed, d) ∧
      ∀ m ∈ p.statesOf limit method arguments, m.Respects p.hierarchy c d := by
  have hrecorded : c.Recorded := hc.recorded
  have hsingle := Body.singleAssignment_of_valid hrecorded.toGrounded hvalid
  obtain ⟨⟨narrowed, d⟩, hnarrow⟩ :=
    (Body.narrow_cases hrecorded haffected).resolve_right
      fun hnot => hnot.2.2 ⟨ha, Hierarchy.supertypes_of_class? hroot⟩
  refine ⟨narrowed, d, hnarrow, covers_holdsIn_iff.1 ?_⟩
  exact (covers_holdsIn_iff.2 hrespects).narrow hroot hrecorded
    (fun v x => explains_of_holdsIn hrecorded hsingle hsane) hnarrow

/-- A class and its subclass. -/
def subclassOnly : Hierarchy :=
  { defined := [
      { name := "A", superclass := some rootType },
      { name := "B", superclass := some "A" }] }

/-- A loop in which an object of the subclass is cast to it once more. -/
def castInLoop : List DraftStep :=
  [.newBlock, .newBlock, .newBlock, .create ⟨0⟩ "B", .number ⟨0⟩ 1, .goto ⟨0⟩ ⟨1⟩,
    .phi ⟨1⟩ (.ofClass "A" .maybe) [(⟨0⟩, ⟨0⟩), (⟨2⟩, ⟨4⟩)],
    .phi ⟨1⟩ (.primitive .int) [(⟨0⟩, ⟨1⟩), (⟨2⟩, ⟨5⟩)], .branch ⟨1⟩ ⟨3⟩ ⟨2⟩ ⟨3⟩,
    .cast ⟨2⟩ ⟨2⟩ "B", .number ⟨2⟩ 0, .goto ⟨2⟩ ⟨1⟩, .assumeNonNull ⟨3⟩ ⟨2⟩ none,
    .ret ⟨3⟩ (some ⟨6⟩)]

/-- The program that executes nothing but the body. -/
def running (c : Body) : Program :=
  { hierarchy := subclassOnly, entry := c.method, bodies := [c] }

/-- After narrowing, the object is taken to be of the subclass and not null, and so it is. -/
theorem respects_narrow_castInLoop :
    ∃ made c, Body.ofSteps (.plain "A" "g") castInLoop = .ok (made, c) ∧
      c.violations = .ok [] ∧ ((running c).statesOf 20 c.method []).length = 10 ∧
      (∀ m ∈ (running c).statesOf 20 c.method [], m.Respects subclassOnly c c) ∧
      (∀ m ∈ ((running c).statesOf 20 c.method []).dropLast, m.Sane c) ∧
      ∃ narrowed d, c.narrow subclassOnly (.ofList [⟨2⟩]) = .ok (narrowed, d) ∧
        narrowed.toList = [⟨2⟩, ⟨6⟩] ∧
        ∀ m ∈ (running c).statesOf 20 c.method [], m.Respects subclassOnly c d := by
  have ha : subclassOnly.Acyclic :=
    Hierarchy.acyclic_of_rank (fun t => if t = rootType then 2 else if t = "A" then 1 else 0)
      (by decide +kernel)
  have hroot : subclassOnly.class? rootType = some Class.root := by decide +kernel
  obtain ⟨made, c, hwritten, hvalid, hlength, hvalue, hrespects, hsane, narrowed, d, hnarrow,
      hlist⟩ :
      ∃ made c, Body.ofSteps (.plain "A" "g") castInLoop = .ok (made, c) ∧ c.violations = .ok [] ∧
        ((running c).statesOf 20 c.method []).length = 10 ∧ c.HasValue ⟨2⟩ ∧
        (∀ m ∈ (running c).statesOf 20 c.method [], m.Respects subclassOnly c c) ∧
        (∀ m ∈ ((running c).statesOf 20 c.method []).dropLast, m.Sane c) ∧
        ∃ narrowed d, c.narrow subclassOnly (.ofList [⟨2⟩]) = .ok (narrowed, d) ∧
          narrowed.toList = [⟨2⟩, ⟨6⟩] := by
    decide +kernel
  have haffected : ∀ v ∈ OrderedSet.ofList [⟨2⟩], c.HasValue v := by
    simpa [OrderedSet.ofList, ← OrderedSet.mem_toList (s := ∅)] using hvalue
  obtain ⟨narrowed', d', hnarrow', hafter⟩ :=
    respects_narrow (p := running c) ha hroot (.written hwritten) hvalid haffected hrespects hsane
  obtain ⟨rfl, rfl⟩ := Prod.mk.inj (Except.ok.inj (hnarrow.symm.trans hnarrow'))
  exact ⟨made, c, hwritten, hvalid, hlength, hrespects, hsane, narrowed, d, hnarrow, hlist, hafter⟩

end Program

end Devirt
