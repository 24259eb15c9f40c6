import Mathlib.Data.List.Forall2

/-!
Taking apart computations that may fail. Each lemma says when a composed computation succeeds, in
terms of its parts.
-/

namespace Devirt

variable {ε α β : Type}

instance decidableEqOutcome [DecidableEq ε] [DecidableEq α] : DecidableEq (Except ε α)
  | .ok a, .ok b => decidable_of_iff (a = b) (by simp)
  | .error a, .error b => decidable_of_iff (a = b) (by simp)
  | .ok _, .error _ => isFalse (by simp)
  | .error _, .ok _ => isFalse (by simp)

/-! What a computation that succeeds is said to give can be checked by running it. -/

instance decidableExistsOk (x : Except ε α) (p : α → Prop) [DecidablePred p] :
    Decidable (∃ a, x = .ok a ∧ p a) :=
  match x with
  | .ok a => decidable_of_iff (p a) (by simp)
  | .error _ => isFalse (by simp)

instance decidableExistsOkSome (x : Except ε (Option α)) (p : α → Prop) [DecidablePred p] :
    Decidable (∃ a, x = .ok (some a) ∧ p a) :=
  match x with
  | .ok (some a) => decidable_of_iff (p a) (by simp)
  | .ok none => isFalse (by simp)
  | .error _ => isFalse (by simp)

instance decidableExistsOkPair (x : Except ε (α × β)) (p : α → β → Prop)
    [∀ a b, Decidable (p a b)] : Decidable (∃ a b, x = .ok (a, b) ∧ p a b) :=
  match x with
  | .ok (a, b) => decidable_of_iff (p a b) (by simp)
  | .error _ => isFalse (by simp)

instance decidableExistsOkSnd [DecidableEq α] (x : Except ε (α × β)) (a : α) (p : β → Prop)
    [DecidablePred p] : Decidable (∃ b, x = .ok (a, b) ∧ p b) :=
  match x with
  | .ok (a', b) => decidable_of_iff (a' = a ∧ p b) (by simp)
  | .error _ => isFalse (by simp)

instance decidableForallOk (x : Except ε α) (p : α → Prop) [DecidablePred p] :
    Decidable (∀ a, x = .ok a → p a) :=
  match x with
  | .ok a => decidable_of_iff (p a) (by simp)
  | .error _ => isTrue (by simp)

@[simp] theorem pure_eq_ok (a : α) : (pure a : Except ε α) = .ok a := rfl

@[simp] theorem throw_eq_error (e : ε) : (throw e : Except ε α) = .error e := rfl

@[simp] theorem ok_bind (a : α) (f : α → Except ε β) : (Except.ok a >>= f) = f a := rfl

@[simp] theorem error_bind (e : ε) (f : α → Except ε β) :
    ((Except.error e : Except ε α) >>= f) = .error e := rfl

@[simp] theorem bind_eq_ok {x : Except ε α} {f : α → Except ε β} {b : β} :
    x >>= f = .ok b ↔ ∃ a, x = .ok a ∧ f a = .ok b := by
  cases x <;> simp

@[simp] theorem map_eq_ok {x : Except ε α} {f : α → β} {b : β} :
    f <$> x = .ok b ↔ ∃ a, x = .ok a ∧ f a = b := by
  have hmap : f <$> x = x >>= fun a => .ok (f a) := by cases x <;> rfl
  simp [hmap]

@[simp] theorem mapError_eq_ok {x : Except ε α} {f : ε → β} {a : α} :
    x.mapError f = .ok a ↔ x = .ok a := by
  cases x <;> simp [Except.mapError]

/-- Two computations that look alike fail alike or give results that look alike. -/
theorem map_eq_map_iff {x y : Except ε α} {f : α → β} :
    x.map f = y.map f ↔ (∃ e, x = .error e ∧ y = .error e) ∨
      ∃ a b, x = .ok a ∧ y = .ok b ∧ f a = f b := by
  cases x <;> cases y <;> simp [Except.map, eq_comm]

/-- Lists of results look alike if the results do. -/
theorem map_mapM_congr {γ : Type} {f : β → γ} {g h : α → Except ε β} {l : List α}
    (hgh : ∀ a ∈ l, f <$> g a = f <$> h a) :
    List.map f <$> l.mapM g = List.map f <$> l.mapM h := by
  induction l with
  | nil => rfl
  | cons a l ih =>
    have ih := ih fun b hb => hgh b (List.mem_cons_of_mem _ hb)
    rw [List.mapM_cons, List.mapM_cons]
    rcases map_eq_map_iff.1 (hgh a (by simp)) with ⟨e, ha, ha'⟩ | ⟨b, b', ha, ha', hb⟩
    · rw [ha, ha']
      rfl
    · rw [ha, ha']
      rcases map_eq_map_iff.1 ih with ⟨e, hl, hl'⟩ | ⟨r, r', hl, hl', hr⟩
      · rw [hl, hl']
        rfl
      · rw [hl, hl']
        exact congrArg Except.ok (by rw [List.map_cons, List.map_cons, hb, hr])

/-- Computations that look alike can go on in the same way. -/
theorem bind_congr_of_map {γ : Type} {x y : Except ε α} {f : α → β} {g h : α → Except ε γ}
    (hmap : f <$> y = f <$> x) (hnext : ∀ a b, x = .ok a → y = .ok b → f b = f a → h b = g a) :
    y >>= h = x >>= g := by
  rcases map_eq_map_iff.1 hmap with ⟨e, rfl, rfl⟩ | ⟨b, a, rfl, rfl, hab⟩
  · rfl
  · exact hnext a b rfl rfl hab

theorem mapM_eq_ok {f : α → Except ε β} {l : List α} {r : List β} :
    l.mapM f = .ok r ↔ List.Forall₂ (fun a b => f a = .ok b) l r := by
  induction l generalizing r with
  | nil => simp [eq_comm]
  | cons a l ih =>
    simp only [List.mapM_cons, bind_eq_ok, pure_eq_ok, Except.ok.injEq, ih,
      List.forall₂_cons_left_iff]
    constructor
    · rintro ⟨b, hb, bs, hbs, rfl⟩
      exact ⟨b, bs, hb, hbs, rfl⟩
    · rintro ⟨b, bs, hb, hbs, rfl⟩
      exact ⟨b, hb, bs, hbs, rfl⟩

theorem mapM_eq_ok_map {f : α → Except ε β} {g : α → β} {l : List α}
    (h : ∀ a ∈ l, f a = .ok (g a)) : l.mapM f = .ok (l.map g) := by
  induction l with
  | nil => rfl
  | cons a l ih =>
    simp [List.mapM_cons, h a (by simp), ih fun b hb => h b (List.mem_cons_of_mem _ hb)]

theorem mapM_congr {f g : α → Except ε β} {l : List α} (hfg : ∀ a ∈ l, f a = g a) :
    l.mapM f = l.mapM g := by
  induction l with
  | nil => rfl
  | cons a l ih =>
    rw [List.forall_mem_cons] at hfg
    rw [List.mapM_cons, List.mapM_cons, hfg.1, ih hfg.2]

theorem exists_mapM_eq_ok {f : α → Except ε β} {l : List α} :
    (∃ r, l.mapM f = .ok r) ↔ ∀ a ∈ l, ∃ b, f a = .ok b := by
  induction l with
  | nil => simp
  | cons a l ih =>
    rw [List.forall_mem_cons, ← ih]
    simp only [List.mapM_cons, bind_eq_ok, pure_eq_ok, Except.ok.injEq]
    constructor
    · rintro ⟨r, b, hb, bs, hbs, -⟩
      exact ⟨⟨b, hb⟩, ⟨bs, hbs⟩⟩
    · rintro ⟨⟨b, hb⟩, ⟨bs, hbs⟩⟩
      exact ⟨_, b, hb, bs, hbs, rfl⟩

theorem mem_of_mapM_eq_ok {f : α → Except ε β} {l : List α} {r : List β} (h : l.mapM f = .ok r)
    {b : β} : b ∈ r ↔ ∃ a ∈ l, f a = .ok b := by
  replace h := mapM_eq_ok.1 h
  induction h with
  | nil => simp
  | cons hab _ ih =>
    simp only [List.mem_cons, exists_eq_or_imp, hab, Except.ok.injEq]
    exact or_congr eq_comm ih

theorem getElem?_of_mapM_eq_ok {f : α → Except ε β} {l : List α} {r : List β}
    (h : l.mapM f = .ok r) {n : Nat} {b : β} :
    r[n]? = some b ↔ ∃ a, l[n]? = some a ∧ f a = .ok b := by
  replace h := mapM_eq_ok.1 h
  induction h generalizing n with
  | nil => simp
  | cons hab _ ih =>
    cases n with
    | zero => simp [hab]
    | succ n => simpa using ih

/-- Lists collected for the elements of a list are all empty. -/
theorem mapM_flatten_eq_nil {f : α → Except ε (List β)} {l : List α} :
    (∃ r, l.mapM f = .ok r ∧ r.flatten = []) ↔ ∀ a ∈ l, f a = .ok [] := by
  constructor
  · rintro ⟨r, hr, hnil⟩ a ha
    obtain ⟨n, hn⟩ := List.mem_iff_getElem?.1 ha
    have hlen : n < r.length := by
      rw [← (mapM_eq_ok.1 hr).length_eq]
      exact (List.getElem?_eq_some_iff.1 hn).1
    obtain ⟨a', ha', hfa⟩ := (getElem?_of_mapM_eq_ok hr).1 (List.getElem?_eq_getElem hlen)
    obtain rfl : a = a' := Option.some.inj (hn.symm.trans ha')
    rw [hfa, List.flatten_eq_nil_iff.1 hnil _ (List.getElem_mem hlen)]
  · intro h
    refine ⟨l.map fun _ => [], mapM_eq_ok_map h, ?_⟩
    simp

private theorem filterAuxM_eq_ok_nil {p : α → Except ε Bool} {l acc : List α} :
    l.filterAuxM p acc = .ok [] ↔ acc = [] ∧ ∀ a ∈ l, p a = .ok false := by
  induction l generalizing acc with
  | nil => simp [List.filterAuxM]
  | cons a l ih =>
    simp only [List.filterAuxM, bind_eq_ok, ih, List.forall_mem_cons]
    constructor
    · rintro ⟨b, hb, hacc, hrest⟩
      cases b with
      | true => simp at hacc
      | false => exact ⟨hacc, hb, hrest⟩
    · rintro ⟨hacc, hb, hrest⟩
      exact ⟨false, hb, hacc, hrest⟩

/-- When a filter keeps nothing. -/
theorem filterM_eq_ok_nil {p : α → Except ε Bool} {l : List α} :
    l.filterM p = .ok [] ↔ ∀ a ∈ l, p a = .ok false := by
  simp [List.filterM, filterAuxM_eq_ok_nil]

theorem exists_filterM_eq_ok {p : α → Except ε Bool} {l : List α} (h : ∀ a ∈ l, ∃ b, p a = .ok b) :
    ∃ r, l.filterM p = .ok r := by
  suffices haux : ∀ acc, ∃ r, l.filterAuxM p acc = .ok r by
    obtain ⟨r, hr⟩ := haux []
    exact ⟨r.reverse, by simp [List.filterM, hr]⟩
  induction l with
  | nil => exact fun acc => ⟨acc, rfl⟩
  | cons a l ih =>
    intro acc
    obtain ⟨b, hb⟩ := h a (by simp)
    obtain ⟨r, hr⟩ := ih (fun a' ha' => h a' (List.mem_cons_of_mem _ ha')) (cond b (a :: acc) acc)
    exact ⟨r, by simp [List.filterAuxM, hb, hr]⟩

/-- What every step of a fold keeps, the fold keeps. -/
theorem foldlM_invariant {f : β → α → Except ε β} {l : List α} {b b' : β} (motive : β → Prop)
    (h : l.foldlM f b = .ok b') (hb : motive b)
    (hstep : ∀ a ∈ l, ∀ x y, motive x → f x a = .ok y → motive y) : motive b' := by
  induction l generalizing b with
  | nil =>
    obtain rfl := Except.ok.inj h
    exact hb
  | cons a l ih =>
    simp only [List.foldlM_cons, bind_eq_ok] at h
    obtain ⟨x, hx, h⟩ := h
    exact ih h (hstep a (by simp) b x hb hx) fun a' ha' => hstep a' (List.mem_cons_of_mem _ ha')

/-- An invariant that follows how much of the list a fold has gone through. -/
theorem foldlM_invariant_append {f : β → α → Except ε β} {l : List α} {b b' : β}
    (motive : List α → β → Prop) (h : l.foldlM f b = .ok b') (hb : motive [] b)
    (hstep : ∀ done a rest x y, l = done ++ a :: rest → motive done x → f x a = .ok y →
      motive (done ++ [a]) y) : motive l b' := by
  suffices hrest : ∀ rest done x, l = done ++ rest → motive done x → rest.foldlM f x = .ok b' →
      motive l b' by exact hrest l [] b rfl hb h
  intro rest
  induction rest with
  | nil =>
    intro done x hl hx hfold
    obtain rfl := Except.ok.inj hfold
    rwa [hl, List.append_nil]
  | cons a rest ih =>
    intro done x hl hx hfold
    rw [List.foldlM_cons] at hfold
    obtain ⟨y, hy, hfold⟩ := bind_eq_ok.1 hfold
    exact ih (done ++ [a]) y (by simp [hl]) (hstep done a rest x y hl hx hy) hfold

/-- In a fold that succeeds, every step has been made in a state that the invariant holds of. -/
theorem exists_step_of_foldlM {f : β → α → Except ε β} {l : List α} {b b' : β} (motive : β → Prop)
    (h : l.foldlM f b = .ok b') (hb : motive b)
    (hstep : ∀ a ∈ l, ∀ x y, motive x → f x a = .ok y → motive y) :
    ∀ a ∈ l, ∃ x y, motive x ∧ f x a = .ok y := by
  induction l generalizing b with
  | nil => simp
  | cons a l ih =>
    simp only [List.foldlM_cons, bind_eq_ok] at h
    obtain ⟨x, hx, h⟩ := h
    rw [List.forall_mem_cons]
    exact ⟨⟨b, x, hb, hx⟩, ih h (hstep a (by simp) b x hb hx) fun a' ha' =>
      hstep a' (List.mem_cons_of_mem _ ha')⟩

/-- A composed computation succeeds if its second part does on all that the first part may give. -/
theorem bind_total {x : Except ε α} {f : α → Except ε β} {p : α → Prop} {q : β → Prop}
    (hx : ∃ a, x = .ok a ∧ p a) (hf : ∀ a, p a → ∃ b, f a = .ok b ∧ q b) :
    ∃ b, x >>= f = .ok b ∧ q b := by
  obtain ⟨a, rfl, ha⟩ := hx
  exact hf a ha

/-- A fold succeeds if each of its steps does under an invariant. -/
theorem foldlM_total {f : β → α → Except ε β} {l : List α} {b : β} (motive : β → Prop)
    (hb : motive b) (hstep : ∀ a ∈ l, ∀ x, motive x → ∃ y, f x a = .ok y ∧ motive y) :
    ∃ b', l.foldlM f b = .ok b' ∧ motive b' := by
  induction l generalizing b with
  | nil => exact ⟨b, rfl, hb⟩
  | cons a l ih =>
    obtain ⟨x, hx, hm⟩ := hstep a (by simp) b hb
    obtain ⟨b', hb', hm'⟩ := ih hm fun a' ha' => hstep a' (List.mem_cons_of_mem _ ha')
    exact ⟨b', by simp [List.foldlM_cons, hx, hb'], hm'⟩

end Devirt
