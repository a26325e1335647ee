/-! When steps that may fail come to a result. -/

namespace Except

variable {ε ε' α β : Type}

@[simp] theorem ok_bind (a : α) (f : α → Except ε β) : (ok a >>= f) = f a := rfl

theorem bind_eq_ok_iff {x : Except ε α} {f : α → Except ε β} {b : β} :
    (x >>= f) = .ok b ↔ ∃ a, x = .ok a ∧ f a = .ok b := by
  cases x with
  | error e => simp [bind, Except.bind]
  | ok a => simp [bind, Except.bind]

theorem bind_eq_error_iff {x : Except ε α} {f : α → Except ε β} {e : ε} :
    (x >>= f) = .error e ↔ x = .error e ∨ ∃ a, x = .ok a ∧ f a = .error e := by
  cases x with
  | error e' => simp [bind, Except.bind]
  | ok a => simp [bind, Except.bind]

@[simp] theorem mapError_ok (f : ε → ε') (a : α) : (ok a : Except ε α).mapError f = ok a := rfl

@[simp] theorem mapError_error (f : ε → ε') (e : ε) :
    (error e : Except ε α).mapError f = error (f e) := rfl

theorem mapError_eq_ok_iff {f : ε → ε'} {x : Except ε α} {a : α} :
    x.mapError f = .ok a ↔ x = .ok a := by
  cases x with
  | error e => simp
  | ok b => simp

theorem map_eq_ok_iff {f : α → β} {x : Except ε α} {b : β} :
    x.map f = .ok b ↔ ∃ a, x = .ok a ∧ f a = b := by
  cases x with
  | error e => simp [Except.map]
  | ok a => simp [Except.map]

theorem mapM_eq_ok {f : α → Except ε β} {g : α → β} {xs : List α}
    (h : ∀ x ∈ xs, f x = .ok (g x)) : xs.mapM f = .ok (xs.map g) := by
  induction xs with
  | nil => rfl
  | cons x xs ih =>
    have hrest : xs.mapM f = .ok (xs.map g) := ih fun y hy => h y (by simp [hy])
    rw [List.mapM_cons, h x (by simp), hrest]
    rfl

/-- A run over a list fails as one of its steps does. -/
theorem exists_of_mapM_eq_error {f : α → Except ε β} {xs : List α} {e : ε}
    (h : xs.mapM f = .error e) : ∃ x ∈ xs, f x = .error e := by
  induction xs with
  | nil => cases h
  | cons x xs ih =>
    rw [List.mapM_cons] at h
    cases hx : f x with
    | error e' =>
      rw [hx] at h
      cases h
      exact ⟨x, by simp, hx⟩
    | ok y =>
      cases hrest : xs.mapM f with
      | error e' =>
        rw [hx, hrest] at h
        cases h
        obtain ⟨z, hz, hfails⟩ := ih hrest
        exact ⟨z, by simp [hz], hfails⟩
      | ok ys =>
        rw [hx, hrest] at h
        cases h

theorem exists_of_mapM_eq_ok {f : α → Except ε β} {xs : List α} {ys : List β}
    (h : xs.mapM f = .ok ys) : ∀ x ∈ xs, ∃ y, f x = .ok y := by
  induction xs generalizing ys with
  | nil => simp
  | cons x xs ih =>
    rw [List.mapM_cons] at h
    obtain ⟨y, hy, h⟩ := bind_eq_ok_iff.mp h
    obtain ⟨zs, hzs, -⟩ := bind_eq_ok_iff.mp h
    intro z hz
    rcases List.mem_cons.mp hz with rfl | hz
    · exact ⟨y, hy⟩
    · exact ih hzs z hz

/-- What a run over a list comes to holds what its steps come to. -/
theorem mem_of_mapM_eq_ok {f : α → Except ε β} {xs : List α} {ys : List β}
    (h : xs.mapM f = .ok ys) (y : β) : y ∈ ys ↔ ∃ x ∈ xs, f x = .ok y := by
  induction xs generalizing ys with
  | nil =>
    cases h
    simp
  | cons x xs ih =>
    rw [List.mapM_cons] at h
    obtain ⟨z, hz, h⟩ := bind_eq_ok_iff.mp h
    obtain ⟨zs, hzs, h⟩ := bind_eq_ok_iff.mp h
    cases h
    simp [ih hzs, hz, eq_comm (a := y)]

theorem exists_mapM_iff {f : α → Except ε β} {xs : List α} :
    (∃ ys, xs.mapM f = .ok ys) ↔ ∀ x ∈ xs, ∃ y, f x = .ok y := by
  constructor
  · rintro ⟨ys, h⟩
    exact exists_of_mapM_eq_ok h
  · intro h
    cases hrun : xs.mapM f with
    | ok ys => exact ⟨ys, rfl⟩
    | error e =>
      obtain ⟨x, hx, hfails⟩ := exists_of_mapM_eq_error hrun
      obtain ⟨y, hy⟩ := h x hx
      cases hfails.symm.trans hy

/-- The steps come to an error. -/
def Fails (x : Except ε α) : Prop := ∃ e, x = .error e

@[simp] theorem fails_error (e : ε) : (error e : Except ε α).Fails := ⟨e, rfl⟩

@[simp] theorem not_fails_ok (a : α) : ¬(ok a : Except ε α).Fails := by
  rintro ⟨e, h⟩
  cases h

theorem not_fails_of_eq_ok {x : Except ε α} {a : α} (h : x = .ok a) : ¬x.Fails := by
  rw [h]
  exact not_fails_ok a

theorem not_fails_iff {x : Except ε α} : ¬x.Fails ↔ ∃ a, x = .ok a := by
  cases x with
  | error e => simp
  | ok a => simp

theorem fails_bind_iff {x : Except ε α} {f : α → Except ε β} :
    (x >>= f).Fails ↔ x.Fails ∨ ∃ a, x = .ok a ∧ (f a).Fails := by
  cases x with
  | error e => simp [bind, Except.bind]
  | ok a => simp [bind, Except.bind]

/-- Where a step fails no matter what was come to before it. -/
theorem fails_bind_iff_of_forall {x : Except ε α} {f : α → Except ε β} {p : Prop}
    (h : ∀ a, (f a).Fails ↔ p) : (x >>= f).Fails ↔ x.Fails ∨ p := by
  cases x with
  | error e => simp [bind, Except.bind]
  | ok a => simp [bind, Except.bind, h]

@[simp] theorem fails_map_iff {x : Except ε α} {g : α → β} : (g <$> x).Fails ↔ x.Fails := by
  cases x with
  | error e => simp [Functor.map, Except.map]
  | ok a => simp [Functor.map, Except.map]

theorem fails_bind_pure_iff {x : Except ε α} {g : α → β} :
    (x >>= fun a => pure (g a)).Fails ↔ x.Fails := by
  rw [bind_pure_comp, fails_map_iff]

theorem fails_mapError_iff {f : ε → ε'} {x : Except ε α} : (x.mapError f).Fails ↔ x.Fails := by
  cases x with
  | error e => simp
  | ok a => simp

theorem fails_mapM_iff {f : α → Except ε β} {xs : List α} :
    (xs.mapM f).Fails ↔ ∃ x ∈ xs, (f x).Fails := by
  constructor
  · rintro ⟨e, h⟩
    obtain ⟨x, hx, hfails⟩ := exists_of_mapM_eq_error h
    exact ⟨x, hx, e, hfails⟩
  · rintro ⟨x, hx, hfails⟩
    cases hrun : xs.mapM f with
    | error e => exact ⟨e, rfl⟩
    | ok ys =>
      obtain ⟨y, hy⟩ := exists_of_mapM_eq_ok hrun x hx
      exact absurd hfails (not_fails_of_eq_ok hy)

/-- Where the steps fail no matter what was come to before them. -/
theorem fails_foldlM_iff {f : β → α → Except ε β} {p : α → Prop} (h : ∀ b x, (f b x).Fails ↔ p x)
    {xs : List α} {b : β} : (xs.foldlM f b).Fails ↔ ∃ x ∈ xs, p x := by
  induction xs generalizing b with
  | nil => simp [pure, Except.pure]
  | cons x xs ih =>
    rw [List.foldlM_cons]
    cases hb : f b x with
    | error e =>
      have hx : p x := (h b x).mp ⟨e, hb⟩
      simp [bind, Except.bind, hx]
    | ok b' =>
      have hx : ¬p x := fun hx => not_fails_of_eq_ok hb ((h b x).mpr hx)
      simp [bind, Except.bind, ih, hx]

instance decidableEqError [DecidableEq ε] (x : Except ε α) (e : ε) : Decidable (x = .error e) :=
  match x with
  | .error e' => decidable_of_iff (e' = e) (by simp)
  | .ok _ => .isFalse (by simp)

theorem eq_ok_of_toOption {x : Except ε α} {a : α} (h : x.toOption = some a) : x = .ok a := by
  cases x with
  | error e => cases h
  | ok b =>
    cases h
    rfl

theorem exists_of_toOption_map {x : Except ε α} {f : α → β} {b : β} (h : x.toOption.map f = some b) :
    ∃ a, x = .ok a ∧ f a = b := by
  cases x with
  | error e => cases h
  | ok a => exact ⟨a, rfl, Option.some.inj h⟩

end Except
