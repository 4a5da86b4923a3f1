import Formula.Segment

/-! # Rules for recorded computations

A recorded computation is run by giving it a record. The rules for `>>=` say what happens after its
first half ended one way or the other. A computation is *steady* if its outcome is the same on every
record.
-/

namespace Formula.Recorded

variable {σ α β : Type}

/-! ## Running -/

@[simp]
theorem pure_apply (a : α) (r : σ) : (pure a : Recorded σ α) r = (.ok a, r) := rfl

@[simp]
theorem ofExcept_apply (x : Except Error α) (r : σ) : (ofExcept x : Recorded σ α) r = (x, r) := rfl

@[simp]
theorem shifted_apply_fst (distance : Nat) (x : Recorded σ α) (r : σ) :
    (x.shifted distance r).1 = (x r).1.mapError (·.shifted distance) := rfl

/-- A function of the result leaves the record as it is. -/
theorem map_apply (f : α → β) (x : Recorded σ α) (r : σ) :
    (f <$> x) r = ((x r).1.map f, (x r).2) := by
  rw [map_eq_pure_bind]
  simp only [bind, ExceptT.bind, ExceptT.mk, StateT.bind]
  rcases x r with ⟨outcome, r'⟩
  cases outcome <;> rfl

theorem map_ofExcept (f : α → β) (x : Except Error α) :
    f <$> (ofExcept x : Recorded σ α) = ofExcept (x.map f) := by
  funext r
  rw [map_apply, ofExcept_apply, ofExcept_apply]

/-- After a success the second half runs on the record left by the first. -/
theorem bind_of_ok {x : Recorded σ α} {f : α → Recorded σ β} {r r' : σ} {a : α}
    (h : x r = (.ok a, r')) : (x >>= f) r = f a r' := by
  simp [bind, ExceptT.bind, ExceptT.mk, StateT.bind, h, ExceptT.bindCont]

/-- After a failure the second half does not run. -/
theorem bind_of_error {x : Recorded σ α} {f : α → Recorded σ β} {r r' : σ} {e : Error}
    (h : x r = (.error e, r')) : (x >>= f) r = (.error e, r') := by
  simp only [bind, ExceptT.bind, ExceptT.mk, StateT.bind, h, ExceptT.bindCont]
  rfl

/-- The outcome of a sequence whose first half succeeds is that of its second. -/
theorem bind_fst_of_ok {x : Recorded σ α} {f : α → Recorded σ β} {r : σ} {a : α}
    (h : (x r).1 = .ok a) : ((x >>= f) r).1 = (f a (x r).2).1 := by
  rcases hx : x r with ⟨outcome, r'⟩
  rw [hx] at h
  simp only at h
  subst h
  rw [bind_of_ok hx]

/-- A sequence that succeeds is one of two successes. -/
theorem bind_eq_ok {x : Recorded σ α} {f : α → Recorded σ β} {r : σ} {b : β}
    (h : ((x >>= f) r).1 = .ok b) :
    ∃ a r', x r = (.ok a, r') ∧ (f a r').1 = .ok b := by
  rcases hx : x r with ⟨outcome, r'⟩
  cases outcome with
  | error e =>
    rw [bind_of_error hx] at h
    cases h
  | ok a =>
    rw [bind_of_ok hx] at h
    exact ⟨a, r', rfl, h⟩

theorem map_eq_ok {x : Recorded σ α} {f : α → β} {r : σ} {b : β} (h : ((f <$> x) r).1 = .ok b) :
    ∃ a, (x r).1 = .ok a ∧ f a = b := by
  rw [map_eq_pure_bind] at h
  rcases bind_eq_ok h with ⟨a, r', hx, hb⟩
  exact ⟨a, by rw [hx], by simpa using hb⟩

/-- A sequence fails in its first half or in its second. -/
theorem bind_eq_error {x : Recorded σ α} {f : α → Recorded σ β} {r : σ} {e : Error}
    (h : ((x >>= f) r).1 = .error e) :
    (x r).1 = .error e ∨ ∃ a r', x r = (.ok a, r') ∧ (f a r').1 = .error e := by
  rcases hx : x r with ⟨outcome, r'⟩
  cases outcome with
  | error e' =>
    rw [bind_of_error hx] at h
    cases h
    exact Or.inl rfl
  | ok a =>
    rw [bind_of_ok hx] at h
    exact Or.inr ⟨a, r', rfl, h⟩

/-- An error of a moved computation is a moved error. -/
theorem shifted_eq_error {x : Recorded σ α} {distance : Nat} {r : σ} {e : Error}
    (h : (x.shifted distance r).1 = .error e) :
    ∃ e', (x r).1 = .error e' ∧ e = e'.shifted distance := by
  rw [shifted_apply_fst] at h
  cases hx : (x r).1 with
  | ok a =>
    rw [hx] at h
    cases h
  | error e' =>
    rw [hx] at h
    cases h
    exact ⟨e', rfl, rfl⟩

/-- Moving errors leaves successes alone. -/
theorem shifted_eq_ok {x : Recorded σ α} {distance : Nat} {r r' : σ} {a : α} :
    x.shifted distance r = (.ok a, r') ↔ x r = (.ok a, r') := by
  unfold shifted
  rcases x r with ⟨outcome, r₁⟩
  cases outcome with
  | error e => exact ⟨nofun, nofun⟩
  | ok b => exact Iff.rfl

/-- Errors of a sequence move as those of its halves do. -/
theorem shifted_bind (distance : Nat) (x : Recorded σ α) (f : α → Recorded σ β) :
    (x >>= f).shifted distance = x.shifted distance >>= fun a => (f a).shifted distance := by
  funext r
  rcases hx : x r with ⟨outcome, r'⟩
  have hmoved : x.shifted distance r = (outcome.mapError (·.shifted distance), r') := by
    rw [shifted, hx]
  cases outcome with
  | error e => rw [bind_of_error hmoved, shifted, bind_of_error hx]; rfl
  | ok a => rw [bind_of_ok hmoved, shifted, bind_of_ok hx]; rfl

/-! ## Steady computations -/

/-- The outcome is the same on every record. -/
def Steady (x : Recorded σ α) : Prop :=
  ∀ r r' : σ, (x r).1 = (x r').1

end Formula.Recorded
