/-!
# Fuel-bounded loops that may throw

Generic results about `while` loops whose body may throw an exception.
A loop is run for at most `fuel` iterations; `Run.outOfFuel` is the result of a
loop that is still going when the fuel is used up. More fuel never changes the
result of a loop that has ended (`loop_fuel_mono`), and a loop that ends does so at
one of its heads (`exists_head_of_loop`).
-/

/-- The result of a computation that may throw `ε` and whose loops are bounded by fuel. -/
inductive Run (ε : Type) (α : Type) where
  /-- The computation ended normally. -/
  | returns (value : α)
  /-- An exception left the computation. -/
  | throws (exn : ε)
  /-- A loop used up its fuel. -/
  | outOfFuel
  deriving DecidableEq, Repr

namespace Run

variable {ε α β σ : Type}

/-- Sequencing: only a normal result reaches the continuation. -/
def bind (r : Run ε α) (f : α → Run ε β) : Run ε β :=
  match r with
  | .returns a => f a
  | .throws e => .throws e
  | .outOfFuel => .outOfFuel

instance : Monad (Run ε) where
  pure := .returns
  bind := Run.bind

/-- A loop-free computation as a run. -/
def ofExcept : Except ε α → Run ε α
  | .ok a => .returns a
  | .error e => .throws e

@[simp] theorem ofExcept_ok (a : α) : (ofExcept (.ok a) : Run ε α) = .returns a := rfl

@[simp] theorem ofExcept_error (e : ε) : (ofExcept (.error e) : Run ε α) = .throws e := rfl

@[simp] theorem ofExcept_eq_returns {x : Except ε α} {a : α} :
    ofExcept x = .returns a ↔ x = .ok a := by
  cases x <;> simp

@[simp] theorem pure_eq (a : α) : (pure a : Run ε α) = .returns a := rfl

@[simp] theorem returns_bind (a : α) (f : α → Run ε β) : (Run.returns a >>= f) = f a := rfl

@[simp] theorem throws_bind (e : ε) (f : α → Run ε β) :
    ((Run.throws e : Run ε α) >>= f) = .throws e := rfl

@[simp] theorem outOfFuel_bind (f : α → Run ε β) :
    ((Run.outOfFuel : Run ε α) >>= f) = .outOfFuel := rfl

@[simp] theorem ofExcept_pure (a : α) : (ofExcept (pure a) : Run ε α) = .returns a := rfl

/-- Loop-free computations are sequenced in either form. -/
@[simp] theorem ofExcept_bind (x : Except ε α) (f : α → Except ε β) :
    ofExcept (x >>= f) = ofExcept x >>= fun a => ofExcept (f a) := by
  cases x with
  | ok a => rfl
  | error e => rfl

theorem bind_assoc {γ : Type} (r : Run ε α) (f : α → Run ε β) (g : β → Run ε γ) :
    (r >>= f) >>= g = r >>= fun a => f a >>= g := by
  cases r with
  | returns a => rfl
  | throws e => rfl
  | outOfFuel => rfl

/-- If `r >>= f` returns `b`, then `r` returned and `f` maps its value to `b`. -/
theorem bind_eq_returns {r : Run ε α} {f : α → Run ε β} {b : β}
    (h : (r >>= f) = .returns b) : ∃ a, r = .returns a ∧ f a = .returns b := by
  cases r with
  | returns a => exact ⟨a, rfl, h⟩
  | throws e => exact nomatch h
  | outOfFuel => exact nomatch h

/-! ## Loops -/

/-- Run `body` from `s` until it answers `.done`, for at most `fuel` iterations. -/
def loop (body : σ → Run ε (ForInStep σ)) : Nat → σ → Run ε σ
  | 0, _ => .outOfFuel
  | fuel + 1, s =>
    match body s with
    | .returns (.done s') => .returns s'
    | .returns (.yield s') => loop body fuel s'
    | .throws e => .throws e
    | .outOfFuel => .outOfFuel

section Loop

variable {body : σ → Run ε (ForInStep σ)} {s s' : σ}

theorem loop_done (fuel : Nat) (h : body s = .returns (.done s')) :
    loop body (fuel + 1) s = .returns s' := by
  simp only [loop, h]

theorem loop_yield (fuel : Nat) (h : body s = .returns (.yield s')) :
    loop body (fuel + 1) s = loop body fuel s' := by
  simp only [loop, h]

theorem loop_throws (fuel : Nat) {e : ε} (h : body s = .throws e) :
    loop body (fuel + 1) s = .throws e := by
  simp only [loop, h]

/-- More fuel does not change the result of a loop that has ended. -/
theorem loop_fuel_mono {r : Run ε σ} {fuel fuel' : Nat} (hle : fuel ≤ fuel')
    (h : loop body fuel s = r) (hr : r ≠ .outOfFuel) : loop body fuel' s = r := by
  induction fuel generalizing s fuel' with
  | zero => exact absurd h.symm hr
  | succ n ih =>
    obtain ⟨m, rfl⟩ : ∃ m, fuel' = m + 1 := ⟨fuel' - 1, by omega⟩
    unfold loop at h ⊢
    split at h
    · exact h
    · exact ih (by omega) h
    · exact h
    · exact absurd h.symm hr

/-- The states in which a loop from `s` comes to the head of its body. -/
inductive Heads (body : σ → Run ε (ForInStep σ)) (s : σ) : σ → Prop where
  | start : Heads body s s
  | next {s₁ s₂ : σ} (h : Heads body s s₁) (hbody : body s₁ = .returns (.yield s₂)) :
      Heads body s s₂

/-- The heads after the first iteration are heads. -/
theorem Heads.of_yield {s₁ : σ} (hbody : body s = .returns (.yield s')) (h : Heads body s' s₁) :
    Heads body s s₁ := by
  induction h with
  | start => exact .next .start hbody
  | next _ hbody' ih => exact .next ih hbody'

/-- A loop that ends does so at one of its heads. -/
theorem exists_head_of_loop {fuel : Nat} (h : loop body fuel s = .returns s') :
    ∃ s₁, Heads body s s₁ ∧ body s₁ = .returns (.done s') := by
  induction fuel generalizing s with
  | zero => exact nomatch h
  | succ fuel ih =>
    unfold loop at h
    split at h
    · rename_i s₁ hbody
      obtain rfl := Run.returns.inj h
      exact ⟨s, .start, hbody⟩
    · rename_i s₁ hbody
      obtain ⟨s₂, hheads, hdone⟩ := ih h
      exact ⟨s₂, .of_yield hbody hheads, hdone⟩
    · exact nomatch h
    · exact nomatch h

/-- A loop that ends in `s'` with the `n`-th iteration. -/
inductive Takes (body : σ → Run ε (ForInStep σ)) : Nat → σ → σ → Prop where
  | done {s s' : σ} (h : body s = .returns (.done s')) : Takes body 1 s s'
  | yield {n : Nat} {s s₁ s' : σ} (hbody : body s = .returns (.yield s₁))
      (h : Takes body n s₁ s') : Takes body (n + 1) s s'

/-- The number of iterations of a loop, of which there are at most `fuel`. -/
def iterations (body : σ → Run ε (ForInStep σ)) : Nat → σ → Nat
  | 0, _ => 0
  | fuel + 1, s =>
    match body s with
    | .returns (.yield s') => iterations body fuel s' + 1
    | _ => 1

theorem Takes.iterations_eq {n fuel : Nat} (h : Takes body n s s') (hfuel : n ≤ fuel) :
    iterations body fuel s = n := by
  induction h generalizing fuel with
  | done hbody =>
    obtain ⟨m, rfl⟩ : ∃ m, fuel = m + 1 := ⟨fuel - 1, by omega⟩
    simp only [iterations, hbody]
  | yield hbody _ ih =>
    obtain ⟨m, rfl⟩ : ∃ m, fuel = m + 1 := ⟨fuel - 1, by omega⟩
    simp only [iterations, hbody]
    rw [ih (by omega)]

/-- The fuel of a loop bounds the number of its iterations. -/
theorem loop_eq_returns_iff {fuel : Nat} :
    loop body fuel s = .returns s' ↔ ∃ n, n ≤ fuel ∧ Takes body n s s' := by
  constructor
  · intro h
    induction fuel generalizing s with
    | zero => exact nomatch h
    | succ fuel ih =>
      unfold loop at h
      split at h
      · rename_i s₁ hbody
        obtain rfl := Run.returns.inj h
        exact ⟨1, by omega, .done hbody⟩
      · rename_i s₁ hbody
        obtain ⟨n, hn, htakes⟩ := ih h
        exact ⟨n + 1, by omega, .yield hbody htakes⟩
      · exact nomatch h
      · exact nomatch h
  · intro h
    obtain ⟨n, hn, htakes⟩ := h
    induction htakes generalizing fuel with
    | done hbody =>
      obtain ⟨m, rfl⟩ : ∃ m, fuel = m + 1 := ⟨fuel - 1, by omega⟩
      exact loop_done m hbody
    | yield hbody _ ih =>
      obtain ⟨m, rfl⟩ : ∃ m, fuel = m + 1 := ⟨fuel - 1, by omega⟩
      rw [loop_yield m hbody]
      exact ih (by omega)

/-- The number of iterations is determined. -/
theorem Takes.unique {n m : Nat} {s'' : σ} (h : Takes body n s s') (h' : Takes body m s s'') :
    n = m ∧ s' = s'' := by
  induction h generalizing m with
  | done hbody =>
    cases h' with
    | done hbody' => simpa [hbody] using hbody'
    | yield hbody' => cases hbody.symm.trans hbody'
  | yield hbody _ ih =>
    cases h' with
    | done hbody' => cases hbody.symm.trans hbody'
    | yield hbody' h' =>
      obtain rfl : _ = _ := by simpa [hbody] using hbody'
      obtain ⟨rfl, rfl⟩ := ih h'
      exact ⟨rfl, rfl⟩

end Loop

end Run
