import CcJson.ForStd.Run

/-!
# Simulations of runs

`Run.Sim tolerated R r r'` says that `r'` does what `r` does, as far as `r` gets: they
return values related by `R`, or throw the same exception. Nothing is said when `r` is
out of fuel or throws an exception that is `tolerated`. Simulations are composed along
`>>=` (`Sim.bind`) and along loops with related bodies (`Sim.loop`), where the second
loop may have more fuel.
-/

namespace Run

variable {ε α β γ δ σ τ : Type}

/-- The run `r` is simulated by `r'`, with results related by `R`. -/
inductive Sim (tolerated : ε → Prop) (R : α → β → Prop) : Run ε α → Run ε β → Prop where
  | returns {a : α} {b : β} (h : R a b) : Sim tolerated R (.returns a) (.returns b)
  | throws (e : ε) : Sim tolerated R (.throws e) (.throws e)
  | tolerated {e : ε} (h : tolerated e) (r' : Run ε β) : Sim tolerated R (.throws e) r'
  | outOfFuel (r' : Run ε β) : Sim tolerated R .outOfFuel r'

section Rules

variable {tolerated : ε → Prop} {R : α → β → Prop} {r : Run ε α} {r' : Run ε β}

/-- A run that returns is simulated by one that returns. -/
theorem Sim.exists_returns (h : Sim tolerated R r r') {a : α} (hr : r = .returns a) :
    ∃ b, r' = .returns b ∧ R a b := by
  subst hr
  cases h with
  | returns h => exact ⟨_, rfl, h⟩

/-- Every run simulates itself. -/
theorem Sim.refl (r : Run ε α) : Sim tolerated Eq r r := by
  cases r with
  | returns a => exact .returns rfl
  | throws e => exact .throws e
  | outOfFuel => exact .outOfFuel _

theorem Sim.mono {R' : α → β → Prop} (h : Sim tolerated R r r') (hR : ∀ a b, R a b → R' a b) :
    Sim tolerated R' r r' := by
  cases h with
  | returns h => exact .returns (hR _ _ h)
  | throws e => exact .throws e
  | tolerated h => exact .tolerated h _
  | outOfFuel => exact .outOfFuel _

/-- A run simulates what it is mapped from. -/
theorem Sim.map_left {f : β → α} (r : Run ε β) (hf : ∀ b, R (f b) b) :
    Sim tolerated R (r >>= fun b => .returns (f b)) r := by
  cases r with
  | returns b => exact .returns (hf b)
  | throws e => exact .throws e
  | outOfFuel => exact .outOfFuel _

/-- A run simulates what it is mapped to. -/
theorem Sim.map_right {f : α → β} (r : Run ε α) (hf : ∀ a, R a (f a)) :
    Sim tolerated R r (r >>= fun a => .returns (f a)) := by
  cases r with
  | returns a => exact .returns (hf a)
  | throws e => exact .throws e
  | outOfFuel => exact .outOfFuel _

/-- A simulation in which nothing is tolerated, of a run that comes to its end, goes both ways. -/
theorem Sim.symm (h : Sim (fun _ => False) R r r') (hr : r ≠ .outOfFuel) :
    Sim (fun _ => False) (fun b a => R a b) r' r := by
  cases h with
  | returns h => exact .returns h
  | throws e => exact .throws e
  | tolerated h => exact h.elim
  | outOfFuel => exact absurd rfl hr

/-- Runs in a sequence. -/
theorem Sim.bind {S : γ → δ → Prop} {f : α → Run ε γ} {g : β → Run ε δ}
    (h : Sim tolerated R r r') (hfg : ∀ a b, R a b → Sim tolerated S (f a) (g b)) :
    Sim tolerated S (r >>= f) (r' >>= g) := by
  cases h with
  | returns h => exact hfg _ _ h
  | throws e => exact .throws e
  | tolerated h => exact .tolerated h _
  | outOfFuel => exact .outOfFuel _

/-- Two runs that simulate each other have the same result, as far as it can be observed. -/
theorem Sim.map_eq {o : Type} {f : α → o} {g : β → o}
    (h : Sim (fun _ => False) (fun a b => f a = g b) r r')
    (h' : Sim (fun _ => False) (fun b a => g b = f a) r' r) :
    (r >>= fun a => .returns (f a)) = (r' >>= fun b => .returns (g b)) := by
  cases h with
  | returns h => exact congrArg Run.returns h
  | throws e => rfl
  | tolerated h => exact h.elim
  | outOfFuel =>
    -- the second run is simulated by one that is out of fuel
    cases h' with
    | tolerated h => exact h.elim
    | outOfFuel => rfl

end Rules

/-! ## Loops -/

/-- Both iterations are the last ones, or both loops go on. -/
inductive StepRel (S : σ → τ → Prop) : ForInStep σ → ForInStep τ → Prop where
  | done {s : σ} {t : τ} (h : S s t) : StepRel S (.done s) (.done t)
  | yield {s : σ} {t : τ} (h : S s t) : StepRel S (.yield s) (.yield t)

/-- Loops whose bodies keep the states related. -/
theorem Sim.loop {tolerated : ε → Prop} {S : σ → τ → Prop} {body : σ → Run ε (ForInStep σ)}
    {body' : τ → Run ε (ForInStep τ)}
    (hbody : ∀ s t, S s t → Sim tolerated (StepRel S) (body s) (body' t)) {fuel fuel' : Nat}
    (hfuel : fuel ≤ fuel') {s : σ} {t : τ} (h : S s t) :
    Sim tolerated S (Run.loop body fuel s) (Run.loop body' fuel' t) := by
  induction fuel generalizing fuel' s t with
  | zero => exact .outOfFuel _
  | succ fuel ih =>
    obtain ⟨n, rfl⟩ : ∃ n, fuel' = n + 1 := ⟨fuel' - 1, by omega⟩
    have hstep := hbody s t h
    unfold Run.loop
    generalize body s = r at hstep
    generalize body' t = r' at hstep
    cases hstep with
    | returns hstep =>
      cases hstep with
      | done h => exact .returns h
      | yield h => exact ih (by omega) h
    | throws e => exact .throws e
    | tolerated h => exact .tolerated h _
    | outOfFuel => exact .outOfFuel _

end Run
