import CcJson.ForStd.Run
import Mathlib.Data.List.Basic

/-!
# Loops that decode a text

A `Code` writes each symbol as a nonempty list of units. A loop over the units reads
one symbol in each iteration and does something with its value; what the loop does to
a text is then what it does to its symbols. A transcoding loop writes the symbol in
another code.

## Key results

- `Code.loop_encode`: a loop over an encoded text folds over its symbols
- `Code.loop_stops`: a loop over any other text throws where the decoder does
- `Code.loop_returns_iff`, `Code.transcode_returns_iff`: a loop ends normally exactly on
  encoded texts
-/

/-- A code for symbols of type `α`, with units of type `β`. A decoder of the code delivers a
    value of type `γ` for each symbol. -/
structure Code (α β γ : Type) where
  encode : α → List β
  value : α → γ
  ne_nil : ∀ a, encode a ≠ []

namespace Code

variable {α β γ ε τ : Type} (C : Code α β γ)

/-- The encoding of a text. -/
def text (as : List α) : List β := as.flatMap C.encode

@[simp] theorem text_nil : C.text [] = [] := rfl

@[simp] theorem text_cons (a : α) (as : List α) : C.text (a :: as) = C.encode a ++ C.text as := rfl

@[simp] theorem text_append (as bs : List α) : C.text (as ++ bs) = C.text as ++ C.text bs :=
  List.flatMap_append

/-- The decoder reads encoded symbols. -/
def Reads (next : List β → Except ε (γ × List β)) : Prop :=
  ∀ a rest, next (C.encode a ++ rest) = .ok (C.value a, rest)

/-- The decoder reads nothing else. -/
def Only (next : List β → Except ε (γ × List β)) : Prop :=
  ∀ {units v rest}, next units = .ok (v, rest) → ∃ a, v = C.value a ∧ units = C.encode a ++ rest

/-- The body of a loop that reads a symbol and goes on with what `act` makes of its value. -/
def body (next : List β → Except ε (γ × List β)) (act : τ → γ → Except ε τ) (s : List β × τ) :
    Run ε (ForInStep (List β × τ)) := do
  if s.1.isEmpty then return .done s
  let (v, rest) ← Run.ofExcept (next s.1)
  let t ← Run.ofExcept (act s.2 v)
  return .yield (rest, t)

section Loop

variable {C} {next : List β → Except ε (γ × List β)} {act : τ → γ → Except ε τ}

/-- One iteration over an encoded symbol. -/
theorem body_encode (hreads : C.Reads next) {a : α} {t t' : τ} (hact : act t (C.value a) = .ok t')
    (rest : List β) :
    body next act (C.encode a ++ rest, t) = .returns (.yield (rest, t')) := by
  have hne : (C.encode a ++ rest).isEmpty = false := by simp [C.ne_nil]
  simp [body, hne, hreads a rest, hact]

/-- The number of units bounds the number of symbols. -/
theorem length_le_length_text (as : List α) : as.length ≤ (C.text as).length := by
  induction as with
  | nil => simp
  | cons a as ih =>
    have := List.length_pos_of_ne_nil (C.ne_nil a)
    simp only [text_cons, List.length_append, List.length_cons]
    omega

/-- A loop over an encoded text does `step` for each of its symbols, and is then in front of
    what comes after it. -/
theorem loop_encode (hreads : C.Reads next) {step : τ → α → τ}
    (hact : ∀ t a, act t (C.value a) = .ok (step t a)) (as : List α) (t : τ) (rest : List β)
    (fuel : Nat) :
    Run.loop (body next act) (as.length + fuel) (C.text as ++ rest, t) =
      Run.loop (body next act) fuel (rest, as.foldl step t) := by
  induction as generalizing t with
  | nil => simp
  | cons a as ih =>
    rw [List.length_cons, Nat.add_right_comm, text_cons, List.append_assoc,
      Run.loop_yield _ (body_encode hreads (hact t a) _), ih]
    rfl

/-- A loop over an encoded text ends normally. -/
theorem loop_text (hreads : C.Reads next) {step : τ → α → τ}
    (hact : ∀ t a, act t (C.value a) = .ok (step t a)) (as : List α) (t : τ) :
    Run.loop (body next act) ((C.text as).length + 1) (C.text as, t) =
      .returns ([], as.foldl step t) := by
  have hle := C.length_le_length_text as
  have hfuel : (C.text as).length + 1 = as.length + ((C.text as).length - as.length + 1) := by
    omega
  have hloop := loop_encode hreads hact as t [] ((C.text as).length - as.length + 1)
  rw [List.append_nil] at hloop
  rw [hfuel, hloop]
  exact Run.loop_done _ rfl

/-- A loop comes to what cannot be decoded, and throws there. -/
theorem loop_stops (hreads : C.Reads next) {step : τ → α → τ}
    (hact : ∀ t a, act t (C.value a) = .ok (step t a)) {as : List α} {t : τ} {rest : List β}
    {e : ε} (hrest : rest ≠ []) (he : next rest = .error e) {fuel : Nat}
    (hfuel : as.length < fuel) :
    Run.loop (body next act) fuel (C.text as ++ rest, t) = .throws e := by
  obtain ⟨n, rfl⟩ : ∃ n, fuel = as.length + (n + 1) := ⟨fuel - as.length - 1, by omega⟩
  rw [loop_encode hreads hact]
  apply Run.loop_throws
  simp [body, hrest, he]

/-- What a decoder of the code reads, and where it stops. -/
theorem exists_split (honly : C.Only next) (units : List β) :
    ∃ as rest, units = C.text as ++ rest ∧ (rest = [] ∨ ∃ e, next rest = .error e) := by
  cases hnext : next units with
  | error e => exact ⟨[], units, rfl, .inr ⟨e, hnext⟩⟩
  | ok out =>
    obtain ⟨v, rest⟩ := out
    obtain ⟨a, -, hunits⟩ := honly hnext
    -- a symbol is not empty, so what follows it is shorter
    have hlt : rest.length < units.length := by
      have := List.length_pos_of_ne_nil (C.ne_nil a)
      rw [hunits, List.length_append]
      omega
    obtain ⟨as, rest', hrest, hstops⟩ := exists_split honly rest
    exact ⟨a :: as, rest', by rw [hunits, hrest, text_cons, List.append_assoc], hstops⟩
termination_by units.length

/-- A loop ends normally exactly on the encoded texts, and has then folded over their symbols. -/
theorem loop_returns_iff (hreads : C.Reads next) (honly : C.Only next) {step : τ → α → τ}
    (hact : ∀ t a, act t (C.value a) = .ok (step t a)) {units : List β} {t : τ}
    {s : List β × τ} :
    Run.loop (body next act) (units.length + 1) (units, t) = .returns s ↔
      ∃ as, units = C.text as ∧ s = ([], as.foldl step t) := by
  constructor
  · intro h
    obtain ⟨as, rest, rfl, hstops⟩ := exists_split honly units
    have hle := C.length_le_length_text as
    by_cases hrest : rest = []
    · subst hrest
      rw [List.append_nil, loop_text hreads hact] at h
      exact ⟨as, List.append_nil _, (Run.returns.inj h).symm⟩
    · obtain ⟨e, he⟩ := hstops.resolve_left hrest
      rw [loop_stops hreads hact hrest he (by rw [List.length_append]; omega)] at h
      exact nomatch h
  · intro h
    obtain ⟨as, rfl, rfl⟩ := h
    exact loop_text hreads hact as t

end Loop

/-! ## Transcoding -/

section Transcoding

variable {δ : Type} {C : Code α β γ} {D : Code α δ γ}
variable {next : List β → Except ε (γ × List β)} {write : List δ → γ → Except ε (List δ)}

/-- `write` appends the symbol with the given value in the code `D`. -/
def Writes (D : Code α δ γ) (write : List δ → γ → Except ε (List δ)) : Prop :=
  ∀ out a, write out (D.value a) = .ok (out ++ D.encode a)

theorem foldl_encode (D : Code α δ γ) (as : List α) (out : List δ) :
    as.foldl (fun out a => out ++ D.encode a) out = out ++ D.text as := by
  induction as generalizing out with
  | nil => simp
  | cons a as ih => rw [List.foldl_cons, ih, text_cons, List.append_assoc]

/-- A loop that reads symbols and writes them in another code. -/
def transcode (next : List β → Except ε (γ × List β)) (write : List δ → γ → Except ε (List δ))
    (units : List β) : Run ε (List δ) := do
  let (_, out) ← Run.loop (body next write) (units.length + 1) (units, [])
  return out

/-- A transcoding loop writes the same text in the other code. -/
theorem transcode_text (hreads : C.Reads next) (hwrites : D.Writes write)
    (hvalue : C.value = D.value) (as : List α) :
    transcode next write (C.text as) = .returns (D.text as) := by
  have hact : ∀ out a, write out (C.value a) = .ok (out ++ D.encode a) := by
    rw [hvalue]
    exact hwrites
  rw [transcode, loop_text hreads hact, foldl_encode]
  rfl

/-- It throws in front of what it cannot read. -/
theorem transcode_stops (hreads : C.Reads next) (hwrites : D.Writes write)
    (hvalue : C.value = D.value) {as : List α} {rest : List β} {e : ε} (hrest : rest ≠ [])
    (he : next rest = .error e) : transcode next write (C.text as ++ rest) = .throws e := by
  have hact : ∀ out a, write out (C.value a) = .ok (out ++ D.encode a) := by
    rw [hvalue]
    exact hwrites
  have hle := C.length_le_length_text as
  rw [transcode, loop_stops hreads hact hrest he (by rw [List.length_append]; omega)]
  rfl

/-- It ends normally on nothing else. -/
theorem transcode_returns_iff (hreads : C.Reads next) (honly : C.Only next)
    (hwrites : D.Writes write) (hvalue : C.value = D.value) {units : List β} {out : List δ} :
    transcode next write units = .returns out ↔ ∃ as, units = C.text as ∧ out = D.text as := by
  have hact : ∀ out a, write out (C.value a) = .ok (out ++ D.encode a) := by
    rw [hvalue]
    exact hwrites
  constructor
  · intro h
    obtain ⟨s, hs, hout⟩ := Run.bind_eq_returns h
    obtain ⟨as, rfl, rfl⟩ := (loop_returns_iff hreads honly hact).mp hs
    refine ⟨as, rfl, ?_⟩
    rw [← Run.returns.inj hout, foldl_encode, List.nil_append]
  · intro h
    obtain ⟨as, rfl, rfl⟩ := h
    exact transcode_text hreads hwrites hvalue as

end Transcoding

end Code
