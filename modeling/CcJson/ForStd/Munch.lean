import Mathlib.Data.List.Basic

/-!
# Longest-match scanning

A scanner reads one symbol at a time and either reads on, completes a token with
the symbol, completes the token before the symbol and puts it back, or gives up.
Given the residual languages of its states (`Residuals`), the outcome of a scan is
determined by the token languages alone: a longest token, a text that is the
prefix of no token, or an input that ends inside a token.

## Key results

- `scan_accepted`, `scan_rejected`, `scan_ended`: what each outcome says of the input
- `scan_of_longest`, `scan_of_properPrefix`, `scan_of_dead`: which inputs have which outcome
-/

namespace Munch

variable {σ κ α : Type}

/-! ## Scanners -/

/-- What a scanner does with the next symbol. -/
inductive Move (σ κ : Type) where
  /-- Read on in state `s`. -/
  | shift (s : σ)
  /-- The symbol is the last one of a token. -/
  | accept (kind : κ)
  /-- The token has ended before the symbol, which is put back. -/
  | putBack (kind : κ)
  /-- The symbol is part of no token. -/
  | reject
  deriving DecidableEq, Repr

/-- The outcome of a scan. -/
inductive Outcome (σ κ α : Type) where
  | accepted (kind : κ) (lexeme rest : List α)
  | rejected (lexeme rest : List α)
  | ended (s : σ) (lexeme : List α)
  deriving DecidableEq, Repr

/-- Scan from state `s`, after having read `read`. -/
def scan (move : σ → List α → α → Move σ κ) (s : σ) (read : List α) : List α → Outcome σ κ α
  | [] => .ended s read
  | c :: cs =>
    match move s read c with
    | .shift s' => scan move s' (read ++ [c]) cs
    | .accept kind => .accepted kind (read ++ [c]) cs
    | .putBack kind => .accepted kind read (c :: cs)
    | .reject => .rejected (read ++ [c]) cs

/-! ## Prefixes of tokens -/

section Languages

variable {lang : κ → List α → Prop}

/-- `w` begins a token. -/
def TokenPrefix (lang : κ → List α → Prop) (w : List α) : Prop := ∃ k v, lang k (w ++ v)

/-- `w` begins a longer token. -/
def ProperPrefix (lang : κ → List α → Prop) (w : List α) : Prop := ∃ k c v, lang k (w ++ c :: v)

/-- `w` is a token of `kind`, and the symbol after it cannot extend it. -/
def Longest (lang : κ → List α → Prop) (kind : κ) (w rest : List α) : Prop :=
  lang kind w ∧ ∀ c r, rest = c :: r → ¬ TokenPrefix lang (w ++ [c])

/-- `w` begins a token and is none, and with `c` it begins no token. -/
def Dead (lang : κ → List α → Prop) (w : List α) (c : α) : Prop :=
  TokenPrefix lang w ∧ (∀ k, ¬ lang k w) ∧ ¬ TokenPrefix lang (w ++ [c])

theorem ProperPrefix.tokenPrefix {w : List α} (h : ProperPrefix lang w) : TokenPrefix lang w := by
  obtain ⟨k, c, v, hv⟩ := h
  exact ⟨k, c :: v, hv⟩

theorem tokenPrefix_of_append {w v : List α} (h : TokenPrefix lang (w ++ v)) :
    TokenPrefix lang w := by
  obtain ⟨k, u, hu⟩ := h
  exact ⟨k, v ++ u, by rwa [List.append_assoc] at hu⟩

theorem tokenPrefix_of_lang {k : κ} {w : List α} (h : lang k w) : TokenPrefix lang w :=
  ⟨k, [], by rwa [List.append_nil]⟩

/-- Only the first symbol after a token decides whether it is a longest one. -/
theorem Longest.append {k : κ} {w rest : List α} (h : Longest lang k w rest) (hne : rest ≠ [])
    (more : List α) : Longest lang k w (rest ++ more) := by
  obtain ⟨d, r, rfl⟩ := List.exists_cons_of_ne_nil hne
  refine ⟨h.1, ?_⟩
  intro c r' heq
  obtain ⟨rfl, -⟩ := List.cons.inj heq
  exact h.2 d r rfl

/-- A text that begins a token goes on beyond a longest token of it only by nothing. -/
theorem Longest.eq_nil {k : κ} {w v rest r : List α} (h : Longest lang k w rest)
    (hrest : rest = v ++ r) (hv : TokenPrefix lang (w ++ v)) : v = [] := by
  cases v with
  | nil => rfl
  | cons c v =>
    refine absurd (tokenPrefix_of_append (v := v) ?_) (h.2 c (v ++ r) hrest)
    rwa [List.append_assoc, List.singleton_append]

/-- The longest token at the beginning of a text is unique. -/
theorem Longest.unique {k k' : κ} {w w' rest rest' : List α} (h : Longest lang k w rest)
    (h' : Longest lang k' w' rest') (heq : w ++ rest = w' ++ rest') : w = w' ∧ rest = rest' := by
  -- One of the two tokens begins the other: what the longer one adds is empty.
  rcases List.append_eq_append_iff.mp heq with ⟨v, rfl, hrest⟩ | ⟨v, rfl, hrest⟩
  · obtain rfl := h.eq_nil hrest (tokenPrefix_of_lang h'.1)
    exact ⟨by simp, by simpa using hrest⟩
  · obtain rfl := h'.eq_nil hrest (tokenPrefix_of_lang h.1)
    exact ⟨by simp, by simpa using hrest.symm⟩

/-- A text that starts with a longest token dies nowhere in it. -/
theorem Longest.not_dead {k : κ} {w rest u r : List α} {c : α} (h : Longest lang k w rest)
    (hd : Dead lang u c) (heq : w ++ rest = u ++ c :: r) : False := by
  obtain ⟨hu, hno, hdead⟩ := hd
  rcases List.append_eq_append_iff.mp heq with ⟨v, rfl, hrest⟩ | ⟨v, rfl, hrest⟩
  · -- The text dies in or after the token: it is the token up to there, and no token at all.
    obtain rfl := h.eq_nil hrest hu
    exact hno k (by simpa using h.1)
  · -- The text dies inside the token: the dying symbol begins what is left of it.
    cases v with
    | nil => exact hno k (by simpa using h.1)
    | cons d v =>
      obtain ⟨rfl, -⟩ := List.cons.inj hrest
      refine hdead (tokenPrefix_of_append (v := v) ?_)
      rw [List.append_assoc, List.singleton_append]
      exact tokenPrefix_of_lang h.1

/-- The place where a text dies is unique. -/
theorem Dead.unique {u u' r r' : List α} {c c' : α} (h : Dead lang u c) (h' : Dead lang u' c')
    (heq : u ++ c :: r = u' ++ c' :: r') : u = u' ∧ c = c' ∧ r = r' := by
  -- The earlier place cannot be strictly inside the later one, which begins a token.
  have key : ∀ {a b x y : List α} {d e : α}, Dead lang a d → Dead lang b e →
      (∃ v, b = a ++ v ∧ d :: x = v ++ e :: y) → a = b := by
    intro a b x y d e had hbe h
    obtain ⟨v, rfl, hv⟩ := h
    cases v with
    | nil => exact (List.append_nil a).symm
    | cons d' v =>
      obtain ⟨rfl, -⟩ := List.cons.inj hv
      refine absurd (tokenPrefix_of_append (v := v) ?_) had.2.2
      rw [List.append_assoc, List.singleton_append]
      exact hbe.1
  -- One of the two places comes first; `key` serves both orders.
  have hu : u = u' := by
    rcases List.append_eq_append_iff.mp heq with ⟨v, hw, hrest⟩ | ⟨v, hw, hrest⟩
    · exact key h h' ⟨v, hw, hrest⟩
    · exact (key h' h ⟨v, hw, hrest⟩).symm
  subst hu
  obtain ⟨rfl, rfl⟩ := List.cons.inj (List.append_cancel_left heq)
  exact ⟨rfl, rfl, rfl⟩

end Languages

/-! ## Residual languages -/

/-- How a move on `c` in state `s` determines the language of the state. -/
def Move.Derives (live : σ → List α → Prop) (lang : σ → List α → κ → List α → Prop)
    (final : σ → Option κ) (s : σ) (read : List α) (c : α) : Move σ κ → Prop
  | .shift s' =>
    live s' (read ++ [c]) ∧ ∀ k v, lang s read k (c :: v) ↔ lang s' (read ++ [c]) k v
  | .accept kind => ∀ k v, lang s read k (c :: v) ↔ k = kind ∧ v = []
  | .putBack kind => final s = some kind ∧ ∀ k v, ¬ lang s read k (c :: v)
  | .reject => final s = none ∧ ∀ k v, ¬ lang s read k (c :: v)

/-- The languages of the states of a scanner: `lang s read kind v` says that `v`
    completes a token of `kind` in state `s`, after `read` has been read. They are
    described for the pairs of state and text that are `live`, which are kept by
    every move that reads on, and which can always read something. -/
structure Residuals (move : σ → List α → α → Move σ κ) where
  live : σ → List α → Prop
  lang : σ → List α → κ → List α → Prop
  final : σ → Option κ
  nil : ∀ {s read}, live s read → ∀ k, lang s read k [] ↔ final s = some k
  step : ∀ {s read}, live s read → ∀ c, (move s read c).Derives live lang final s read c
  continues : ∀ {s read}, live s read → ∃ k c v, lang s read k (c :: v)

namespace Residuals

variable {move : σ → List α → α → Move σ κ} (R : Residuals move) {s : σ} {read : List α}

section Moves

variable (hlive : R.live s read) {c : α}
include hlive

theorem shift {s' : σ} (h : move s read c = .shift s') :
    R.live s' (read ++ [c]) ∧
      ∀ k v, R.lang s read k (c :: v) ↔ R.lang s' (read ++ [c]) k v := by
  have hstep := R.step hlive c
  rwa [h] at hstep

theorem accept {kind : κ} (h : move s read c = .accept kind) :
    ∀ k v, R.lang s read k (c :: v) ↔ k = kind ∧ v = [] := by
  have hstep := R.step hlive c
  rwa [h] at hstep

theorem putBack {kind : κ} (h : move s read c = .putBack kind) :
    R.final s = some kind ∧ ∀ k v, ¬ R.lang s read k (c :: v) := by
  have hstep := R.step hlive c
  rwa [h] at hstep

theorem reject (h : move s read c = .reject) :
    R.final s = none ∧ ∀ k v, ¬ R.lang s read k (c :: v) := by
  have hstep := R.step hlive c
  rwa [h] at hstep

end Moves

private theorem tokenPrefix_cons {s' : σ} {c : α} {w : List α} {r' : List α}
    (h : ∀ k v, R.lang s read k (c :: v) ↔ R.lang s' r' k v) :
    TokenPrefix (R.lang s read) (c :: w) ↔ TokenPrefix (R.lang s' r') w := by
  simp only [TokenPrefix, List.cons_append, h]

/-- An accepted text is the longest token at the beginning of the input. -/
theorem scan_accepted (hlive : R.live s read) {cs : List α} {k : κ} {w rest : List α}
    (h : scan move s read cs = .accepted k w rest) :
    ∃ v, w = read ++ v ∧ cs = v ++ rest ∧ Longest (R.lang s read) k v rest := by
  induction cs generalizing s read with
  | nil => exact nomatch h
  | cons c cs ih =>
    unfold scan at h
    split at h
    · -- shift: the languages of the next state are those of this one after `c`
      rename_i s' hmove
      obtain ⟨hlive', hlang⟩ := R.shift hlive hmove
      obtain ⟨v, rfl, rfl, hv, hmax⟩ := ih hlive' h
      refine ⟨c :: v, by simp, rfl, (hlang k v).mpr hv, ?_⟩
      intro d r hr
      rw [List.cons_append, R.tokenPrefix_cons hlang]
      exact hmax d r hr
    · -- accept: after `c` the token is complete and nothing extends it
      rename_i kind hmove
      simp only [Outcome.accepted.injEq] at h
      obtain ⟨rfl, rfl, rfl⟩ := h
      have hlang := R.accept hlive hmove
      refine ⟨[c], rfl, rfl, (hlang _ _).mpr ⟨rfl, rfl⟩, ?_⟩
      intro d r _ h
      obtain ⟨k', u, hu⟩ := h
      exact nomatch ((hlang _ _).mp hu).2
    · -- putBack: the token is what was read, since no token goes on with `c`
      rename_i kind hmove
      simp only [Outcome.accepted.injEq] at h
      obtain ⟨rfl, rfl, rfl⟩ := h
      obtain ⟨hfinal, hno⟩ := R.putBack hlive hmove
      refine ⟨[], by simp, rfl, (R.nil hlive _).mpr hfinal, ?_⟩
      intro d r hr h
      obtain ⟨k', u, hu⟩ := h
      obtain ⟨rfl, rfl⟩ := List.cons.inj hr
      exact hno k' u hu
    · exact nomatch h

/-- A rejected text is no prefix of a token, and was one without its last symbol. -/
theorem scan_rejected (hlive : R.live s read) {cs w rest : List α}
    (h : scan move s read cs = .rejected w rest) :
    ∃ v c, w = read ++ (v ++ [c]) ∧ cs = v ++ c :: rest ∧ Dead (R.lang s read) v c := by
  induction cs generalizing s read with
  | nil => exact nomatch h
  | cons c cs ih =>
    unfold scan at h
    split at h
    · -- shift: being a prefix or a token is the same question in the next state
      rename_i s' hmove
      obtain ⟨hlive', hlang⟩ := R.shift hlive hmove
      obtain ⟨v, d, rfl, rfl, hv, hno, hdead⟩ := ih hlive' h
      refine ⟨c :: v, d, by simp, rfl, ?_, ?_, ?_⟩
      · rwa [R.tokenPrefix_cons hlang]
      · intro k hk
        exact hno k ((hlang k v).mp hk)
      · rwa [List.cons_append, R.tokenPrefix_cons hlang]
    · exact nomatch h
    · exact nomatch h
    · -- reject: the state is live, so what was read begins some token
      rename_i hmove
      simp only [Outcome.rejected.injEq] at h
      obtain ⟨rfl, rfl⟩ := h
      obtain ⟨hfinal, hno⟩ := R.reject hlive hmove
      refine ⟨[], c, rfl, rfl, ?_, ?_, ?_⟩
      · obtain ⟨k, d, v, hv⟩ := R.continues hlive
        exact ⟨k, d :: v, hv⟩
      · intro k hk
        rw [R.nil hlive, hfinal] at hk
        exact nomatch hk
      · intro h
        obtain ⟨k, u, hu⟩ := h
        exact hno k u hu

/-- An input that ends during the scan begins a longer token, and is itself one
    iff the state reached is final. -/
theorem scan_ended (hlive : R.live s read) {cs : List α} {s' : σ} {w : List α}
    (h : scan move s read cs = .ended s' w) :
    w = read ++ cs ∧ ProperPrefix (R.lang s read) cs ∧
      ∀ k, R.lang s read k cs ↔ R.final s' = some k := by
  induction cs generalizing s read with
  | nil =>
    simp only [scan, Outcome.ended.injEq] at h
    obtain ⟨rfl, rfl⟩ := h
    obtain ⟨k, c, v, hv⟩ := R.continues hlive
    exact ⟨by simp, ⟨k, c, v, hv⟩, R.nil hlive⟩
  | cons c cs ih =>
    unfold scan at h
    split at h
    · rename_i s₁ hmove
      obtain ⟨hlive', hlang⟩ := R.shift hlive hmove
      obtain ⟨rfl, ⟨k, d, v, hv⟩, hfinal⟩ := ih hlive' h
      refine ⟨by simp, ⟨k, d, v, (hlang _ _).mpr hv⟩, ?_⟩
      intro k'
      rw [hlang, hfinal]
    · exact nomatch h
    · exact nomatch h
    · exact nomatch h

/-- A text is a token of one kind at most. -/
theorem kind_unique (hlive : R.live s read) {k k' : κ} {v : List α}
    (h : R.lang s read k v) (h' : R.lang s read k' v) : k = k' := by
  induction v generalizing s read with
  | nil =>
    rw [R.nil hlive] at h h'
    exact Option.some.inj (h.symm.trans h')
  | cons c v ih =>
    cases hmove : move s read c with
    | shift s' =>
      obtain ⟨hlive', hlang⟩ := R.shift hlive hmove
      exact ih hlive' ((hlang _ _).mp h) ((hlang _ _).mp h')
    | accept kind =>
      have hlang := R.accept hlive hmove
      rw [((hlang _ _).mp h).1, ((hlang _ _).mp h').1]
    | putBack kind => exact absurd h ((R.putBack hlive hmove).2 k v)
    | reject => exact absurd h ((R.reject hlive hmove).2 k v)

/-- A longest token at the beginning of the input is accepted, or ends with the
    input in a final state. -/
theorem scan_of_longest (hlive : R.live s read) {k : κ} {v rest : List α}
    (h : Longest (R.lang s read) k v rest) :
    scan move s read (v ++ rest) = .accepted k (read ++ v) rest ∨
    ∃ s', scan move s read (v ++ rest) = .ended s' (read ++ v) ∧ rest = [] ∧
      R.final s' = some k := by
  -- Read off the outcome: each one determines how the input starts.
  cases hscan : scan move s read (v ++ rest) with
  | accepted k' w rest' =>
    obtain ⟨v', rfl, heq, h'⟩ := R.scan_accepted hlive hscan
    obtain ⟨rfl, rfl⟩ := h.unique h' heq
    rw [R.kind_unique hlive h.1 h'.1]
    exact .inl rfl
  | rejected w rest' =>
    obtain ⟨v', c, rfl, heq, hdead⟩ := R.scan_rejected hlive hscan
    exact (h.not_dead hdead heq).elim
  | ended s' w =>
    obtain ⟨rfl, hpre, hfinal⟩ := R.scan_ended hlive hscan
    -- The whole input begins a token, so nothing comes after the longest one.
    obtain rfl := h.eq_nil (List.append_nil rest).symm hpre.tokenPrefix
    rw [List.append_nil] at hfinal ⊢
    exact .inr ⟨s', rfl, rfl, (hfinal k).mp h.1⟩

/-- What is accepted by its last symbol is accepted in a longer input. -/
theorem scan_append {cs : List α} {k : κ} {w : List α}
    (h : scan move s read cs = .accepted k w []) (r : List α) :
    scan move s read (cs ++ r) = .accepted k w r := by
  induction cs generalizing s read with
  | nil => exact nomatch h
  | cons c cs ih =>
    rw [List.cons_append]
    unfold scan at h ⊢
    split at h
    · exact ih h
    · simp only [Outcome.accepted.injEq] at h ⊢
      obtain ⟨rfl, rfl, rfl⟩ := h
      exact ⟨rfl, rfl, rfl⟩
    · exact nomatch (Outcome.accepted.inj h).2.2
    · exact nomatch h

/-- A token of a kind that no state is final for ends with its last symbol, whatever
    comes after it. -/
theorem longest_of_not_final (hlive : R.live s read) {k : κ} {v : List α}
    (h : R.lang s read k v) (hfinal : ∀ s', R.final s' ≠ some k) (rest : List α) :
    Longest (R.lang s read) k v rest := by
  -- Scan the token alone: it cannot end in a final state, so its last symbol is accepted.
  have hlast : Longest (R.lang s read) k v [] := ⟨h, nofun⟩
  have hscan := R.scan_of_longest hlive hlast
  rw [List.append_nil] at hscan
  rcases hscan with hscan | ⟨s', -, -, hs'⟩
  · obtain ⟨v', hv', heq, hlong⟩ := R.scan_accepted hlive (scan_append hscan rest)
    rwa [List.append_cancel_left hv']
  · exact absurd hs' (hfinal s')

/-- An input that begins a longer token ends during the scan. -/
theorem scan_of_properPrefix (hlive : R.live s read) {cs : List α}
    (h : ProperPrefix (R.lang s read) cs) : ∃ s', scan move s read cs = .ended s' (read ++ cs) := by
  induction cs generalizing s read with
  | nil => exact ⟨s, by simp [scan]⟩
  | cons c cs ih =>
    obtain ⟨k, d, v, hv⟩ := h
    unfold scan
    cases hmove : move s read c with
    | shift s' =>
      obtain ⟨hlive', hlang⟩ := R.shift hlive hmove
      obtain ⟨s'', hs''⟩ := ih hlive' ⟨k, d, v, (hlang _ _).mp hv⟩
      exact ⟨s'', by simpa using hs''⟩
    | accept kind => simp [R.accept hlive hmove] at hv
    | putBack kind => exact absurd hv ((R.putBack hlive hmove).2 _ _)
    | reject => exact absurd hv ((R.reject hlive hmove).2 _ _)

/-- An input that dies is rejected where it dies. -/
theorem scan_of_dead (hlive : R.live s read) {v rest : List α} {c : α}
    (h : Dead (R.lang s read) v c) :
    scan move s read (v ++ c :: rest) = .rejected (read ++ (v ++ [c])) rest := by
  -- The two other outcomes need a token that goes beyond the place of death.
  cases hscan : scan move s read (v ++ c :: rest) with
  | accepted k w rest' =>
    obtain ⟨v', rfl, heq, h'⟩ := R.scan_accepted hlive hscan
    exact (h'.not_dead h heq.symm).elim
  | rejected w rest' =>
    obtain ⟨v', c', rfl, heq, h'⟩ := R.scan_rejected hlive hscan
    obtain ⟨rfl, rfl, rfl⟩ := h.unique h' heq
    rfl
  | ended s' w =>
    obtain ⟨rfl, hpre, -⟩ := R.scan_ended hlive hscan
    refine absurd (tokenPrefix_of_append (v := rest) ?_) h.2.2
    rw [List.append_assoc, List.singleton_append]
    exact hpre.tokenPrefix

end Residuals

end Munch
