import CcJson.Spec.ParserCorrect

/-!
# What one iteration of the parser does

An iteration of the loop of `parse` looks at the next token. It rejects it and leaves it
where it is, or it consumes it, looks at the token after a comma, and puts new states on
the stack in place of the one it has taken.

## Key results

- `iterate_steps`: what an iteration does to the tokenizer and to the stack
- `iterate_consumes`: every iteration consumes one token or rejects
-/

namespace CcJson

variable {σ : Type} [TokenSource σ]

/-! ## Consumption -/

/-- From `t` to `t'` exactly one token is consumed. Before that it has been looked at, and
    afterwards the next one may be. -/
inductive Tokenizer.Consumes (t : Tokenizer σ) (token : Token) (t' : Tokenizer σ) : Prop where
  | intro {t₁ t₂ : Tokenizer σ} (hpeek : t.peek = .returns (token, t₁))
      (hconsume : t₁.consume = .returns (token, t₂))
      (hnext : t' = t₂ ∨ ∃ next, t₂.peek = .returns (next, t')) : Consumes t token t'

/-- A token that has been looked at is the one that is consumed. -/
theorem Tokenizer.consume_of_peek {t t' : Tokenizer σ} {token : Token}
    (h : t.peek = .returns (token, t')) :
    t'.consume = .returns (token, { t' with hasCurrent := false }) := by
  unfold peek at h
  split at h
  · obtain ⟨out, -, hout⟩ := Run.bind_eq_returns h
    obtain ⟨rfl, rfl⟩ := Prod.mk.inj (Run.returns.inj hout)
    rfl
  · rename_i hcurrent
    obtain ⟨rfl, rfl⟩ := Prod.mk.inj (Run.returns.inj h)
    simp [consume, hcurrent]

/-- A token that has been looked at is in the buffer. -/
theorem Tokenizer.hasCurrent_of_peek {t t' : Tokenizer σ} {token : Token}
    (h : t.peek = .returns (token, t')) : t'.hasCurrent = true ∧ t'.current = token := by
  unfold peek at h
  split at h
  · obtain ⟨out, -, hout⟩ := Run.bind_eq_returns h
    obtain ⟨rfl, rfl⟩ := Prod.mk.inj (Run.returns.inj hout)
    exact ⟨rfl, rfl⟩
  · rename_i hcurrent
    obtain ⟨rfl, rfl⟩ := Prod.mk.inj (Run.returns.inj h)
    exact ⟨by simpa using hcurrent, rfl⟩

/-! ## The transitions of the stack -/

/-- The states that `handle_value` puts on the stack for a token, `none` if it rejects it. -/
def valueStates : TokenType → Option (List ParserState)
  | .tkString | .tkNumber | .tkTrue | .tkFalse | .tkNull => some []
  | .tkOpenBrace => some [.expectObjectKey]
  | .tkOpenBracket => some [.expectArrayValue]
  | _ => none

/-- The states that the handler of a state puts on the stack in its place for a token. -/
def ParserState.next (s : ParserState) (k : TokenType) : Option (List ParserState) :=
  match s, k with
  | .expectValue, k => valueStates k
  | .expectObjectKey, .tkCloseBrace => some []
  | .expectObjectKey, .tkString => some [.expectObjectColon]
  | .expectObjectColon, .tkColon => some [.expectObjectValue]
  | .expectObjectValue, k => (valueStates k).map (· ++ [.expectObjectComma])
  | .expectObjectComma, .tkCloseBrace => some []
  | .expectObjectComma, .tkComma => some [.expectObjectKey]
  | .expectArrayValue, .tkCloseBracket => some []
  | .expectArrayValue, k => (valueStates k).map (· ++ [.expectArrayComma])
  | .expectArrayComma, .tkCloseBracket => some []
  | .expectArrayComma, .tkComma => some [.expectArrayValue]
  | _, _ => none

namespace Parser

variable {p p' : Parser σ} {k : TokenType}

theorem peekType_eq_returns (h : p.peekType = .returns (k, p')) :
    ∃ token tok, p.tok.peek = .returns (token, tok) ∧ k = token.type ∧
      p' = { p with tok, isValid := p.isValid && k != .tkError } := by
  unfold peekType at h
  obtain ⟨⟨token, tok⟩, hpeek, hout⟩ := Run.bind_eq_returns h
  obtain ⟨rfl, rfl⟩ := Prod.mk.inj (Run.returns.inj hout)
  refine ⟨token, tok, hpeek, rfl, ?_⟩
  by_cases htype : token.type = .tkError
  · simp [htype, invalidate]
  · simp [htype]

private theorem consume_eq_returns (h : p.consume = .returns p') :
    ∃ token tok, p.tok.consume = .returns (token, tok) ∧ p' = { p with tok } := by
  unfold consume at h
  obtain ⟨⟨token, tok⟩, hconsume, hout⟩ := Run.bind_eq_returns h
  obtain rfl := Run.returns.inj hout
  exact ⟨token, tok, hconsume, rfl⟩

/-- The handler has consumed one token of `p` and then looked at the next one at most. -/
private def Took (p p' : Parser σ) : Prop :=
  ∃ token tok, p.tok.consume = .returns (token, tok) ∧
    (p'.tok = tok ∨ ∃ next, tok.peek = .returns (next, p'.tok))

/-- What a handler does that puts `states` on the stack for a token that it accepts: it
    rejects the token, or consumes it. A token it rejects after that has been looked at. -/
private inductive Handles (p : Parser σ) (states : Option (List ParserState)) :
    Parser σ → Prop where
  | refused {p' : Parser σ} (hinvalid : p'.isValid = false) (htok : p'.tok = p.tok) :
      Handles p states p'
  | took {p' : Parser σ} (htook : Took p p')
      (hlooked : p'.isValid = p.isValid ∨ p'.tok.hasCurrent = true)
      (hstack : p'.isValid = true → ∃ new, states = some new ∧ p'.stack = new ++ p.stack) :
      Handles p states p'

private theorem handles_consume (h : p.consume = .returns p') : Handles p (some []) p' := by
  obtain ⟨token, tok, hconsume, rfl⟩ := consume_eq_returns h
  exact .took ⟨token, tok, hconsume, .inl rfl⟩ (.inl rfl) fun _ => ⟨[], rfl, rfl⟩

private theorem handles_push {s : ParserState}
    (h : (do let p ← p.consume; return p.push s) = Run.returns p') : Handles p (some [s]) p' := by
  obtain ⟨q, hq, hout⟩ := Run.bind_eq_returns h
  obtain rfl := Run.returns.inj hout
  obtain ⟨token, tok, hconsume, rfl⟩ := consume_eq_returns hq
  exact .took ⟨token, tok, hconsume, .inl rfl⟩ (.inl rfl) fun _ => ⟨[s], rfl, rfl⟩

private theorem handles_invalidate {states : Option (List ParserState)}
    (h : Run.returns p.invalidate = (Run.returns p' : Run Exception (Parser σ))) :
    Handles p states p' := by
  obtain rfl := Run.returns.inj h
  exact .refused rfl rfl

private theorem handleValue_handles (h : p.handleValue k = .returns p') :
    Handles p (valueStates k) p' := by
  cases k with
  | tkString | tkNumber | tkTrue | tkFalse | tkNull => exact handles_consume h
  | tkOpenBrace | tkOpenBracket => exact handles_push h
  | _ => exact handles_invalidate h

/-- A value inside an object or an array: the state for what follows it has been pushed first. -/
private theorem handles_value {s : ParserState} (h : (p.push s).handleValue k = .returns p') :
    Handles p ((valueStates k).map (· ++ [s])) p' := by
  cases handleValue_handles h with
  | refused hinvalid htok => exact .refused hinvalid htok
  | took htook hlooked hstack =>
    refine .took htook hlooked fun hvalid => ?_
    obtain ⟨new, hnew, hp'⟩ := hstack hvalid
    refine ⟨new ++ [s], by rw [hnew]; rfl, ?_⟩
    rw [hp', List.append_assoc]
    rfl

/-- A comma: it is consumed, and the state `s` is pushed unless the next token is a bad one. -/
private theorem handles_comma (bad : TokenType → Bool) {s : ParserState}
    (h : (do
      let p ← p.consume
      let (next, p) ← p.peekType
      if bad next then return p.invalidate else return p.push s) = Run.returns p') :
    Handles p (some [s]) p' := by
  obtain ⟨q, hq, hout⟩ := Run.bind_eq_returns h
  obtain ⟨token, tok, hconsume, rfl⟩ := consume_eq_returns hq
  obtain ⟨⟨next, q'⟩, hpeekType, hout⟩ := Run.bind_eq_returns hout
  obtain ⟨token', tok', hpeek, -, rfl⟩ := peekType_eq_returns hpeekType
  have hbuffered := (Tokenizer.hasCurrent_of_peek hpeek).1
  dsimp only at hout
  split at hout
  · obtain rfl := Run.returns.inj hout
    exact .took ⟨token, tok, hconsume, .inr ⟨token', hpeek⟩⟩ (.inr hbuffered) nofun
  · obtain rfl := Run.returns.inj hout
    exact .took ⟨token, tok, hconsume, .inr ⟨token', hpeek⟩⟩ (.inr hbuffered)
      fun _ => ⟨[s], rfl, rfl⟩

/-- Every handler, by its tests of the token. -/
private theorem handle_handles {s : ParserState} (h : p.handle s k = .returns p') :
    Handles p (s.next k) p' := by
  cases s with
  | expectValue => exact handleValue_handles h
  | expectObjectKey =>
    cases k with
    | tkCloseBrace => exact handles_consume h
    | tkString => exact handles_push h
    | _ => exact handles_invalidate h
  | expectObjectColon =>
    cases k with
    | tkColon => exact handles_push h
    | _ => exact handles_invalidate h
  | expectObjectValue => exact handles_value h
  | expectObjectComma =>
    cases k with
    | tkCloseBrace => exact handles_consume h
    | tkComma =>
      apply handles_comma (fun next => next != .tkString)
      simpa [handle, handleObjectComma] using h
    | _ => exact handles_invalidate h
  | expectArrayValue =>
    by_cases hk : k = .tkCloseBracket
    · subst hk
      exact handles_consume h
    · simp only [handle, handleArrayValue, beq_iff_eq, hk, if_false] at h
      have hnext : ParserState.expectArrayValue.next k =
          (valueStates k).map (· ++ [.expectArrayComma]) := by
        cases k with
        | tkCloseBracket => exact absurd rfl hk
        | _ => rfl
      rw [hnext]
      exact handles_value h
  | expectArrayComma =>
    cases k with
    | tkCloseBracket => exact handles_consume h
    | tkComma =>
      exact handles_comma (fun next => next == .tkCloseBracket || next == .endOfInput) h
    | _ => exact handles_invalidate h

end Parser

/-! ## One iteration -/

/-- What an iteration from the stack `s :: stack` does that ends normally. -/
inductive Steps (p : Parser σ) (s : ParserState) (stack : List ParserState) :
    Parser σ → Prop where
  | refused {p' : Parser σ} {token : Token} (hinvalid : p'.isValid = false)
      (hpeek : p.tok.peek = .returns (token, p'.tok)) : Steps p s stack p'
  | read {p' : Parser σ} {token : Token} (htype : token.type ≠ .endOfInput)
      (hconsumes : p.tok.Consumes token p'.tok)
      (hlooked : p'.isValid = p.isValid ∨ p'.tok.hasCurrent = true)
      (hstack : p'.isValid = true →
        ∃ new, s.next token.type = some new ∧ p'.stack = new ++ stack) : Steps p s stack p'

namespace Parser

variable {p p' : Parser σ} {s : ParserState} {stack : List ParserState}

/-- An iteration rejects the next token, or consumes it and replaces the state it has taken. -/
theorem iterate_steps (h : p.iterate s stack = .returns p') : Steps p s stack p' := by
  unfold iterate at h
  obtain ⟨⟨k, q⟩, hpeekType, hout⟩ := Run.bind_eq_returns h
  obtain ⟨token, tok, hpeek, rfl, rfl⟩ := peekType_eq_returns hpeekType
  dsimp only at hout
  by_cases herror : token.type = .tkError
  · rw [if_pos (beq_iff_eq.mpr herror)] at hout
    obtain rfl := Run.returns.inj hout
    exact .refused rfl hpeek
  · rw [if_neg (by simpa using herror)] at hout
    by_cases htype : token.type = .endOfInput
    · -- no handler accepts the end of the input
      rw [htype] at hout
      obtain ⟨q', hhandle, hinvalid, htok⟩ := handle_endOfInput (σ := σ) _ s
      obtain rfl := Run.returns.inj (hhandle.symm.trans hout)
      exact .refused hinvalid (by rw [htok]; exact hpeek)
    · cases handle_handles hout with
      | refused hinvalid htok => exact .refused hinvalid (by rw [htok]; exact hpeek)
      | took htook hlooked hstack =>
        obtain ⟨token', tok', hconsume, hnext⟩ := htook
        -- the token that is consumed is the one that was looked at
        have hsame := hconsume.symm.trans (Tokenizer.consume_of_peek hpeek)
        obtain ⟨rfl, rfl⟩ := Prod.mk.inj (Run.returns.inj hsame)
        have hvalid : (p.isValid && token'.type != .tkError) = p.isValid := by simp [herror]
        exact .read htype (.intro hpeek hconsume hnext) (hvalid ▸ hlooked) hstack

/-- Every iteration of the loop of `parse` rejects or consumes exactly one token, which is
    not the end of the input. -/
theorem iterate_consumes (h : p.iterate s stack = .returns p') :
    p'.isValid = false ∨ ∃ token, token.type ≠ .endOfInput ∧ p.tok.Consumes token p'.tok := by
  cases iterate_steps h with
  | refused hinvalid => exact .inl hinvalid
  | @read token htype hconsumes => exact .inr ⟨token, htype, hconsumes⟩

end Parser

end CcJson
