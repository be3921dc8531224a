import CcJson.Spec.TokenGrammar

/-!
# The parser recognises the grammar

The parser is run over any source of tokens. `Delivers` says which token types the
source delivers before `END_OF_INPUT` or an exception; the loop of `parse` then
either empties its stack after tokens that the grammar derives, or stops at the
first token, end or exception after which the grammar derives nothing.

## Key results

- `iterate_spec`: one iteration reads one token of what the stack expects
- `loop_spec`: the loop, from any stack
- `parse_spec`: the verdict of `parse`
- `parse_ok_iff`: the verdict is that of the grammar
-/

namespace CcJson

open ContextFreeGrammar

variable {σ : Type} [TokenSource σ]

/-! ## Sources of tokens -/

/-- What comes after the tokens of a source: `END_OF_INPUT`, with the source that is then
    left, or an exception. -/
inductive Ending (σ : Type) where
  | eof (last : σ)
  | throws (e : Exception)

/-- The token types that a source delivers, one for each call of `next_token`, up to the
    first `END_OF_INPUT` or exception. -/
inductive Delivers : σ → List TokenType → Ending σ → Prop where
  | eof {s s' : σ} {token : Token} (hnext : TokenSource.nextToken s = .returns (token, s'))
      (htype : token.type = .endOfInput) : Delivers s [] (.eof s')
  | throws {s : σ} {e : Exception} (hnext : TokenSource.nextToken s = .throws e) :
      Delivers s [] (.throws e)
  | cons {s s' : σ} {token : Token} {ts : List TokenType} {ending : Ending σ}
      (hnext : TokenSource.nextToken s = .returns (token, s'))
      (htype : token.type ≠ .endOfInput) (h : Delivers s' ts ending) :
      Delivers s (token.type :: ts) ending

/-- The token types that calls of `consume` will deliver. -/
inductive Tokenizer.Pending : Tokenizer σ → List TokenType → Ending σ → Prop where
  | fresh {t : Tokenizer σ} {ts : List TokenType} {ending : Ending σ}
      (hcurrent : t.hasCurrent = false) (h : Delivers t.source ts ending) : Pending t ts ending
  | buffered {t : Tokenizer σ} {ts : List TokenType} {ending : Ending σ}
      (hcurrent : t.hasCurrent = true) (htype : t.current.type ≠ .endOfInput)
      (h : Delivers t.source ts ending) : Pending t (t.current.type :: ts) ending
  | atEnd {t : Tokenizer σ} (hcurrent : t.hasCurrent = true)
      (htype : t.current.type = .endOfInput) : Pending t [] (.eof t.source)

/-- A source delivers one sequence of token types only. -/
theorem Delivers.unique {s : σ} {ts ts' : List TokenType} {ending ending' : Ending σ}
    (h : Delivers s ts ending) (h' : Delivers s ts' ending') : ts = ts' := by
  induction h generalizing ts' with
  | eof hnext htype =>
    cases h' with
    | cons hnext' htype' =>
      obtain ⟨rfl, -⟩ := Prod.mk.inj (Run.returns.inj (hnext.symm.trans hnext'))
      exact absurd htype htype'
    | _ => rfl
  | throws hnext =>
    cases h' with
    | cons hnext' => exact nomatch hnext.symm.trans hnext'
    | _ => rfl
  | cons hnext htype _ ih =>
    cases h' with
    | eof hnext' htype' =>
      obtain ⟨rfl, -⟩ := Prod.mk.inj (Run.returns.inj (hnext.symm.trans hnext'))
      exact absurd htype' htype
    | throws hnext' => exact nomatch hnext.symm.trans hnext'
    | cons hnext' _ h' =>
      obtain ⟨rfl, rfl⟩ := Prod.mk.inj (Run.returns.inj (hnext.symm.trans hnext'))
      rw [ih h']

namespace Tokenizer

variable {t : Tokenizer σ} {k : TokenType} {ts : List TokenType} {ending : Ending σ}

theorem Pending.ne_endOfInput (h : t.Pending (k :: ts) ending) : k ≠ .endOfInput := by
  cases h with
  | fresh _ h =>
    cases h with
    | cons _ htype _ => exact htype
  | buffered _ htype _ => exact htype

theorem Pending.unique {ts' : List TokenType} {ending' : Ending σ} (h : t.Pending ts ending)
    (h' : t.Pending ts' ending') : ts = ts' := by
  cases h with
  | fresh hcurrent h =>
    cases h' with
    | fresh _ h' => exact h.unique h'
    | buffered hcurrent' => exact nomatch hcurrent.symm.trans hcurrent'
    | atEnd hcurrent' => exact nomatch hcurrent.symm.trans hcurrent'
  | buffered hcurrent htype h =>
    cases h' with
    | fresh hcurrent' => exact nomatch hcurrent.symm.trans hcurrent'
    | buffered _ _ h' => rw [h.unique h']
    | atEnd _ htype' => exact absurd htype' htype
  | atEnd hcurrent htype =>
    cases h' with
    | fresh hcurrent' => exact nomatch hcurrent.symm.trans hcurrent'
    | buffered _ htype' => exact absurd htype htype'
    | atEnd => rfl

/-- Peeking does not take the token. -/
theorem Pending.peek_cons (h : t.Pending (k :: ts) ending) :
    ∃ token t', t.peek = .returns (token, t') ∧ token.type = k ∧ t'.Pending (k :: ts) ending := by
  cases h with
  | fresh hcurrent h =>
    cases h with
    | @cons _ s' token _ _ hnext htype h =>
      refine ⟨token, { source := s', current := token, hasCurrent := true }, ?_, rfl,
        .buffered rfl htype h⟩
      simp [peek, hcurrent, hnext]
  | buffered hcurrent htype h =>
    refine ⟨t.current, t, ?_, rfl, .buffered hcurrent htype h⟩
    simp [peek, hcurrent]

theorem Pending.peek_eof {last : σ} (h : t.Pending [] (.eof last)) :
    ∃ token t', t.peek = .returns (token, t') ∧ token.type = .endOfInput ∧ t'.source = last ∧
      t'.Pending [] (.eof last) := by
  cases h with
  | fresh hcurrent h =>
    cases h with
    | @eof _ last token hnext htype =>
      refine ⟨token, { source := last, current := token, hasCurrent := true }, ?_, htype, rfl,
        .atEnd rfl htype⟩
      simp [peek, hcurrent, hnext]
  | atEnd hcurrent htype =>
    refine ⟨t.current, t, ?_, htype, rfl, .atEnd hcurrent htype⟩
    simp [peek, hcurrent]

theorem Pending.peek_throws {e : Exception} (h : t.Pending [] (.throws e)) :
    t.peek = .throws e := by
  cases h with
  | fresh hcurrent h =>
    cases h with
    | throws hnext => simp [peek, hcurrent, hnext]

/-- Consuming takes the token. -/
theorem Pending.consume_cons (h : t.Pending (k :: ts) ending) :
    ∃ token t', t.consume = .returns (token, t') ∧ t'.Pending ts ending := by
  cases h with
  | fresh hcurrent h =>
    cases h with
    | @cons _ s' token _ _ hnext htype h =>
      refine ⟨token, { source := s', current := token, hasCurrent := false }, ?_, .fresh rfl h⟩
      simp [consume, hcurrent, hnext]
  | buffered hcurrent htype h =>
    refine ⟨t.current, { t with hasCurrent := false }, ?_, .fresh rfl h⟩
    simp [consume, hcurrent]

end Tokenizer

namespace Parser

variable {p : Parser σ} {k : TokenType} {ts : List TokenType} {ending : Ending σ}

private theorem peekType_cons (h : p.tok.Pending (k :: ts) ending) :
    ∃ tok, p.peekType = .returns (k, { p with tok, isValid := p.isValid && k != .tkError }) ∧
      tok.Pending (k :: ts) ending := by
  obtain ⟨token, tok, hpeek, rfl, htok⟩ := h.peek_cons
  refine ⟨tok, ?_, htok⟩
  simp only [peekType, hpeek, Run.returns_bind, Run.pure_eq, invalidate]
  cases token.type <;> simp

private theorem peekType_eof {last : σ} (h : p.tok.Pending [] (.eof last)) :
    ∃ tok, p.peekType = .returns (.endOfInput, { p with tok }) ∧ tok.source = last ∧
      tok.Pending [] (.eof last) := by
  obtain ⟨token, tok, hpeek, htype, hlast, htok⟩ := h.peek_eof
  refine ⟨tok, ?_, hlast, htok⟩
  simp [peekType, hpeek, htype]

private theorem peekType_throws {e : Exception} (h : p.tok.Pending [] (.throws e)) :
    p.peekType = .throws e := by
  simp [peekType, h.peek_throws]

private theorem consume_cons (h : p.tok.Pending (k :: ts) ending) :
    ∃ tok, p.consume = .returns { p with tok } ∧ tok.Pending ts ending := by
  obtain ⟨token, tok, hconsume, htok⟩ := h.consume_cons
  refine ⟨tok, ?_, htok⟩
  simp [consume, hconsume]

end Parser

/-! ## One iteration -/

/-- The parser stops without having accepted: the tokens it has seen can be continued, but
    not by the next token, or the tokens end before the form has been derived. -/
inductive Fails (form : List Sym) (ts : List TokenType) (ending : Ending σ) :
    Run Exception (Parser σ) → Prop where
  | refused {p : Parser σ} (seen : List TokenType) {rest : List TokenType} {k : TokenType}
      (hts : ts = seen ++ k :: rest) (hinvalid : p.isValid = false)
      (hpending : p.tok.Pending (k :: rest) ending) (hviable : ∃ us, Yields form (seen ++ us))
      (hrefused : ∀ us, ¬ Yields form (seen ++ k :: us)) : Fails form ts ending (.returns p)
  | exhausted {p : Parser σ} {last : σ} (hending : ending = .eof last)
      (hinvalid : p.isValid = false) (hpending : p.tok.Pending [] (.eof last))
      (hviable : ∃ us, Yields form (ts ++ us)) (hincomplete : ¬ Yields form ts) :
      Fails form ts ending (.returns p)
  | thrown {e : Exception} (hending : ending = .throws e) (hviable : ∃ us, Yields form (ts ++ us))
      (hincomplete : ¬ Yields form ts) : Fails form ts ending (.throws e)

/-- What an iteration of the loop of `parse` does, from a stack that expects `form`. -/
inductive Iterates (form : List Sym) (ts : List TokenType) (ending : Ending σ) :
    Run Exception (Parser σ) → Prop where
  | consumed {p : Parser σ} {form' : List Sym} {k : TokenType} {ts' : List TokenType}
      (hts : ts = k :: ts') (hvalid : p.isValid = true)
      (hstack : StackExpects ts'.head? p.stack form') (hpending : p.tok.Pending ts' ending)
      (hform : ∀ us, Yields form (k :: us) ↔ Yields form' us) : Iterates form ts ending (.returns p)
  | failed {r : Run Exception (Parser σ)} (h : Fails form ts ending r) : Iterates form ts ending r

namespace Parser

variable {p : Parser σ} {k : TokenType} {ts : List TokenType} {ending : Ending σ}
  {form form' : List Sym} {stack : List ParserState}

/-- Consuming the token and going on with a stack that expects what is left. -/
private theorem iterates_consume (hvalid : p.isValid = true)
    (hpending : p.tok.Pending (k :: ts) ending)
    (hform : ∀ us, Yields form (k :: us) ↔ Yields (stackForm p.stack) us) :
    Iterates form (k :: ts) ending p.consume := by
  obtain ⟨tok, hconsume, htok⟩ := consume_cons hpending
  rw [hconsume]
  exact .consumed rfl hvalid (stackExpects_stackForm _ _) htok hform

/-- Consuming the token and pushing a state. -/
private theorem iterates_push {s : ParserState} (hvalid : p.isValid = true)
    (hpending : p.tok.Pending (k :: ts) ending)
    (hform : ∀ us, Yields form (k :: us) ↔ Yields (s.form ++ stackForm p.stack) us) :
    Iterates form (k :: ts) ending (do let p ← p.consume; return p.push s) := by
  obtain ⟨tok, hconsume, htok⟩ := consume_cons hpending
  rw [hconsume, Run.returns_bind, Run.pure_eq]
  exact .consumed rfl hvalid (stackExpects_stackForm _ (s :: p.stack)) htok hform

/-- Rejecting the token. -/
private theorem iterates_invalidate (hpending : p.tok.Pending (k :: ts) ending)
    (hviable : ∃ us, Yields form us) (hrefused : ∀ us, ¬ Yields form (k :: us)) :
    Iterates form (k :: ts) ending (.returns p.invalidate) :=
  .failed (.refused [] rfl rfl hpending hviable hrefused)

/-- `handle_value` reads the first token of a value. -/
private theorem handleValue_spec (hvalid : p.isValid = true)
    (hpending : p.tok.Pending (k :: ts) ending) :
    Iterates (nt .value :: stackForm p.stack) (k :: ts) ending (p.handleValue k) := by
  have hviable : ∃ us, Yields (nt .value :: stackForm p.stack) us :=
    exists_yields (stackExpects_stackForm none (.expectValue :: p.stack))
  cases k with
  | tkString | tkNumber | tkTrue | tkFalse | tkNull =>
    exact iterates_consume hvalid hpending fun us => yields_value_cons
  | tkOpenBrace | tkOpenBracket =>
    exact iterates_push hvalid hpending fun us => yields_value_cons
  | _ => exact iterates_invalidate hpending hviable fun us => yields_value_cons.mp

/-- Forms with the same continuations of the next token go through the same iteration. -/
private theorem iterates_congr {r : Run Exception (Parser σ)} (hviable : ∃ us, Yields form us)
    (hform : ∀ us, Yields form (k :: us) ↔ Yields form' (k :: us))
    (h : Iterates form' (k :: ts) ending r) : Iterates form (k :: ts) ending r := by
  cases h with
  | consumed hts hvalid hstack hpending hform' =>
    obtain ⟨rfl, rfl⟩ := List.cons.inj hts
    exact .consumed rfl hvalid hstack hpending fun us => (hform us).trans (hform' us)
  | failed h =>
    -- The forms agree on texts that start with `k`, and every failure has read `k` or refuses it.
    apply Iterates.failed
    cases h with
    | refused seen hts hinvalid hpending hviable' hrefused =>
      cases seen with
      | nil =>
        obtain ⟨rfl, rfl⟩ := List.cons.inj hts
        exact .refused [] rfl hinvalid hpending hviable fun us => (hform us).not.mpr (hrefused us)
      | cons k' seen =>
        obtain ⟨rfl, rfl⟩ := List.cons.inj hts
        refine .refused (k :: seen) rfl hinvalid hpending ?_ fun us => ?_
        · exact hviable'.imp fun us => (hform (seen ++ us)).mpr
        · exact (hform _).not.mpr (hrefused us)
    | exhausted hending hinvalid hpending hviable' hincomplete =>
      exact .exhausted hending hinvalid hpending (hviable'.imp fun us => (hform _).mpr)
        ((hform ts).not.mpr hincomplete)
    | thrown hending hviable' hincomplete =>
      exact .thrown hending (hviable'.imp fun us => (hform _).mpr) ((hform ts).not.mpr hincomplete)

/-- A comma handler: the comma is consumed, the next token looked at, and unless it is a
    `bad` one the state `s` pushed. An error token is bad whatever the handler does,
    since `peek_type` has already given up. -/
private theorem iterates_comma (bad : TokenType → Bool) {s : ParserState}
    (hvalid : p.isValid = true) (hpending : p.tok.Pending (.tkComma :: ts) ending)
    (hform : ∀ us, Yields form (.tkComma :: us) ↔ Yields (form' ++ stackForm p.stack) us)
    (hgood : ∀ next, bad next = false → Expects (some next) s form')
    (hbad : ∀ next us, bad next = true ∨ next = .tkError →
      ¬ Yields (form' ++ stackForm p.stack) (next :: us))
    (hend : bad .endOfInput = true)
    (hviable : ∃ us, Yields (form' ++ stackForm p.stack) us)
    (hincomplete : ¬ Yields (form' ++ stackForm p.stack) []) :
    Iterates form (.tkComma :: ts) ending (do
      let p ← p.consume
      let (next, p) ← p.peekType
      if bad next then return p.invalidate else return p.push s) := by
  obtain ⟨tok, hconsume, htok⟩ := consume_cons hpending
  have hviable : ∃ us, Yields form ([.tkComma] ++ us) := hviable.imp fun us => (hform us).mpr
  have hincomplete : ¬ Yields form [.tkComma] := (hform []).not.mpr hincomplete
  rw [hconsume, Run.returns_bind]
  -- What is looked at after the comma: the end of the input, an exception or a token.
  cases ts with
  | nil =>
    cases ending with
    | eof last =>
      obtain ⟨tok', hpeek, -, htok'⟩ := peekType_eof (p := { p with tok }) htok
      rw [hpeek, Run.returns_bind]
      simp only [hend, if_true, Run.pure_eq]
      exact .failed (.exhausted rfl rfl htok' hviable hincomplete)
    | throws e =>
      rw [peekType_throws (p := { p with tok }) htok, Run.throws_bind]
      exact .failed (.thrown rfl hviable hincomplete)
  | cons next ts =>
    obtain ⟨tok', hpeek, htok'⟩ := peekType_cons (p := { p with tok }) htok
    rw [hpeek, Run.returns_bind]
    dsimp only
    have hrefused (h : bad next = true ∨ next = .tkError) (us : List TokenType) :
        ¬ Yields form ([.tkComma] ++ next :: us) := (hform _).not.mpr (hbad next us h)
    by_cases herror : next = .tkError
    · -- the error token makes the parser invalid, with or without the pushed state
      have hrefused := hrefused (.inr herror)
      split
      · exact .failed (.refused [.tkComma] rfl rfl htok' hviable hrefused)
      · -- the handler pushes its state, on a parser that `peek_type` has made invalid
        refine .failed (.refused [.tkComma] rfl ?_ htok' hviable hrefused)
        simp [push, herror]
    · split
      · rename_i h
        exact .failed (.refused [.tkComma] rfl rfl htok' hviable (hrefused (.inl h)))
      · rename_i h
        -- a good token: it stays in the buffer, and the pushed state expects it
        refine .consumed rfl ?_ (.cons p.stack (hgood next (by simpa using h))) htok' hform
        simp [push, hvalid, herror]

/-- After the comma of an object only a string can follow. -/
private theorem iterates_objectComma (hvalid : p.isValid = true)
    (hpending : p.tok.Pending (.tkComma :: ts) ending) :
    Iterates (ParserState.expectObjectComma.form ++ stackForm p.stack) (.tkComma :: ts) ending
      (p.handleObjectComma .tkComma) := by
  have hexpects : Expects (some .tkString) .expectObjectKey
      [tk .tkString, tk .tkColon, nt .value, nt .memberListTail, tk .tkCloseBrace] := .member rfl
  have h := iterates_comma (fun next => next != .tkString) (s := .expectObjectKey) hvalid hpending
    (fun us => yields_memberListTail_cons) (fun next hnext => .member (by simpa using hnext))
    (fun next us hbad hyields => ?_) rfl (exists_yields (.cons p.stack hexpects))
    (not_yields_nil hexpects)
  · simpa [handleObjectComma, ParserState.form] using h
  · obtain ⟨rfl, -⟩ := yields_tk_cons.mp hyields
    simp at hbad

/-- After the comma of an array the array cannot be closed. -/
private theorem iterates_arrayComma (hvalid : p.isValid = true)
    (hpending : p.tok.Pending (.tkComma :: ts) ending) :
    Iterates (ParserState.expectArrayComma.form ++ stackForm p.stack) (.tkComma :: ts) ending
      (p.handleArrayComma .tkComma) := by
  have hexpects : Expects none .expectArrayValue
      [nt .value, nt .valueListTail, tk .tkCloseBracket] := .element nofun
  have hform (us : List TokenType) :
      Yields (ParserState.expectArrayComma.form ++ stackForm p.stack) (.tkComma :: us) ↔
        Yields ([nt .value, nt .valueListTail, tk .tkCloseBracket] ++ stackForm p.stack) us :=
    yields_valueListTail_cons
  refine iterates_comma (fun next => next == .tkCloseBracket || next == .endOfInput)
    (s := .expectArrayValue) hvalid hpending hform (fun next hnext => .element ?_)
    (fun next us hbad hyields => ?_) rfl (exists_yields (.cons p.stack hexpects))
    (not_yields_nil hexpects)
  · rintro ⟨⟩
    simp at hnext
  · have hvalue := yields_value_cons.mp hyields
    rcases hbad with hbad | rfl
    · obtain rfl | rfl : next = .tkCloseBracket ∨ next = .endOfInput := by simpa using hbad
      · exact hvalue
      · exact hvalue
    · exact hvalue

/-- One iteration for a token that is not an error, by the state at the back of the stack. -/
private theorem handle_spec {s : ParserState} (hvalid : p.isValid = true)
    (hpending : p.tok.Pending (k :: ts) ending) (hexpects : Expects (some k) s form) :
    Iterates (form ++ stackForm p.stack) (k :: ts) ending (p.handle s k) := by
  have hviable := exists_yields (.cons p.stack hexpects)
  have hrefuse := iterates_invalidate hpending hviable
  -- After a comma (`member`, `element`) the state reads a token it has already looked at.
  cases hexpects with
  | member h =>
    obtain rfl := Option.some.inj h
    exact iterates_push hvalid hpending fun us => by simp [ParserState.form]
  | element h =>
    have hk : k ≠ .tkCloseBracket := fun hk => h (congrArg some hk)
    simp only [handle, handleArrayValue, beq_iff_eq, hk, if_false]
    exact handleValue_spec (p := p.push .expectArrayComma) hvalid hpending
  | form =>
    cases s with
    | expectValue => exact handleValue_spec hvalid hpending
    | expectObjectKey =>
      cases k with
      | tkCloseBrace => exact iterates_consume hvalid hpending fun us => yields_objectBody_cons
      | tkString => exact iterates_push hvalid hpending fun us => yields_objectBody_cons
      | _ => exact hrefuse fun us => yields_objectBody_cons.mp
    | expectObjectColon =>
      by_cases hk : k = .tkColon
      · subst hk
        exact iterates_push hvalid hpending fun us => by simp [ParserState.form]
      · simp only [handle, handleObjectColon, beq_iff_eq, hk, if_false]
        exact hrefuse fun us => by simp [ParserState.form, hk]
    | expectObjectValue => exact handleValue_spec (p := p.push .expectObjectComma) hvalid hpending
    | expectObjectComma =>
      cases k with
      | tkCloseBrace => exact iterates_consume hvalid hpending fun us => yields_memberListTail_cons
      | tkComma => exact iterates_objectComma hvalid hpending
      | _ => exact hrefuse fun us => yields_memberListTail_cons.mp
    | expectArrayValue =>
      by_cases hk : k = .tkCloseBracket
      · subst hk
        exact iterates_consume hvalid hpending fun us => yields_arrayBody_cons
      · simp only [handle, handleArrayValue, beq_iff_eq, hk, if_false]
        -- a non-empty array: before a value the body is the value and further ones
        refine iterates_congr hviable (fun us => ?_)
          (handleValue_spec (p := p.push .expectArrayComma) hvalid hpending)
        rw [ParserState.form, List.singleton_append, yields_arrayBody_cons]
        cases k with
        | tkCloseBracket => exact absurd rfl hk
        | _ => rfl
    | expectArrayComma =>
      cases k with
      | tkCloseBracket =>
        exact iterates_consume hvalid hpending fun us => yields_valueListTail_cons
      | tkComma => exact iterates_arrayComma hvalid hpending
      | _ => exact hrefuse fun us => yields_valueListTail_cons.mp

/-- No state goes on at the end of the input. -/
theorem handle_endOfInput (p : Parser σ) (s : ParserState) :
    ∃ p', p.handle s .endOfInput = .returns p' ∧ p'.isValid = false ∧ p'.tok = p.tok := by
  cases s <;> exact ⟨_, rfl, rfl, rfl⟩

/-- No state expects an error token. -/
private theorem not_yields_tkError {s : ParserState} (hexpects : Expects (some .tkError) s form)
    {rest : List Sym} {us : List TokenType} : ¬ Yields (form ++ rest) (.tkError :: us) := by
  cases hexpects with
  | member h => cases h
  | element _ => simp [yields_value_cons]
  | form =>
    cases s <;> simp [ParserState.form, yields_value_cons, yields_objectBody_cons,
      yields_memberListTail_cons, yields_arrayBody_cons, yields_valueListTail_cons]

/-- One iteration of the loop of `parse`: the state at the back of the stack reads the next
    token of what the stack expects. -/
theorem iterate_spec {s : ParserState} (stack : List ParserState) (hvalid : p.isValid = true)
    (hpending : p.tok.Pending ts ending) (hexpects : Expects ts.head? s form) :
    Iterates (form ++ stackForm stack) ts ending (p.iterate s stack) := by
  have hviable := exists_yields (.cons stack hexpects)
  have hincomplete : ¬ Yields (form ++ stackForm stack) [] := not_yields_nil hexpects
  unfold iterate
  -- The state at the back has been popped before the next token is looked at.
  cases ts with
  | nil =>
    cases ending with
    | eof last =>
      obtain ⟨tok, hpeek, -, htok⟩ := peekType_eof (p := { p with stack }) hpending
      obtain ⟨p', hhandle, hinvalid, htok'⟩ := handle_endOfInput { p with tok, stack } s
      rw [hpeek, Run.returns_bind]
      simp only [beq_iff_eq, reduceCtorEq, if_false]
      rw [hhandle]
      exact .failed (.exhausted rfl hinvalid (htok' ▸ htok) hviable hincomplete)
    | throws e =>
      rw [peekType_throws (p := { p with stack }) hpending, Run.throws_bind]
      exact .failed (.thrown rfl hviable hincomplete)
  | cons k ts =>
    obtain ⟨tok, hpeek, htok⟩ := peekType_cons (p := { p with stack }) hpending
    rw [hpeek, Run.returns_bind]
    dsimp only
    by_cases hk : k = .tkError
    · -- `peek_type` has made the parser invalid, and no form goes on with an error
      subst hk
      exact iterates_invalidate htok hviable fun us => not_yields_tkError hexpects
    · have hvalid' : (p.isValid && k != .tkError) = true := by simp [hvalid, hk]
      simp only [beq_iff_eq, hk, if_false]
      exact handle_spec (p := { p with tok, stack, isValid := p.isValid && k != .tkError })
        hvalid' htok hexpects

/-! ## The loop -/

/-- What fails after a token that was read fails after the form that the token was read from. -/
private theorem fails_cons {r : Run Exception (Parser σ)}
    (hform : ∀ us, Yields form (k :: us) ↔ Yields form' us) (h : Fails form' ts ending r) :
    Fails form (k :: ts) ending r := by
  cases h with
  | refused seen hts hinvalid hpending hviable hrefused =>
    exact .refused (k :: seen) (congrArg _ hts) hinvalid hpending
      (hviable.imp fun us => (hform _).mpr) fun us => (hform _).not.mpr (hrefused us)
  | exhausted hending hinvalid hpending hviable hincomplete =>
    exact .exhausted hending hinvalid hpending (hviable.imp fun us => (hform _).mpr)
      ((hform ts).not.mpr hincomplete)
  | thrown hending hviable hincomplete =>
    exact .thrown hending (hviable.imp fun us => (hform _).mpr) ((hform ts).not.mpr hincomplete)

end Parser

/-- How the loop of `parse` ends, from a stack that expects `form`. -/
inductive Ends (form : List Sym) (ts : List TokenType) (ending : Ending σ) :
    Run Exception (Parser σ) → Prop where
  | emptied {p : Parser σ} (done : List TokenType) {rest : List TokenType}
      (hts : ts = done ++ rest) (hvalid : p.isValid = true) (hpending : p.tok.Pending rest ending)
      (hform : ∀ us, Yields form (done ++ us) ↔ us = []) : Ends form ts ending (.returns p)
  | failed {r : Run Exception (Parser σ)} (h : Fails form ts ending r) : Ends form ts ending r

namespace Parser

variable {p : Parser σ} {k : TokenType} {ts : List TokenType} {ending : Ending σ}
  {form form' : List Sym}

private theorem ends_cons {r : Run Exception (Parser σ)}
    (hform : ∀ us, Yields form (k :: us) ↔ Yields form' us) (h : Ends form' ts ending r) :
    Ends form (k :: ts) ending r := by
  cases h with
  | emptied done hts hvalid hpending hform' =>
    exact .emptied (k :: done) (congrArg _ hts) hvalid hpending fun us =>
      (hform _).trans (hform' us)
  | failed h => exact .failed (fails_cons hform h)

/-- The loop ends at once when the parser has given up. -/
private theorem loop_invalid (fuel : Nat) (hinvalid : p.isValid = false) :
    Run.loop parseBody (fuel + 1) p = .returns p := by
  apply Run.loop_done fuel
  unfold parseBody
  rw [hinvalid]
  cases p.stack <;> rfl

/-- The loop has at most one more iteration after one that has failed. -/
private theorem loop_failed {s : ParserState} {stack : List ParserState}
    {r : Run Exception (Parser σ)} (fuel : Nat) (hvalid : p.isValid = true)
    (hstack : p.stack = s :: stack) (hr : p.iterate s stack = r) (h : Fails form ts ending r) :
    Run.loop parseBody (fuel + 2) p = r := by
  have hbody : parseBody p = (do let p ← p.iterate s stack; return .yield p) := by
    simp only [parseBody, hstack, hvalid]
  rw [hr] at hbody
  cases h with
  | refused _ _ hinvalid => rw [Run.loop_yield (fuel + 1) hbody, loop_invalid fuel hinvalid]
  | exhausted _ hinvalid => rw [Run.loop_yield (fuel + 1) hbody, loop_invalid fuel hinvalid]
  | thrown => exact Run.loop_throws (fuel + 1) hbody

/-- The loop of `parse`, from any stack. By induction on the tokens: every iteration reads one
    of them, and the stack then expects what is left of the form. -/
theorem loop_spec (fuel : Nat) (hvalid : p.isValid = true) (hpending : p.tok.Pending ts ending)
    (hexpects : StackExpects ts.head? p.stack form) :
    Ends form ts ending (Run.loop parseBody (ts.length + 2 + fuel) p) := by
  induction ts generalizing p form with
  | nil =>
    -- No token is left: the stack is empty, or the iteration fails at the end.
    rw [List.length_nil, Nat.zero_add, Nat.add_comm]
    generalize hstack : p.stack = stack at hexpects
    cases hexpects with
    | nil =>
      rw [Run.loop_done (fuel + 1) (by simp only [parseBody, hstack]; rfl)]
      exact .emptied [] rfl hvalid hpending fun us => yields_form_nil
    | @cons s _ stack hexpects =>
      have hiterate := iterate_spec stack hvalid hpending hexpects
      generalize hr : p.iterate s stack = r at hiterate
      cases hiterate with
      | consumed hts => exact nomatch hts
      | failed h =>
        rw [loop_failed fuel hvalid hstack hr h]
        exact .failed h
  | cons k ts ih =>
    rw [List.length_cons, show ts.length + 1 + 2 + fuel = ts.length + 1 + fuel + 2 by omega]
    generalize hstack : p.stack = stack at hexpects
    cases hexpects with
    | nil =>
      rw [Run.loop_done _ (by simp only [parseBody, hstack]; rfl)]
      exact .emptied [] rfl hvalid hpending fun us => yields_form_nil
    | @cons s _ stack hexpects =>
      have hiterate := iterate_spec stack hvalid hpending hexpects
      generalize hr : p.iterate s stack = r at hiterate
      cases hiterate with
      | @consumed p' form' k' ts' hts hvalid' hexpects' hpending' hform =>
        obtain ⟨rfl, rfl⟩ := List.cons.inj hts
        -- the token is consumed: one iteration less and one token less
        have hbody : parseBody p = .returns (.yield p') := by
          simp only [parseBody, hstack, hvalid, hr, Run.returns_bind, Run.pure_eq]
        rw [Run.loop_yield _ hbody, show ts.length + 1 + fuel + 1 = ts.length + 2 + fuel by omega]
        exact ends_cons hform (ih hvalid' hpending' hexpects')
      | failed h =>
        rw [loop_failed _ hvalid hstack hr h]
        exact .failed h

end Parser

/-! ## The verdict -/

/-- How `parse` ends over a source that delivers `ts`. -/
inductive Verdict (ts : List TokenType) (ending : Ending σ) : Run Exception (Parser σ) → Prop where
  | accepted {p : Parser σ} (hending : ending = .eof p.tok.source) (hok : p.ok = true)
      (hvalue : IsValue ts) : Verdict ts ending (.returns p)
  | rejected {p : Parser σ} (hok : p.ok = false)
      (hvalue : ∀ last, ending = .eof last → ¬ IsValue ts)
      (hpre : ∀ e, ending = .throws e → ¬ ∃ us, IsValue (ts ++ us)) :
      Verdict ts ending (.returns p)
  | thrown {e : Exception} (hending : ending = .throws e) (hpre : ∃ us, IsValue (ts ++ us)) :
      Verdict ts ending (.throws e)

omit [TokenSource σ] in
theorem Verdict.ne_outOfFuel {ts : List TokenType} {ending : Ending σ}
    {r : Run Exception (Parser σ)} (h : Verdict ts ending r) : r ≠ .outOfFuel := by
  cases h <;> exact nofun

omit [TokenSource σ] in
/-- Over a source that comes to the end of the input, the verdict is that of the grammar. -/
theorem Verdict.ok_iff {ts : List TokenType} {last : σ} {r : Run Exception (Parser σ)}
    (h : Verdict ts (.eof last) r) : ∃ p, r = .returns p ∧ (p.ok = true ↔ IsValue ts) := by
  cases h with
  | @accepted p _ hok hvalue => exact ⟨p, rfl, iff_of_true hok hvalue⟩
  | @rejected p hok hvalue =>
    refine ⟨p, rfl, iff_of_false ?_ (hvalue last rfl)⟩
    rw [hok]
    exact Bool.false_ne_true
  | thrown hending => cases hending

namespace Parser

variable {p : Parser σ} {ts : List TokenType} {ending : Ending σ}

/-- What `parse` does after its loop. -/
private def finish (p : Parser σ) : Run Exception (Parser σ) := do
  if p.isValid then
    let (type, p) ← p.peekType
    return if type != .endOfInput then p.invalidate else p
  return p

private theorem parse_eq_finish (fuel : Nat) (p : Parser σ) :
    p.parse fuel = Run.loop parseBody fuel (p.push .expectValue) >>= finish := rfl

/-- More fuel does not change the result of a run that has ended. -/
theorem parse_fuel_mono {r : Run Exception (Parser σ)} {fuel fuel' : Nat} (hle : fuel ≤ fuel')
    (h : p.parse fuel = r) (hr : r ≠ .outOfFuel) : p.parse fuel' = r := by
  rw [parse_eq_finish] at h ⊢
  -- A run that has ended came out of its loop with the smaller fuel already.
  by_cases hloop : Run.loop parseBody fuel (p.push .expectValue) = .outOfFuel
  · rw [hloop, Run.outOfFuel_bind] at h
    exact absurd h.symm hr
  · rw [Run.loop_fuel_mono hle rfl hloop, h]

/-- The stack was emptied: what the loop has read is a value, and the input must end there. -/
private theorem finish_of_emptied {done rest : List TokenType} (hts : ts = done ++ rest)
    (hvalid : p.isValid = true) (hpending : p.tok.Pending rest ending)
    (hform : ∀ us, IsValue (done ++ us) ↔ us = []) : Verdict ts ending p.finish := by
  subst hts
  unfold finish
  rw [if_pos hvalid]
  cases rest with
  | nil =>
    rw [List.append_nil]
    cases ending with
    | eof last =>
      obtain ⟨tok, hpeek, rfl, -⟩ := peekType_eof hpending
      rw [hpeek]
      refine .accepted rfl hvalid ?_
      simpa using (hform []).mpr rfl
    | throws e =>
      rw [peekType_throws hpending]
      exact .thrown rfl ⟨[], (hform []).mpr rfl⟩
  | cons k rest =>
    -- a token after the value: `parse` looks at it and rejects
    obtain ⟨tok, hpeek, -⟩ := peekType_cons hpending
    have hk : (k != .endOfInput) = true := by simpa using hpending.ne_endOfInput
    rw [hpeek, Run.returns_bind]
    simp only [hk, if_true]
    refine .rejected rfl (fun _ _ => (hform _).not.mpr (List.cons_ne_nil k rest)) ?_
    intro e _ h
    obtain ⟨us, hus⟩ := h
    rw [List.append_assoc, hform] at hus
    exact List.cons_ne_nil _ _ hus

/-- The loop stopped early: the tokens are not those of a value. -/
private theorem finish_of_fails {r : Run Exception (Parser σ)} (h : Fails [nt .value] ts ending r) :
    Verdict ts ending (r >>= finish) := by
  cases h with
  | refused seen hts hinvalid hpending hviable hrefused =>
    subst hts
    simp only [finish, Run.returns_bind, hinvalid, Bool.false_eq_true, if_false]
    refine .rejected hinvalid (fun _ _ hvalue => hrefused _ (isValue_iff.mp hvalue)) ?_
    intro e _ h
    obtain ⟨us, hus⟩ := h
    rw [List.append_assoc, isValue_iff] at hus
    exact hrefused _ hus
  | exhausted hending hinvalid hpending hviable hincomplete =>
    simp only [finish, Run.returns_bind, hinvalid, Bool.false_eq_true, if_false]
    refine .rejected hinvalid (fun _ _ hvalue => hincomplete (isValue_iff.mp hvalue)) ?_
    rintro e rfl
    cases hending
  | thrown hending hviable hincomplete =>
    exact .thrown hending (hviable.imp fun us => isValue_iff.mpr)

/-- `parse` over a source that delivers `ts` ends, after at most `ts.length + 2` iterations of
    its loop. -/
theorem parse_spec {s : σ} (h : Delivers s ts ending) :
    ∃ r : Run Exception (Parser σ), Verdict ts ending r ∧
      ∀ fuel, ts.length + 2 ≤ fuel → (Parser.new (Tokenizer.new s)).parse fuel = r := by
  have hverdict : Verdict ts ending ((Parser.new (Tokenizer.new s)).parse (ts.length + 2)) := by
    have hends := loop_spec 0 (p := (Parser.new (Tokenizer.new s)).push .expectValue) rfl
      (.fresh rfl h) (stackExpects_stackForm ts.head? [.expectValue])
    rw [Nat.add_zero] at hends
    rw [parse_eq_finish]
    generalize Run.loop parseBody (ts.length + 2)
      ((Parser.new (Tokenizer.new s)).push .expectValue) = r at hends ⊢
    cases hends with
    | emptied done hts hvalid hpending hform =>
      exact finish_of_emptied hts hvalid hpending fun us => isValue_iff.trans (hform us)
    | failed h => exact finish_of_fails h
  exact ⟨_, hverdict, fun fuel hle => parse_fuel_mono hle rfl hverdict.ne_outOfFuel⟩

end Parser

/-- The parser accepts exactly the token sequences derived from `<value>`. -/
theorem parse_ok_iff {s last : σ} {ts : List TokenType} (h : Delivers s ts (.eof last)) :
    ∃ p, (∀ fuel, ts.length + 2 ≤ fuel →
        (Parser.new (Tokenizer.new s)).parse fuel = .returns p) ∧
      (p.ok = true ↔ IsValue ts) := by
  obtain ⟨r, hverdict, hparse⟩ := Parser.parse_spec h
  obtain ⟨p, rfl, hok⟩ := hverdict.ok_iff
  exact ⟨p, hparse, hok⟩

/-- A source that delivers given token types and then `END_OF_INPUT` forever. -/
structure Script where
  types : List TokenType

instance : TokenSource Script where
  nextToken s := .returns ({ Tokenizer.noToken with type := s.types.headD .endOfInput },
    { types := s.types.tail })

/-- Every sequence of token types is delivered by some source. -/
theorem delivers_script {ts : List TokenType} (h : ∀ k ∈ ts, k ≠ .endOfInput) :
    Delivers (Script.mk ts) ts (.eof (Script.mk [])) := by
  induction ts with
  | nil => exact .eof rfl rfl
  | cons k ts ih =>
    obtain ⟨hk, hts⟩ := List.forall_mem_cons.mp h
    have hnext : TokenSource.nextToken (Script.mk (k :: ts)) =
        .returns ({ Tokenizer.noToken with type := k }, Script.mk ts) := rfl
    exact .cons hnext hk (ih hts)

/-- A trailing comma: the parser ends, without having accepted. -/
theorem parse_ok_iff_trailing_comma :
    ∃ p, (∀ fuel, 6 ≤ fuel → (Parser.new (Tokenizer.new (Script.mk
        [.tkOpenBracket, .tkNumber, .tkComma, .tkCloseBracket]))).parse fuel = .returns p) ∧
      (p.ok = true ↔ IsValue [.tkOpenBracket, .tkNumber, .tkComma, .tkCloseBracket]) :=
  have h : Delivers (Script.mk [.tkOpenBracket, .tkNumber, .tkComma, .tkCloseBracket])
      [.tkOpenBracket, .tkNumber, .tkComma, .tkCloseBracket] (.eof (Script.mk [])) :=
    delivers_script (by decide)
  parse_ok_iff h

end CcJson
