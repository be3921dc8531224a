import CcJson.Spec.Tokens

/-!
# The automaton of the tokenizer

The transitions of `process_state_step` over characters (`move`), and the text
that each state still expects (`expected`). The latter are the residual languages
of the former, so that the automaton finds longest tokens of `docs/SOLUTION.md`.

## Key results

- `automaton`: the states and what they expect, as residual languages
- `lex_accepted`, `lex_rejected`, `lex_ended`: the next token after whitespace
- `lex_of_longest`, `lex_of_properPrefix`, `lex_of_dead`, `lex_of_blanks`: the converses
- `tokenTypeOf_lex_eq_endOfInput`: the texts for which the end of the input is reported
-/

namespace CcJson

open Munch

/-! ## Transitions -/

/-- The transitions of the start state. -/
def startMove (c : Char) : Move State TokenType :=
  match c with
  | '[' => .accept .tkOpenBracket
  | ']' => .accept .tkCloseBracket
  | '{' => .accept .tkOpenBrace
  | '}' => .accept .tkCloseBrace
  | ':' => .accept .tkColon
  | ',' => .accept .tkComma
  | 't' => .shift .inTrue
  | 'f' => .shift .inFalse
  | 'n' => .shift .inNull
  | '"' => .shift .inString
  | '-' => .shift .numberSignStart
  | '0' => .shift .zeroStart
  | c => if c.isDigit then .shift .significantStart else .reject

/-- The transitions of the state `s` of the literal `word`. -/
def literalMove (word : List Char) (s : State) (kind : TokenType) (read : List Char) (c : Char) :
    Move State TokenType :=
  if read ++ [c] = word then .accept kind
  else if read ++ [c] <+: word then .shift s
  else .reject

/-- The transition into the exponent, or else to the end of the number. -/
def exponentMove (c : Char) : Move State TokenType :=
  if c = 'e' ∨ c = 'E' then .shift .exponentStart else .putBack .tkNumber

/-- Go on to `s` on a digit, and do `otherwise` else. -/
def digitMove (s : State) (otherwise : Move State TokenType) (c : Char) : Move State TokenType :=
  if c.isDigit then .shift s else otherwise

/-- Go on to `s` on a hex digit. -/
def hexMove (s : State) (c : Char) : Move State TokenType :=
  if isHex c then .shift s else .reject

/-- The transitions inside a string. -/
def stringMove (c : Char) : Move State TokenType :=
  if c = '"' then .accept .tkString
  else if c = '\\' then .shift .stringEscapeSequence
  else if isControl c then .reject
  else .shift .inString

/-- The transitions after a backslash. -/
def escapeMove (c : Char) : Move State TokenType :=
  if isEscape c then .shift .inString
  else if c = 'u' then .shift .stringUnicodeEscapeSequence
  else .reject

/-- The transitions of `process_state_step`. The two states in which a scan has
    stopped have none. -/
def move (s : State) (read : List Char) (c : Char) : Move State TokenType :=
  match s with
  | .start => startMove c
  | .inTrue => literalMove ['t', 'r', 'u', 'e'] .inTrue .tkTrue read c
  | .inFalse => literalMove ['f', 'a', 'l', 's', 'e'] .inFalse .tkFalse read c
  | .inNull => literalMove ['n', 'u', 'l', 'l'] .inNull .tkNull read c
  | .inString => stringMove c
  | .stringEscapeSequence => escapeMove c
  | .stringUnicodeEscapeSequence => hexMove .hexOne c
  | .hexOne => hexMove .hexTwo c
  | .hexTwo => hexMove .hexThree c
  | .hexThree => hexMove .inString c
  | .numberSignStart =>
    if c = '0' then .shift .zeroStart else digitMove .significantStart .reject c
  | .zeroStart => if c = '.' then .shift .decimalStart else exponentMove c
  | .significantStart =>
    digitMove .significantStart (if c = '.' then .shift .decimalStart else exponentMove c) c
  | .decimalStart => digitMove .decimalDigit .reject c
  | .decimalDigit => digitMove .decimalDigit (exponentMove c) c
  | .exponentStart =>
    if c = '+' ∨ c = '-' then .shift .exponentSign else digitMove .exponentDigit .reject c
  | .exponentSign => digitMove .exponentDigit .reject c
  | .exponentDigit => digitMove .exponentDigit (.putBack .tkNumber) c
  | .dead | .completed => .reject

/-! ## What the states expect -/

/-- `read` is a beginning of `word` with something missing. -/
def Begins (word read : List Char) : Prop := ∃ d w, word = read ++ d :: w

/-- The states and texts that occur during a scan. -/
def Live (s : State) (read : List Char) : Prop :=
  match s with
  | .start => read = []
  | .inTrue => Begins ['t', 'r', 'u', 'e'] read
  | .inFalse => Begins ['f', 'a', 'l', 's', 'e'] read
  | .inNull => Begins ['n', 'u', 'l', 'l'] read
  | .dead | .completed => False
  | _ => True

/-- `v` completes a token of `kind` in state `s`, after `read`. -/
def expected (s : State) (read : List Char) (kind : TokenType) (v : List Char) : Prop :=
  match s with
  | .start => IsToken kind v
  | .inTrue => kind = .tkTrue ∧ ['t', 'r', 'u', 'e'] = read ++ v
  | .inFalse => kind = .tkFalse ∧ ['f', 'a', 'l', 's', 'e'] = read ++ v
  | .inNull => kind = .tkNull ∧ ['n', 'u', 'l', 'l'] = read ++ v
  | .inString => kind = .tkString ∧ StringContent v
  | .stringEscapeSequence => kind = .tkString ∧ EscapeRest v
  | .stringUnicodeEscapeSequence => kind = .tkString ∧ HexThen 4 v
  | .hexOne => kind = .tkString ∧ HexThen 3 v
  | .hexTwo => kind = .tkString ∧ HexThen 2 v
  | .hexThree => kind = .tkString ∧ HexThen 1 v
  | .numberSignStart => kind = .tkNumber ∧ Numerical v
  | .zeroStart => kind = .tkNumber ∧ FractionTail v
  | .significantStart => kind = .tkNumber ∧ DigitsThen FractionTail v
  | .decimalStart => kind = .tkNumber ∧ DecimalRest v
  | .decimalDigit => kind = .tkNumber ∧ DigitsThen ExponentTail v
  | .exponentStart => kind = .tkNumber ∧ SignedDigits v
  | .exponentSign => kind = .tkNumber ∧ Digits1 v
  | .exponentDigit => kind = .tkNumber ∧ Digits v
  | .dead | .completed => False

/-- The type of token that is complete in a state. -/
def finalKind (s : State) : Option TokenType := if isNumberState s then some .tkNumber else none

/-- How `move` on `c` determines what `s` expects. -/
abbrev Derives (s : State) (read : List Char) (c : Char) (m : Move State TokenType) : Prop :=
  m.Derives Live expected finalKind s read c

section Literals

variable {word read : List Char} {c : Char} {s : State} {kind : TokenType}

/-- The transitions of a literal state derive the rest of the literal. -/
private theorem derives_literal (hlang : ∀ r k v, expected s r k v ↔ k = kind ∧ word = r ++ v)
    (hlive : ∀ r, Live s r ↔ Begins word r) (hfinal : finalKind s = none) :
    Derives s read c (literalMove word s kind read c) := by
  unfold literalMove
  split
  · rename_i hword
    -- the last character of the literal: nothing but the empty text completes it
    intro k v
    rw [hlang, ← hword, List.append_cancel_left_eq]
    simp
  · rename_i hword
    split
    · -- a proper beginning of the literal: something is still missing after `c`
      rename_i hpre
      obtain ⟨w, hw⟩ := hpre
      constructor
      · rw [hlive]
        cases w with
        | nil => exact absurd (by simpa using hw) hword
        | cons d w => exact ⟨d, w, hw.symm⟩
      · intro k v
        rw [hlang, hlang, List.append_assoc, List.singleton_append]
    · -- no beginning of the literal: a completion would make it one
      rename_i hpre
      refine ⟨hfinal, ?_⟩
      intro k v hv
      obtain ⟨-, hv⟩ := (hlang read k (c :: v)).mp hv
      exact hpre ⟨v, by rw [hv, List.append_assoc, List.singleton_append]⟩

end Literals

/-- A first character of no number. -/
private theorem not_tkNumber_cons {c : Char} {v : List Char} (hminus : c ≠ '-')
    (hdigit : c.isDigit = false) : ¬ TkNumber (c :: v) := by
  rw [tkNumber_cons, numerical_cons]
  intro h
  obtain ⟨rfl, -⟩ | ⟨rfl, -⟩ | ⟨hd, -⟩ := h
  · exact hminus rfl
  · exact nomatch hdigit
  · rw [hdigit] at hd
    exact nomatch hd

private theorem isDigit_zero : Char.isDigit '0' = true := rfl

/-- The transitions of the start state, by the first character of the tokens. -/
private theorem derives_start {c : Char} : Derives .start [] c (startMove c) := by
  unfold startMove
  split
  -- the punctuation
  iterate 6
    · intro k v
      cases k <;> simp [expected, IsToken, fixedText, not_tkNumber_cons, eq_comm]
  · -- the first letters of the literals, with the rest of the word as what is missing
    refine ⟨⟨'r', ['u', 'e'], rfl⟩, fun k v => ?_⟩
    cases k <;> simp [expected, IsToken, fixedText, not_tkNumber_cons, eq_comm]
  · refine ⟨⟨'a', ['l', 's', 'e'], rfl⟩, fun k v => ?_⟩
    cases k <;> simp [expected, IsToken, fixedText, not_tkNumber_cons, eq_comm]
  · refine ⟨⟨'u', ['l', 'l'], rfl⟩, fun k v => ?_⟩
    cases k <;> simp [expected, IsToken, fixedText, not_tkNumber_cons, eq_comm]
  · -- the quote of a string
    refine ⟨trivial, fun k v => ?_⟩
    cases k <;> simp [expected, IsToken, fixedText, not_tkNumber_cons]
  · -- the sign and the leading zero of a number
    refine ⟨trivial, fun k v => ?_⟩
    cases k <;> simp [expected, IsToken, fixedText, tkNumber_cons, numerical_cons]
  · refine ⟨trivial, fun k v => ?_⟩
    cases k <;> simp [expected, IsToken, fixedText, tkNumber_cons, numerical_cons, isDigit_zero]
  · rename_i hobr hcbr hobrace hcbrace hcolon hcomma ht hf hn hquote hminus hzero
    replace hquote : c ≠ '"' := hquote
    split
    · -- a significant digit: only a number starts with it
      rename_i hdigit
      refine ⟨trivial, fun k v => ?_⟩
      cases k with
      | tkString => simp [expected, IsToken, hquote]
      | tkNumber =>
        simp [expected, IsToken, tkNumber_cons, numerical_cons, hdigit,
          show c ≠ '-' from hminus, show c ≠ '0' from hzero]
      | _ => simp only [expected, IsToken, fixedText]; grind
    · -- no digit either, so that no token starts with `c`
      rename_i hdigit
      refine ⟨rfl, fun k v => ?_⟩
      cases k with
      | tkString => simp [expected, IsToken, hquote]
      | tkNumber => exact not_tkNumber_cons hminus (Bool.eq_false_iff.mpr hdigit)
      | _ => simp only [expected, IsToken, fixedText]; grind

private theorem derives_string {read : List Char} {c : Char} :
    Derives .inString read c (stringMove c) := by
  unfold stringMove
  by_cases hquote : c = '"'
  · rw [if_pos hquote]
    intro k v
    simp [expected, stringContent_cons, hquote]
  · rw [if_neg hquote]
    by_cases hslash : c = '\\'
    · rw [if_pos hslash]
      refine ⟨trivial, fun k v => ?_⟩
      simp [expected, stringContent_cons, hslash]
    · rw [if_neg hslash]
      cases hcontrol : isControl c with
      | true =>
        refine ⟨rfl, fun k v => ?_⟩
        simp [expected, stringContent_cons, hquote, hslash, hcontrol]
      | false =>
        refine ⟨trivial, fun k v => ?_⟩
        simp [expected, stringContent_cons, hquote, hslash, hcontrol]

private theorem derives_escape {read : List Char} {c : Char} :
    Derives .stringEscapeSequence read c (escapeMove c) := by
  unfold escapeMove
  cases hescape : isEscape c with
  | true =>
    refine ⟨trivial, fun k v => ?_⟩
    -- `u` is not among the one-letter escapes, so the two alternatives exclude each other.
    have hu : c ≠ 'u' := by rintro rfl; exact nomatch hescape
    simp [expected, escapeRest_cons, hescape, hu]
  | false =>
    rw [if_neg Bool.false_ne_true]
    by_cases hu : c = 'u'
    · subst hu
      refine ⟨trivial, fun k v => ?_⟩
      simp [expected, escapeRest_cons, hescape]
    · rw [if_neg hu]
      refine ⟨rfl, fun k v => ?_⟩
      simp [expected, escapeRest_cons, hescape, hu]

/-- A state that expects `n + 1` hex digits goes on to one that expects `n`. -/
private theorem derives_hex {s s' : State} {n : Nat} {read : List Char} {c : Char}
    (hfinal : finalKind s = none)
    (hlive : ∀ r, Live s' r)
    (hs : ∀ r k v, expected s r k v ↔ k = .tkString ∧ HexThen (n + 1) v)
    (hs' : ∀ r k v, expected s' r k v ↔ k = .tkString ∧ HexThen n v) :
    Derives s read c (hexMove s' c) := by
  unfold hexMove
  cases hhex : isHex c with
  | true =>
    refine ⟨hlive _, fun k v => ?_⟩
    simp [hs, hs', hexThen_cons, hhex]
  | false =>
    refine ⟨hfinal, fun k v => ?_⟩
    simp [hs, hexThen_cons, hhex]

/-- A digit is none of the other characters of numbers. -/
private theorem ne_of_isDigit {c : Char} (h : c.isDigit = true) :
    c ≠ '.' ∧ c ≠ 'e' ∧ c ≠ 'E' ∧ c ≠ '+' ∧ c ≠ '-' := by
  refine ⟨?_, ?_, ?_, ?_, ?_⟩ <;> (rintro rfl; exact nomatch h)

/-- A state that goes on to `s'` on digits and leaves everything else to `otherwise`. -/
private theorem derives_digit {s s' : State} {read : List Char} {c : Char}
    {otherwise : Move State TokenType} (hlive : ∀ r, Live s' r)
    (hdigit : c.isDigit = true → ∀ k v, expected s read k (c :: v) ↔ expected s' (read ++ [c]) k v)
    (hother : c.isDigit = false → Derives s read c otherwise) :
    Derives s read c (digitMove s' otherwise c) := by
  unfold digitMove
  cases hd : c.isDigit with
  | true => exact ⟨hlive _, hdigit hd⟩
  | false => exact hother hd

/-- A state with a complete number goes on to the exponent or ends the number. -/
private theorem derives_exponent {s : State} {read : List Char} {c : Char}
    (hfinal : finalKind s = some .tkNumber)
    (hs : ∀ k v, expected s read k (c :: v) ↔ k = .tkNumber ∧ ExponentTail (c :: v)) :
    Derives s read c (exponentMove c) := by
  unfold exponentMove
  split
  · rename_i he
    refine ⟨trivial, fun k v => ?_⟩
    rw [hs, exponentTail_cons]
    simp [expected, he]
  · rename_i he
    refine ⟨hfinal, fun k v => ?_⟩
    rw [hs, exponentTail_cons]
    simp [he]

private theorem derives_number {s : State} {read : List Char} {c : Char}
    (hs : s = .numberSignStart ∨ s = .zeroStart ∨ s = .significantStart ∨ s = .decimalStart ∨
      s = .decimalDigit ∨ s = .exponentStart ∨ s = .exponentSign ∨ s = .exponentDigit) :
    Derives s read c (move s read c) := by
  rcases hs with rfl | rfl | rfl | rfl | rfl | rfl | rfl | rfl
  · -- numberSignStart
    -- A leading zero allows no further digits, a significant digit does.
    by_cases h0 : c = '0'
    · subst h0
      exact ⟨trivial, fun k v => by simp [expected, numerical_cons]⟩
    · rw [move, if_neg h0]
      refine derives_digit (fun _ => trivial) ?_ ?_
      · intro hd k v
        simp [expected, numerical_cons, h0, hd]
      · intro hd
        exact ⟨rfl, fun k v => by simp [expected, numerical_cons, h0, hd]⟩
  · -- zeroStart
    by_cases hdot : c = '.'
    · subst hdot
      exact ⟨trivial, fun k v => by simp [expected, fractionTail_cons]⟩
    · rw [move, if_neg hdot]
      apply derives_exponent rfl
      intro k v
      simp [expected, fractionTail_cons, exponentTail_cons, hdot]
  · -- significantStart
    refine derives_digit (fun _ => trivial) ?_ ?_
    · intro hd k v
      simp [expected, digitsThen_cons, fractionTail_cons, hd, ne_of_isDigit hd]
    · intro hd
      by_cases hdot : c = '.'
      · rw [if_pos hdot]
        exact ⟨trivial, fun k v => by
          simp [expected, digitsThen_cons, fractionTail_cons, hdot]⟩
      · rw [if_neg hdot]
        apply derives_exponent rfl
        intro k v
        simp [expected, digitsThen_cons, fractionTail_cons, exponentTail_cons, hdot, hd]
  · -- decimalStart
    refine derives_digit (fun _ => trivial) ?_ ?_
    · intro hd k v
      simp [expected, decimalRest_cons, hd]
    · intro hd
      exact ⟨rfl, fun k v => by simp [expected, decimalRest_cons, hd]⟩
  · -- decimalDigit
    refine derives_digit (fun _ => trivial) ?_ ?_
    · intro hd k v
      simp [expected, digitsThen_cons, exponentTail_cons, hd, ne_of_isDigit hd]
    · intro hd
      apply derives_exponent rfl
      intro k v
      simp [expected, digitsThen_cons, hd]
  · -- exponentStart
    by_cases hsign : c = '+' ∨ c = '-'
    · rw [move, if_pos hsign]
      have hd : c.isDigit = false := by rcases hsign with rfl | rfl <;> rfl
      exact ⟨trivial, fun k v => by simp [expected, signedDigits_cons, hsign, hd]⟩
    · rw [move, if_neg hsign]
      refine derives_digit (fun _ => trivial) ?_ ?_
      · intro hd k v
        simp [expected, signedDigits_cons, hsign, hd]
      · intro hd
        exact ⟨rfl, fun k v => by simp [expected, signedDigits_cons, hsign, hd]⟩
  · -- exponentSign
    refine derives_digit (fun _ => trivial) ?_ ?_
    · intro hd k v
      simp [expected, hd]
    · intro hd
      exact ⟨rfl, fun k v => by simp [expected, hd]⟩
  · -- exponentDigit
    refine derives_digit (fun _ => trivial) ?_ ?_
    · intro hd k v
      simp [expected, hd]
    · intro hd
      exact ⟨rfl, fun k v => by simp [expected, hd]⟩

private theorem derives_stopped {s : State} {read : List Char} {c : Char}
    (hs : s = .dead ∨ s = .completed) : Derives s read c (move s read c) := by
  rcases hs with rfl | rfl
  · exact ⟨rfl, fun k v => id⟩
  · exact ⟨rfl, fun k v => id⟩

private theorem not_isToken_nil {kind : TokenType} : ¬ IsToken kind [] := by
  cases kind <;> simp [IsToken, fixedText]

private theorem Begins.ne {word read : List Char} (h : Begins word read) : word ≠ read := by
  obtain ⟨d, w, rfl⟩ := h
  simp

/-- What a live state takes as complete. -/
private theorem expected_nil {s : State} {read : List Char} (hlive : Live s read)
    (kind : TokenType) : expected s read kind [] ↔ finalKind s = some kind := by
  have hnumber : kind = .tkNumber ↔ some TokenType.tkNumber = some kind := by
    rw [Option.some.injEq, eq_comm]
  cases s with
  | start => simp [expected, not_isToken_nil, finalKind, isNumberState]
  | inTrue | inFalse | inNull =>
    have hne := Begins.ne hlive
    simp [expected, hne, finalKind, isNumberState]
  | zeroStart | exponentDigit => simpa [expected, finalKind, isNumberState] using hnumber
  | significantStart | decimalDigit =>
    simpa [expected, digitsThen_nil, finalKind, isNumberState] using hnumber
  | _ => simp [expected, finalKind, isNumberState]

/-- Every live state can read something. -/
private theorem expected_continues {s : State} {read : List Char} (hlive : Live s read) :
    ∃ k c v, expected s read k (c :: v) := by
  cases s with
  | start => exact ⟨.tkComma, ',', [], rfl⟩
  | inTrue => obtain ⟨d, w, h⟩ := hlive; exact ⟨.tkTrue, d, w, rfl, h⟩
  | inFalse => obtain ⟨d, w, h⟩ := hlive; exact ⟨.tkFalse, d, w, rfl, h⟩
  | inNull => obtain ⟨d, w, h⟩ := hlive; exact ⟨.tkNull, d, w, rfl, h⟩
  | dead => exact hlive.elim
  | completed => exact hlive.elim
  | inString => exact ⟨.tkString, '"', [], rfl, .quote⟩
  | stringEscapeSequence =>
    exact ⟨.tkString, 'n', ['"'], rfl, escapeRest_cons.mpr (.inl ⟨rfl, .quote⟩)⟩
  | stringUnicodeEscapeSequence =>
    exact ⟨.tkString, '0', ['0', '0', '0', '"'], rfl, ['0', '0', '0', '0'], ['"'], rfl, rfl,
      by simp [isHex], .quote⟩
  | hexOne =>
    exact ⟨.tkString, '0', ['0', '0', '"'], rfl, ['0', '0', '0'], ['"'], rfl, rfl,
      by simp [isHex], .quote⟩
  | hexTwo =>
    exact ⟨.tkString, '0', ['0', '"'], rfl, ['0', '0'], ['"'], rfl, rfl, by simp [isHex], .quote⟩
  | hexThree => exact ⟨.tkString, '0', ['"'], rfl, ['0'], ['"'], rfl, rfl, by simp [isHex], .quote⟩
  | numberSignStart => exact ⟨.tkNumber, '0', [], rfl, .start .zero⟩
  | zeroStart =>
    exact ⟨.tkNumber, 'e', ['1'], rfl, fractionTail_cons.mpr (by simp [signedDigits_cons])⟩
  | significantStart =>
    exact ⟨.tkNumber, '1', [], rfl, ['1'], [], rfl, by simp, fractionTail_nil⟩
  | decimalStart =>
    exact ⟨.tkNumber, '1', [], rfl, decimalRest_cons.mpr ⟨rfl, [], [], rfl, by simp,
      exponentTail_nil⟩⟩
  | decimalDigit =>
    exact ⟨.tkNumber, '1', [], rfl, ['1'], [], rfl, by simp, exponentTail_nil⟩
  | exponentStart => exact ⟨.tkNumber, '1', [], rfl, .unsigned (by simp)⟩
  | exponentSign => exact ⟨.tkNumber, '1', [], rfl, by simp⟩
  | exponentDigit => exact ⟨.tkNumber, '1', [], rfl, by simp⟩

/-- Every transition derives what its state expects. -/
private theorem derives_move {s : State} {read : List Char} (hlive : Live s read) (c : Char) :
    Derives s read c (move s read c) := by
  cases s with
  | start => obtain rfl := hlive; exact derives_start
  | inTrue => exact derives_literal (fun _ _ _ => Iff.rfl) (fun _ => Iff.rfl) rfl
  | inFalse => exact derives_literal (fun _ _ _ => Iff.rfl) (fun _ => Iff.rfl) rfl
  | inNull => exact derives_literal (fun _ _ _ => Iff.rfl) (fun _ => Iff.rfl) rfl
  | inString => exact derives_string
  | stringEscapeSequence => exact derives_escape
  | stringUnicodeEscapeSequence =>
    exact derives_hex rfl (fun _ => trivial) (fun _ _ _ => Iff.rfl) (fun _ _ _ => Iff.rfl)
  | hexOne =>
    exact derives_hex rfl (fun _ => trivial) (fun _ _ _ => Iff.rfl) (fun _ _ _ => Iff.rfl)
  | hexTwo =>
    exact derives_hex rfl (fun _ => trivial) (fun _ _ _ => Iff.rfl) (fun _ _ _ => Iff.rfl)
  | hexThree =>
    refine derives_hex (n := 0) rfl (fun _ => trivial) (fun _ _ _ => Iff.rfl) (fun r k v => ?_)
    rw [hexThen_zero]
    exact Iff.rfl
  | dead => exact derives_stopped (.inl rfl)
  | completed => exact derives_stopped (.inr rfl)
  | _ => exact derives_number (by simp)

/-- The states of the tokenizer with what they expect. -/
def automaton : Residuals move where
  live := Live
  lang := expected
  final := finalKind
  nil := expected_nil
  step := derives_move
  continues := expected_continues

private theorem live_start : automaton.live .start [] := rfl

/-! ## The next token -/

/-- No token starts with whitespace. -/
theorem isBlank_of_tokenPrefix {c : Char} {v : List Char}
    (h : TokenPrefix IsToken (c :: v)) : isBlank c = false := by
  rw [Bool.eq_false_iff]
  intro hblank
  -- The start state rejects whitespace, and what it rejects starts no token.
  have hmove : move .start [] c = .reject := by
    simp only [isBlank, Bool.or_eq_true, beq_iff_eq] at hblank
    rcases hblank with ((rfl | rfl) | rfl) | rfl <;> rfl
  obtain ⟨k, u, hu⟩ := h
  exact (automaton.reject live_start hmove).2 k _ hu

/-- The scan of the next token: whitespace is skipped before it. -/
def lex (cs : List Char) : Outcome State TokenType Char :=
  scan move .start [] (cs.dropWhile isBlank)

/-- The whitespace before the next token. -/
def leadingBlanks (cs : List Char) : List Char := cs.takeWhile isBlank

theorem blanks_leadingBlanks (cs : List Char) : Blanks (leadingBlanks cs) :=
  List.all_eq_true.mp List.all_takeWhile

theorem leadingBlanks_append (cs : List Char) :
    leadingBlanks cs ++ cs.dropWhile isBlank = cs := List.takeWhile_append_dropWhile

theorem lex_accepted {cs w rest : List Char} {k : TokenType} (h : lex cs = .accepted k w rest) :
    cs = leadingBlanks cs ++ (w ++ rest) ∧ Longest IsToken k w rest := by
  obtain ⟨v, rfl, hcs, hlong⟩ := automaton.scan_accepted live_start h
  refine ⟨?_, hlong⟩
  rw [← hcs, leadingBlanks_append]

theorem lex_rejected {cs w rest : List Char} (h : lex cs = .rejected w rest) :
    cs = leadingBlanks cs ++ (w ++ rest) ∧ ∃ v c, w = v ++ [c] ∧ Dead IsToken v c := by
  obtain ⟨v, c, rfl, hcs, hdead⟩ := automaton.scan_rejected live_start h
  refine ⟨?_, v, c, rfl, hdead⟩
  rw [List.nil_append, List.append_assoc, List.singleton_append, ← hcs, leadingBlanks_append]

theorem lex_ended {cs w : List Char} {s : State} (h : lex cs = .ended s w) :
    cs = leadingBlanks cs ++ w ∧ ProperPrefix IsToken w ∧
      ∀ k, IsToken k w ↔ finalKind s = some k := by
  obtain ⟨rfl, hpre, hfinal⟩ := automaton.scan_ended live_start h
  refine ⟨?_, hpre, hfinal⟩
  rw [List.nil_append, leadingBlanks_append]

/-- Whitespace before a text that starts a token is skipped. -/
theorem dropWhile_blanks {b w r : List Char} (hb : Blanks b) (hw : w ≠ [])
    (hpre : TokenPrefix IsToken w) : (b ++ (w ++ r)).dropWhile isBlank = w ++ r := by
  rw [List.dropWhile_append_of_pos hb]
  cases w with
  | nil => exact absurd rfl hw
  | cons c w => rw [List.cons_append, List.dropWhile_cons_of_neg (by
      rw [isBlank_of_tokenPrefix hpre]; exact Bool.false_ne_true)]

theorem IsToken.ne_nil {k : TokenType} {w : List Char} (h : IsToken k w) : w ≠ [] := by
  rintro rfl
  exact not_isToken_nil h

/-- Only a number can be continued. -/
theorem longest_of_ne_number {k : TokenType} {w : List Char} (hw : IsToken k w)
    (hk : k ≠ .tkNumber) (rest : List Char) : Longest IsToken k w rest := by
  -- Every final state is one of a number.
  refine automaton.longest_of_not_final live_start hw (fun s hs => ?_) rest
  change finalKind s = some k at hs
  unfold finalKind at hs
  split at hs
  · exact hk (Option.some.inj hs).symm
  · exact nomatch hs

theorem lex_of_longest {b w rest : List Char} {k : TokenType} (hb : Blanks b)
    (h : Longest IsToken k w rest) :
    lex (b ++ (w ++ rest)) = .accepted k w rest ∨
    ∃ s, lex (b ++ (w ++ rest)) = .ended s w ∧ rest = [] ∧ finalKind s = some k := by
  rw [lex, dropWhile_blanks hb h.1.ne_nil (tokenPrefix_of_lang h.1)]
  exact automaton.scan_of_longest live_start h

theorem lex_of_properPrefix {b w : List Char} (hb : Blanks b) (hw : w ≠ [])
    (h : ProperPrefix IsToken w) : ∃ s, lex (b ++ w) = .ended s w := by
  have hdrop := dropWhile_blanks (r := []) hb hw h.tokenPrefix
  rw [List.append_nil] at hdrop
  rw [lex, hdrop]
  exact automaton.scan_of_properPrefix live_start h

theorem lex_of_dead {b v rest : List Char} {c : Char} (hb : Blanks b)
    (hstart : v = [] → isBlank c = false) (h : Dead IsToken v c) :
    lex (b ++ (v ++ c :: rest)) = .rejected (v ++ [c]) rest := by
  have hdrop : (b ++ (v ++ c :: rest)).dropWhile isBlank = v ++ c :: rest := by
    cases v with
    | nil =>
      rw [List.nil_append, List.dropWhile_append_of_pos hb,
        List.dropWhile_cons_of_neg (by rw [hstart rfl]; exact Bool.false_ne_true)]
    | cons d v => exact dropWhile_blanks hb (List.cons_ne_nil d v) h.1
  rw [lex, hdrop, automaton.scan_of_dead live_start h, List.nil_append]

theorem lex_of_blanks {b : List Char} (hb : Blanks b) : lex b = .ended .start [] := by
  rw [lex, ← List.append_nil b, List.dropWhile_append_of_pos hb]
  rfl

/-! ## What an outcome says of the token -/

/-- The type of the token for an outcome. A text that ends inside a token is a
    number if it can be one, and else reads as the end of the input. -/
def tokenTypeOf : Outcome State TokenType Char → TokenType
  | .accepted kind _ _ => kind
  | .rejected _ _ => .tkError
  | .ended s _ => (finalKind s).getD .endOfInput

/-- The text of the token for an outcome. -/
def lexemeOf : Outcome State TokenType Char → List Char
  | .accepted _ w _ => w
  | .rejected w _ => w
  | .ended _ w => w

/-- The text after the token for an outcome. -/
def restOf : Outcome State TokenType Char → List Char
  | .accepted _ _ rest => rest
  | .rejected _ rest => rest
  | .ended _ _ => []

/-- The scan ended with the input. -/
def Ended : Outcome State TokenType Char → Prop
  | .ended _ _ => True
  | _ => False

/-- A text is whitespace, the next token and the rest. -/
theorem lex_split (cs : List Char) :
    leadingBlanks cs ++ (lexemeOf (lex cs) ++ restOf (lex cs)) = cs := by
  cases h : lex cs with
  | accepted kind w rest => exact (lex_accepted h).1.symm
  | rejected w rest => exact (lex_rejected h).1.symm
  | ended s w =>
    show leadingBlanks cs ++ (w ++ []) = cs
    rw [List.append_nil]
    exact (lex_ended h).1.symm

/-- A token that is not at the end of the text is not empty. -/
theorem lexemeOf_ne_nil {cs : List Char} (h : ¬ Ended (lex cs)) : lexemeOf (lex cs) ≠ [] := by
  cases hlex : lex cs with
  | accepted kind w rest => exact (lex_accepted hlex).2.1.ne_nil
  | rejected w rest =>
    obtain ⟨-, v, c, rfl, -⟩ := lex_rejected hlex
    simp [lexemeOf]
  | ended s w =>
    rw [hlex] at h
    exact absurd trivial h

theorem not_isToken_endOfInput {w : List Char} : ¬ IsToken .endOfInput w := by
  simp [IsToken, fixedText]

/-- The end of the input is reported for whitespace and for unfinished tokens. -/
theorem tokenTypeOf_eq_endOfInput {cs : List Char} :
    tokenTypeOf (lex cs) = .endOfInput ↔
      Ended (lex cs) ∧ (lexemeOf (lex cs) = [] ∨ Unfinished (lexemeOf (lex cs))) := by
  cases hlex : lex cs with
  | accepted kind w rest =>
    simp only [tokenTypeOf, Ended, false_and, iff_false]
    rintro rfl
    exact not_isToken_endOfInput (lex_accepted hlex).2.1
  | rejected w rest => simp [tokenTypeOf, Ended]
  | ended s w =>
    obtain ⟨-, hpre, hfinal⟩ := lex_ended hlex
    simp only [tokenTypeOf, Ended, lexemeOf, true_and]
    constructor
    · -- No kind is complete in the state reached: the text is empty or unfinished.
      intro htype
      have hnone : finalKind s = none := by
        unfold finalKind at htype ⊢
        cases hs : isNumberState s with
        | true => rw [hs] at htype; exact nomatch htype
        | false => rfl
      by_cases hw : w = []
      · exact .inl hw
      · refine .inr ⟨hw, hpre, fun kind hkind => ?_⟩
        rw [hfinal, hnone] at hkind
        exact nomatch hkind
    · -- An empty or unfinished text is no token, so the state reached is not final.
      intro hw
      have hnone : finalKind s = none := by
        cases hs : finalKind s with
        | none => rfl
        | some kind =>
          have hkind := (hfinal kind).mpr hs
          rcases hw with rfl | hw
          · exact absurd rfl hkind.ne_nil
          · exact absurd hkind (hw.2.2 kind)
      rw [hnone]
      rfl

/-- A text is whitespace only, or whitespace and an unfinished token, iff the end of
    the input is reported for it. -/
theorem tokenTypeOf_lex_eq_endOfInput {cs : List Char} :
    tokenTypeOf (lex cs) = .endOfInput ↔
      Blanks cs ∨ ∃ b u, cs = b ++ u ∧ Blanks b ∧ Unfinished u := by
  constructor
  · intro h
    obtain ⟨hended, hlexeme⟩ := tokenTypeOf_eq_endOfInput.mp h
    have hcs := lex_split cs
    have hb := blanks_leadingBlanks cs
    -- A scan that ends with the input leaves nothing behind.
    have hrest : restOf (lex cs) = [] := by
      cases hlex : lex cs with
      | ended s w => rfl
      | _ => rw [hlex] at hended; exact hended.elim
    rw [hrest, List.append_nil] at hcs
    rcases hlexeme with hnil | hu
    · rw [hnil, List.append_nil] at hcs
      exact .inl (hcs ▸ hb)
    · exact .inr ⟨_, _, hcs.symm, hb, hu⟩
  · intro h
    obtain hb | ⟨b, u, rfl, hb, hne, hpre, hno⟩ := h
    · rw [lex_of_blanks hb]
      rfl
    · obtain ⟨s, hs⟩ := lex_of_properPrefix hb hne hpre
      rw [tokenTypeOf_eq_endOfInput, hs]
      refine ⟨trivial, .inr ⟨hne, hpre, hno⟩⟩

/-- The scan ends with the text after whitespace and the beginning of a token. -/
theorem ended_lex_iff {cs : List Char} :
    Ended (lex cs) ↔ ∃ b u, cs = b ++ u ∧ Blanks b ∧ ProperPrefix IsToken u := by
  constructor
  · intro h
    cases hlex : lex cs with
    | ended s w =>
      obtain ⟨hcs, hpre, -⟩ := lex_ended hlex
      exact ⟨_, w, hcs, blanks_leadingBlanks cs, hpre⟩
    | _ => rw [hlex] at h; exact h.elim
  · intro h
    obtain ⟨b, u, rfl, hb, hpre⟩ := h
    by_cases hu : u = []
    · rw [hu, List.append_nil, lex_of_blanks hb]
      trivial
    · obtain ⟨s, hs⟩ := lex_of_properPrefix hb hu hpre
      rw [hs]
      trivial

end CcJson
