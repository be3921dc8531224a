import CcJson.Spec.TokenizerCorrect

/-!
# What `next_token` recognises

In every reachable state over well-formed unread text, `next_token` returns a token of a
kind exactly if the text goes on with a longest token of the kind, and an error exactly
at the first character that is part of no token.

## Key results

- `recognises_iff`: the tokens of every kind
- `number_recognised`, `string_recognised`: numbers and strings of the grammar
- `error_at_first_impossible`: where errors are detected
- `recovers_iff`: when the recovery after an error comes to the start of a token
-/

namespace CcJson

open Munch

/-! ## The end of a token -/

/-- The characters of numbers. -/
def isNumberChar (c : Char) : Bool :=
  c.isDigit || c == '.' || c == 'e' || c == 'E' || c == '+' || c == '-'

private def NumberChars (w : List Char) : Prop := ∀ c ∈ w, isNumberChar c = true

private theorem numberChars_cons {c : Char} {w : List Char} :
    NumberChars (c :: w) ↔ isNumberChar c = true ∧ NumberChars w := List.forall_mem_cons

private theorem numberChars_append {v w : List Char} :
    NumberChars (v ++ w) ↔ NumberChars v ∧ NumberChars w := List.forall_mem_append

private theorem Digits.numberChars {ds : List Char} (h : Digits ds) : NumberChars ds := by
  intro d hd
  simp [isNumberChar, h d hd]

private theorem SignedDigits.numberChars {v : List Char} (h : SignedDigits v) : NumberChars v := by
  cases h with
  | unsigned hds => exact Digits.numberChars hds.2
  | plus hds => exact numberChars_cons.mpr ⟨rfl, Digits.numberChars hds.2⟩
  | minus hds => exact numberChars_cons.mpr ⟨rfl, Digits.numberChars hds.2⟩

private theorem Exponent.numberChars {v : List Char} (h : Exponent v) : NumberChars v := by
  cases h with
  | lower hv => exact numberChars_cons.mpr ⟨rfl, hv.numberChars⟩
  | upper hv => exact numberChars_cons.mpr ⟨rfl, hv.numberChars⟩

private theorem Decimal.numberChars {v : List Char} (h : Decimal v) : NumberChars v := by
  cases h with
  | dot hds => exact numberChars_cons.mpr ⟨rfl, Digits.numberChars hds.2⟩

private theorem DecimalExponent.numberChars {v : List Char} (h : DecimalExponent v) :
    NumberChars v := by
  cases h with
  | decimal hv => exact hv.numberChars
  | exponent hv => exact hv.numberChars
  | both hv hw => exact numberChars_append.mpr ⟨hv.numberChars, hw.numberChars⟩

private theorem StartPattern.numberChars {v : List Char} (h : StartPattern v) : NumberChars v := by
  cases h with
  | zero => exact numberChars_cons.mpr ⟨rfl, nofun⟩
  | significant hd _ hds => exact Digits.numberChars (digits_cons.mpr ⟨hd, hds⟩)

private theorem Numerical.numberChars {v : List Char} (h : Numerical v) : NumberChars v := by
  cases h with
  | start hv => exact hv.numberChars
  | fraction hv hw => exact numberChars_append.mpr ⟨hv.numberChars, hw.numberChars⟩

theorem TkNumber.numberChars {v : List Char} (h : TkNumber v) :
    ∀ c ∈ v, isNumberChar c = true := by
  cases h with
  | signed hv => exact numberChars_cons.mpr ⟨rfl, hv.numberChars⟩
  | unsigned hv => exact hv.numberChars

/-- A token of another kind does not start like a number. -/
theorem isNumberChar_of_isToken {k : TokenType} {c : Char} {w : List Char}
    (h : IsToken k (c :: w)) (hk : k ≠ .tkNumber) : isNumberChar c = false := by
  cases k with
  | tkString =>
    obtain ⟨rfl, -⟩ := tkString_cons.mp h
    rfl
  | tkNumber => exact absurd rfl hk
  | tkError | endOfInput => exact nomatch h
  | _ =>
    obtain ⟨rfl, -⟩ := List.cons.inj (Option.some.inj h)
    rfl

theorem isNumberChar_of_isBlank {c : Char} (h : isBlank c = true) : isNumberChar c = false := by
  simp only [isBlank, Bool.or_eq_true, beq_iff_eq] at h
  rcases h with ((rfl | rfl) | rfl) | rfl <;> rfl

/-- A number is a longest token iff the character after it continues it to no number. -/
theorem longest_number_iff {w rest : List Char} :
    Longest IsToken .tkNumber w rest ↔
      TkNumber w ∧ ∀ c r, rest = c :: r → ¬ ∃ v, TkNumber (w ++ c :: v) := by
  constructor
  · intro h
    obtain ⟨hw, hmax⟩ := h
    refine ⟨hw, ?_⟩
    intro c r hr h
    obtain ⟨v, hv⟩ := h
    exact hmax c r hr ⟨.tkNumber, v, by rwa [List.append_assoc, List.singleton_append]⟩
  · intro h
    obtain ⟨hw, hmax⟩ := h
    refine ⟨hw, ?_⟩
    intro c r hr h
    obtain ⟨k, v, hv⟩ := h
    rw [List.append_assoc, List.singleton_append] at hv
    -- A longer token starts as the number does, hence is a number.
    have hk : k = .tkNumber := by
      by_contra hne
      cases w with
      | nil => exact not_tkNumber_nil hw
      | cons d w =>
        have hd := isNumberChar_of_isToken hv hne
        rw [hw.numberChars d List.mem_cons_self] at hd
        exact nomatch hd
    subst hk
    exact hmax c r hr ⟨v, hv⟩

/-- A number is a longest token, if no character of numbers comes after it. -/
theorem longest_number {w rest : List Char} (hw : TkNumber w)
    (hrest : ∀ c r, rest = c :: r → isNumberChar c = false) :
    Longest IsToken .tkNumber w rest := by
  refine longest_number_iff.mpr ⟨hw, ?_⟩
  intro c r hr h
  obtain ⟨v, hv⟩ := h
  have hc := hv.numberChars c (by simp)
  rw [hrest c r hr] at hc
  exact nomatch hc

/-! ## The next token of a text -/

/-- The next token of a text that goes on with a longest token. -/
theorem lex_eq_of_longest {b w rest : List Char} {k : TokenType} (hb : Blanks b)
    (h : Longest IsToken k w rest) :
    tokenTypeOf (lex (b ++ (w ++ rest))) = k ∧ lexemeOf (lex (b ++ (w ++ rest))) = w ∧
      restOf (lex (b ++ (w ++ rest))) = rest := by
  rcases lex_of_longest hb h with hlex | ⟨s, hlex, rfl, hfinal⟩
  · rw [hlex]
    exact ⟨rfl, rfl, rfl⟩
  · rw [hlex, tokenTypeOf, hfinal]
    exact ⟨rfl, rfl, rfl⟩

/-- What the tokenizer finds is a longest token, unless it is an error or the end. -/
theorem longest_lex {cs : List Char} (herror : tokenTypeOf (lex cs) ≠ .tkError)
    (hend : tokenTypeOf (lex cs) ≠ .endOfInput) :
    Longest IsToken (tokenTypeOf (lex cs)) (lexemeOf (lex cs)) (restOf (lex cs)) := by
  cases hlex : lex cs with
  | accepted k w rest => exact (lex_accepted hlex).2
  | rejected w rest =>
    rw [hlex] at herror
    exact absurd rfl herror
  | ended s w =>
    rw [hlex] at hend
    obtain ⟨-, -, hfinal⟩ := lex_ended hlex
    cases hs : finalKind s with
    | none =>
      rw [tokenTypeOf, hs] at hend
      exact absurd rfl hend
    | some k =>
      rw [tokenTypeOf, hs]
      exact ⟨(hfinal k).mpr hs, by simp [restOf]⟩

/-- The tokens of a text without whitespace before it are the longest tokens at its beginning. -/
theorem lex_eq_iff {b t w : List Char} (hb : Blanks b) {kind : TokenType}
    (herror : kind ≠ .tkError) (hend : kind ≠ .endOfInput)
    (ht : leadingBlanks (b ++ t) = b) :
    (tokenTypeOf (lex (b ++ t)) = kind ∧ lexemeOf (lex (b ++ t)) = w) ↔
      ∃ rest, t = w ++ rest ∧ Longest IsToken kind w rest := by
  constructor
  · intro h
    obtain ⟨rfl, rfl⟩ := h
    have hsplit := lex_split (b ++ t)
    rw [ht, List.append_cancel_left_eq] at hsplit
    exact ⟨_, hsplit.symm, longest_lex herror hend⟩
  · intro h
    obtain ⟨rest, rfl, hlong⟩ := h
    obtain ⟨hkind, hw, -⟩ := lex_eq_of_longest hb hlong
    exact ⟨hkind, hw⟩

/-- The whitespace of a text ends where its first other character is. -/
theorem leadingBlanks_eq {b t : List Char} (hb : Blanks b)
    (ht : ∀ c ∈ t.head?, isBlank c = false) : leadingBlanks (b ++ t) = b := by
  rw [leadingBlanks, List.takeWhile_append_of_pos hb]
  cases t with
  | nil => simp
  | cons c t =>
    have hc := ht c rfl
    rw [List.takeWhile_cons_of_neg (by rw [hc]; exact Bool.false_ne_true), List.append_nil]

/-! ## Tokens of every kind -/

/-- `next_token` returns a token of the given kind and lexeme and leaves the reader at the given
    offset. -/
def Scanner.Recognises (s : Scanner) (kind : TokenType) (lexeme : Bytes) (offset : Nat) : Prop :=
  ∃ token s', s.nextToken = .returns (token, s') ∧ token.type = kind ∧ token.lexeme = lexeme ∧
    s'.file.currentOffset = offset

/-- A reachable scanner with well-formed unread text stands before that text. -/
theorem Scanner.Reachable.exists_place_unread {loadType : FileLoadType} {content : Bytes}
    {s : Scanner} (hs : Scanner.Reachable (Scanner.new (Utf8File.ofContent loadType content)) s)
    {cs : List Char} (hunread : s.unread = Utf8.encode cs) :
    ∃ p : Place, s = p.scanner cs ∧ p.tail.exception = none := by
  obtain ⟨cs', tail, rfl⟩ := exists_tail content
  obtain ⟨p, right, rfl, -, htail⟩ := hs.exists_place
  rw [Place.unread_scanner, ← List.append_nil (Utf8.encode cs)] at hunread
  obtain ⟨rfl, hnil⟩ :=
    Utf8.encode_append_unique p.tail.undecodable Utf8.undecodable_nil hunread
  exact ⟨p, rfl, Tail.exception_eq_none.mpr hnil⟩

section Recognition

variable {loadType : FileLoadType} {content : Bytes} {s : Scanner} {b t : List Char}

/-- A token is recognised, right before the reader, exactly if it is a longest token at the
    beginning of the text after the whitespace. -/
theorem recognises_iff
    (hs : Scanner.Reachable (Scanner.new (Utf8File.ofContent loadType content)) s)
    (hunread : s.unread = Utf8.encode (b ++ t)) (hb : Blanks b)
    (ht : ∀ c ∈ t.head?, isBlank c = false) {kind : TokenType} (herror : kind ≠ .tkError)
    (hend : kind ≠ .endOfInput) (w : List Char) :
    s.Recognises kind (Utf8.encode w) (s.file.currentOffset + (Utf8.encode (b ++ w)).length) ↔
      ∃ rest, t = w ++ rest ∧ Longest IsToken kind w rest := by
  obtain ⟨p, rfl, htail⟩ := hs.exists_place_unread hunread
  have hblanks := leadingBlanks_eq hb ht
  obtain ⟨p', hfollows, hreturns⟩ := nextToken_returns (b ++ t) (.inl htail)
  rw [← lex_eq_iff hb herror hend hblanks]
  constructor
  · intro h
    obtain ⟨token, s', hnext, rfl, hlexeme, -⟩ := h
    rw [hreturns] at hnext
    obtain ⟨rfl, -⟩ := Prod.mk.inj (Run.returns.inj hnext)
    exact ⟨rfl, Utf8.encode_injective hlexeme⟩
  · intro h
    obtain ⟨hkind, rfl⟩ := h
    refine ⟨_, _, hreturns, hkind, rfl, ?_⟩
    rw [Place.currentOffset_scanner, Place.currentOffset_scanner, hfollows.left, hblanks,
      Utf8.encode_append p.left, List.length_append]

/-- A number is recognised exactly if it is a number of the grammar at the beginning of the text
    and is either all of it or continued to no number by the next character. -/
theorem number_recognised
    (hs : Scanner.Reachable (Scanner.new (Utf8File.ofContent loadType content)) s)
    (hunread : s.unread = Utf8.encode (b ++ t)) (hb : Blanks b)
    (ht : ∀ c ∈ t.head?, isBlank c = false) (w : List Char) :
    s.Recognises .tkNumber (Utf8.encode w)
        (s.file.currentOffset + (Utf8.encode (b ++ w)).length) ↔
      TkNumber w ∧ ∃ rest, t = w ++ rest ∧
        ∀ c r, rest = c :: r → ¬ ∃ v, TkNumber (w ++ c :: v) := by
  rw [recognises_iff hs hunread hb ht (by decide) (by decide)]
  constructor
  · intro h
    obtain ⟨rest, hrest, hlong⟩ := h
    obtain ⟨hw, hmax⟩ := longest_number_iff.mp hlong
    exact ⟨hw, rest, hrest, hmax⟩
  · intro h
    obtain ⟨hw, rest, hrest, hmax⟩ := h
    exact ⟨rest, hrest, longest_number_iff.mpr ⟨hw, hmax⟩⟩

/-- The number `12` before a comma. -/
theorem number_recognised_before_comma :
    let start := Scanner.new (Utf8File.ofContent .fullMemory (Utf8.encode ['1', '2', ',']))
    start.Recognises .tkNumber (Utf8.encode ['1', '2'])
        (start.file.currentOffset + (Utf8.encode ([] ++ ['1', '2'])).length) ↔
      TkNumber ['1', '2'] ∧ ∃ rest, ['1', '2', ','] = ['1', '2'] ++ rest ∧
        ∀ c r, rest = c :: r → ¬ ∃ v, TkNumber (['1', '2'] ++ c :: v) :=
  number_recognised (t := ['1', '2', ',']) .start (by decide) blanks_nil (by simp [isBlank]) _

/-- A string is recognised exactly if it is a string of the grammar at the beginning of the
    text. -/
theorem string_recognised
    (hs : Scanner.Reachable (Scanner.new (Utf8File.ofContent loadType content)) s)
    (hunread : s.unread = Utf8.encode (b ++ t)) (hb : Blanks b)
    (ht : ∀ c ∈ t.head?, isBlank c = false) (w : List Char) :
    s.Recognises .tkString (Utf8.encode w)
        (s.file.currentOffset + (Utf8.encode (b ++ w)).length) ↔
      TkString w ∧ w <+: t := by
  rw [recognises_iff hs hunread hb ht (by decide) (by decide)]
  constructor
  · intro h
    obtain ⟨rest, hrest, hlong⟩ := h
    exact ⟨hlong.1, rest, hrest.symm⟩
  · intro h
    obtain ⟨hw, rest, hrest⟩ := h
    exact ⟨rest, hrest.symm, longest_of_ne_number (k := .tkString) hw (by decide) rest⟩

/-- A string before a colon. -/
theorem string_recognised_before_colon :
    let start := Scanner.new (Utf8File.ofContent .fullMemory (Utf8.encode ['"', 'a', '"', ':']))
    start.Recognises .tkString (Utf8.encode ['"', 'a', '"'])
        (start.file.currentOffset + (Utf8.encode ([] ++ ['"', 'a', '"'])).length) ↔
      TkString ['"', 'a', '"'] ∧ ['"', 'a', '"'] <+: ['"', 'a', '"', ':'] :=
  string_recognised (t := ['"', 'a', '"', ':']) .start (by decide) blanks_nil (by simp [isBlank]) _

end Recognition

/-! ## Errors -/

/-- An error is returned for a text that starts no token, up to the first character that makes
    it so. -/
theorem lex_of_tkError {cs : List Char} (h : tokenTypeOf (lex cs) = .tkError) :
    ∃ v c, lex cs = .rejected (v ++ [c]) (restOf (lex cs)) ∧ Dead IsToken v c ∧
      (v = [] → isBlank c = false) := by
  cases hlex : lex cs with
  | accepted kind w rest =>
    rw [hlex] at h
    obtain rfl : kind = .tkError := h
    have hno := (lex_accepted hlex).2.1
    simp [IsToken, fixedText] at hno
  | rejected w rest =>
    obtain ⟨hcs, v, c, rfl, hdead⟩ := lex_rejected hlex
    refine ⟨v, c, rfl, hdead, ?_⟩
    rintro rfl
    -- `c` is the first character after the whitespace
    have hdrop : cs.dropWhile isBlank = c :: rest :=
      List.append_cancel_left ((leadingBlanks_append cs).trans hcs)
    have hhead := List.head?_dropWhile_not isBlank cs
    rw [hdrop] at hhead
    simpa using hhead
  | ended s w =>
    rw [hlex, tokenTypeOf, finalKind] at h
    split at h
    · simp at h
    · simp at h

section Errors

variable {loadType : FileLoadType} {cs : List Char} {s : Scanner}

/-- Errors are detected at the first impossible character. The lexeme of an error is the prefix
    of no token, and was one without its last character; conversely, a text that has just become
    the prefix of no token, and was no token before, is returned as an error at once. -/
theorem error_at_first_impossible
    (hs : Scanner.Reachable (Scanner.new (Utf8File.ofContent loadType (Utf8.encode cs))) s) :
    (∀ token s', s.nextToken = .returns (token, s') → token.type = .tkError →
      ∃ v c, token.lexeme = Utf8.encode (v ++ [c]) ∧ ¬ TokenPrefix IsToken (v ++ [c]) ∧
        (v = [] ∨ ProperPrefix IsToken v)) ∧
    ∀ b v c rest, s.unread = Utf8.encode (b ++ (v ++ c :: rest)) → Blanks b →
      (∀ d ∈ (v ++ [c]).head?, isBlank d = false) → TokenPrefix IsToken v →
      (∀ kind, ¬ IsToken kind v) → ¬ TokenPrefix IsToken (v ++ [c]) →
      ∃ token s', s.nextToken = .returns (token, s') ∧ token.type = .tkError ∧
        token.lexeme = Utf8.encode (v ++ [c]) := by
  obtain ⟨p, right, rfl, -, htail⟩ := hs.exists_place_encode
  obtain ⟨p', -, hreturns⟩ := nextToken_returns right (.inl htail)
  rw [hreturns]
  constructor
  · intro token s' hnext htype
    obtain ⟨rfl, -⟩ := Prod.mk.inj (Run.returns.inj hnext)
    obtain ⟨v, c, hlex, ⟨⟨k, u, hu⟩, hno, hdead⟩, -⟩ := lex_of_tkError htype
    refine ⟨v, c, by rw [hlex]; rfl, hdead, ?_⟩
    -- a prefix of a token that is none itself is a proper one
    cases u with
    | nil => exact absurd (by rwa [List.append_nil] at hu) (hno k)
    | cons d u => exact .inr ⟨k, d, u, hu⟩
  · intro b v c rest hunread hb hstart hpre hno hdead
    rw [Place.unread_encode htail] at hunread
    obtain rfl := Utf8.encode_injective hunread
    have hlex : lex (b ++ (v ++ c :: rest)) = .rejected (v ++ [c]) rest := by
      refine lex_of_dead hb ?_ ⟨hpre, hno, hdead⟩
      rintro rfl
      exact hstart c rfl
    refine ⟨_, _, rfl, ?_, ?_⟩
    · rw [hlex]; rfl
    · rw [hlex]; rfl

/-- The text `tx`, whose second character is the first impossible one. -/
theorem error_at_first_impossible_literal :
    let start := Scanner.new (Utf8File.ofContent .fullMemory (Utf8.encode ['t', 'x']))
    (∀ token s', start.nextToken = .returns (token, s') → token.type = .tkError →
      ∃ v c, token.lexeme = Utf8.encode (v ++ [c]) ∧ ¬ TokenPrefix IsToken (v ++ [c]) ∧
        (v = [] ∨ ProperPrefix IsToken v)) ∧
    ∀ b v c rest, start.unread = Utf8.encode (b ++ (v ++ c :: rest)) → Blanks b →
      (∀ d ∈ (v ++ [c]).head?, isBlank d = false) → TokenPrefix IsToken v →
      (∀ kind, ¬ IsToken kind v) → ¬ TokenPrefix IsToken (v ++ [c]) →
      ∃ token s', start.nextToken = .returns (token, s') ∧ token.type = .tkError ∧
        token.lexeme = Utf8.encode (v ++ [c]) :=
  error_at_first_impossible .start

end Errors

/-! ## The recovery after an error -/

/-- A token can start with the character: `handle_start` does not make it DEAD. -/
def canStart (c : Char) : Bool :=
  match codepointToUtf8 c.val with
  | .ok utf8Codepoint => (handleStart utf8Codepoint).1 != .dead
  | .error _ => false

/-- `handle_start` accepts the first characters of the tokens. -/
theorem canStart_iff {c : Char} : canStart c = true ↔ TokenPrefix IsToken [c] := by
  have htarget : canStart c = ((startTarget (move .start [] c)).1 != .dead) := by
    rw [canStart, codepointToUtf8_val]
    exact congrArg (fun target => target.1 != State.dead) (handleStart_encode c)
  have hlive : automaton.live .start [] := rfl
  rw [htarget]
  cases hmove : move .start [] c with
  | shift s =>
    -- the next state expects something, which the dead state does not
    obtain ⟨hs, hlang⟩ := automaton.shift hlive hmove
    have hne : s ≠ .dead := by
      intro hdead
      rw [hdead] at hs
      exact hs
    obtain ⟨k, d, v, hv⟩ := automaton.continues hs
    have hpre : TokenPrefix IsToken [c] := ⟨k, d :: v, (hlang k (d :: v)).mpr hv⟩
    simp [startTarget, hne, hpre]
  | accept kind =>
    have hpre : TokenPrefix IsToken [c] :=
      ⟨kind, [], (automaton.accept hlive hmove kind []).mpr ⟨rfl, rfl⟩⟩
    simp [startTarget, hpre]
  | putBack kind => exact nomatch (automaton.putBack hlive hmove).1
  | reject =>
    have hpre : ¬ TokenPrefix IsToken [c] := by
      intro h
      obtain ⟨k, v, hv⟩ := h
      exact (automaton.reject hlive hmove).2 k v hv
    simp [startTarget, hpre]

/-- What is asked of a call of `next_token` that returns the error `token`: the reader comes to
    the end of the file or to a character that a token can start with, and what it skips after
    the lexeme are characters that no token starts with. -/
structure Scanner.Recovers (s : Scanner) (token : Token) (s' : Scanner) : Prop where
  resumes : s'.file.atEnd = true ∨
    ∃ c r, s'.unread = Utf8.encode (c :: r) ∧ canStart c = true
  skips : ∃ b skipped, Blanks b ∧
    s.unread = Utf8.encode b ++ (token.lexeme ++ (Utf8.encode skipped ++ s'.unread)) ∧
    ∀ c ∈ skipped, canStart c = false

/-- The first character that is part of no token has another after it that no token starts
    with. -/
def Scanner.ErrorThenGarbage (s : Scanner) : Prop :=
  ∃ b v c d rest, s.unread = Utf8.encode (b ++ (v ++ c :: d :: rest)) ∧ Blanks b ∧
    (v = [] → isBlank c = false) ∧ Dead IsToken v c ∧ ¬ TokenPrefix IsToken [d]

/-- Since `advance_past_dead_chars` skips nothing, the recovery is as it should be exactly if the
    first character after an error starts a token. -/
theorem recovers_iff {loadType : FileLoadType} {cs : List Char} {s s' : Scanner} {token : Token}
    (hs : Scanner.Reachable (Scanner.new (Utf8File.ofContent loadType (Utf8.encode cs))) s)
    (hnext : s.nextToken = .returns (token, s')) (htype : token.type = .tkError) :
    s.Recovers token s' ↔ ¬ s.ErrorThenGarbage := by
  obtain ⟨p, right, rfl, -, htail⟩ := hs.exists_place_encode
  obtain ⟨-, p', hfollows, rfl, rfl⟩ := nextToken_eq_returns hnext
  have htail' : p'.tail.exception = none := by rw [hfollows.tail]; exact htail
  have hunread := Place.unread_encode htail right
  have hunread' := Place.unread_encode htail' (restOf (lex right))
  constructor
  · rintro ⟨hresumes, -⟩ ⟨b, v, c, d, rest, htext, hb, hstart, hdead, hd⟩
    rw [hunread] at htext
    obtain rfl := Utf8.encode_injective htext
    -- the call ends before `d`
    have hrest : restOf (lex (b ++ (v ++ c :: d :: rest))) = d :: rest := by
      rw [lex_of_dead hb hstart hdead]
      rfl
    rw [hunread', hrest] at hresumes
    rcases hresumes with hend | ⟨e, r, heq, he⟩
    · rw [Place.atEnd_cons] at hend
      exact nomatch hend
    · obtain ⟨rfl, -⟩ := List.cons.inj (Utf8.encode_injective heq)
      exact hd (canStart_iff.mp he)
  · intro hno
    obtain ⟨v, c, hlex, hdead, hstart⟩ := lex_of_tkError htype
    have hsplit := lex_split right
    have hlexeme : lexemeOf (lex right) = v ++ [c] := by rw [hlex]; rfl
    constructor
    · cases hrest : restOf (lex right) with
      | nil =>
        left
        rw [Place.atEnd_nil, Tail.exception_eq_none.mp htail']
        rfl
      | cons d rest =>
        right
        refine ⟨d, rest, by rw [← hrest, hunread'], canStart_iff.mpr ?_⟩
        -- otherwise `d` is the second of two characters after which nothing is skipped
        by_contra hd
        refine hno ⟨leadingBlanks right, v, c, d, rest, ?_, blanks_leadingBlanks right, hstart,
          hdead, hd⟩
        rw [hlexeme, hrest, List.append_assoc, List.singleton_append] at hsplit
        rw [hunread, hsplit]
    · refine ⟨leadingBlanks right, [], blanks_leadingBlanks right, ?_, by simp⟩
      show _ = Utf8.encode (leadingBlanks right) ++ (Utf8.encode (lexemeOf (lex right)) ++ _)
      rw [hunread, hunread', Utf8.encode_nil, List.nil_append, ← Utf8.encode_append,
        ← Utf8.encode_append, hsplit]

/-- A bracket after the error: it starts a token. -/
theorem recovers_bracket :
    let start := Scanner.new (Utf8File.ofContent .fullMemory (Utf8.encode ['@', '[']))
    let after := Scanner.mk (.inMemory { buffer := Utf8.encode ['@', '['], pos := 1 }) 0 1
      [lit "Unknown character: @ at line 0 and character 1"]
    start.nextToken = .returns (Token.mk (Utf8.encode ['@']) 0 1 .tkError, after) ∧
      start.Recovers (Token.mk (Utf8.encode ['@']) 0 1 .tkError) after := by
  intro start after
  have hnext : start.nextToken =
      .returns (Token.mk (Utf8.encode ['@']) 0 1 .tkError, after) := by decide
  refine ⟨hnext, (recovers_iff .start hnext rfl).mpr ?_⟩
  rintro ⟨b, v, c, d, rest, htext, -, -, -, hd⟩
  have heq : ['@', '['] = b ++ (v ++ c :: d :: rest) := Utf8.encode_injective htext
  have hlength := congrArg List.length heq
  simp only [List.length_append, List.length_cons, List.length_nil] at hlength
  obtain rfl : b = [] := List.length_eq_zero_iff.mp (by omega)
  obtain rfl : v = [] := List.length_eq_zero_iff.mp (by omega)
  -- the two characters are `c` and `d`
  obtain ⟨-, heq⟩ := List.cons.inj heq
  obtain ⟨rfl, -⟩ := List.cons.inj heq
  exact hd (canStart_iff.mp (by decide))

/-- Two characters that no token starts with: the second is not skipped. -/
theorem recovers_garbage :
    let start := Scanner.new (Utf8File.ofContent .fullMemory (Utf8.encode ['@', '@']))
    let after := Scanner.mk (.inMemory { buffer := Utf8.encode ['@', '@'], pos := 1 }) 0 1
      [lit "Unknown character: @ at line 0 and character 1"]
    let token := Token.mk (Utf8.encode ['@']) 0 1 .tkError
    Scanner.Reachable start start ∧ start.nextToken = .returns (token, after) ∧
      ¬ start.Recovers token after := by
  refine ⟨.start, by decide, ?_⟩
  intro h
  obtain ⟨hend | ⟨c, r, hunread, hc⟩, -⟩ := h
  · exact nomatch hend
  · have heq : Utf8.encode ['@'] = Utf8.encode (c :: r) := hunread
    obtain ⟨rfl, -⟩ := List.cons.inj (Utf8.encode_injective heq)
    exact absurd hc (by decide)

end CcJson
