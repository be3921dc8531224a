import CcJson.Spec.NextToken

/-!
# Runs of `next_token`

What holds of every state that a tokenizer can reach over a file, and of every run
of `next_token` calls over it.

## Key results

- `reportsEnd_iff`: when `END_OF_INPUT` means the end of the input
- `lexes_interleaves`: tokens and whitespace make up the file
- `nextToken_advances`, `nextToken_sticky`: progress and the end of a run
-/

namespace CcJson

open Munch

/-! ## Reachable states -/

/-- The scanners reached from `start` by calls of `next_token`. -/
inductive Scanner.Reachable (start : Scanner) : Scanner → Prop where
  | start : Reachable start start
  | next {s s' : Scanner} {token : Token} (hs : Reachable start s)
      (hnext : s.nextToken = .returns (token, s')) : Reachable start s'

/-- The tokenizers reached from `start` by calls of `peek` and `consume`. -/
inductive Tokenizer.Reachable (start : Tokenizer Scanner) : Tokenizer Scanner → Prop where
  | start : Reachable start start
  | peek {t t' : Tokenizer Scanner} {token : Token} (ht : Reachable start t)
      (hpeek : t.peek = .returns (token, t')) : Reachable start t'
  | consume {t t' : Tokenizer Scanner} {token : Token} (ht : Reachable start t)
      (hconsume : t.consume = .returns (token, t')) : Reachable start t'

/-- A tokenizer calls nothing but `next_token` on its source. -/
theorem Tokenizer.Reachable.source {start t : Tokenizer Scanner}
    (h : Tokenizer.Reachable start t) : Scanner.Reachable start.source t.source := by
  induction h with
  | start => exact .start
  | @peek t t' token ht hpeek ih =>
    -- With a token in the buffer the source is not asked; else it is asked once.
    cases hcurrent : t.hasCurrent with
    | true =>
      simp only [Tokenizer.peek, hcurrent, Bool.not_true, Bool.false_eq_true, ↓reduceIte,
        Run.pure_eq, Run.returns.injEq, Prod.mk.injEq] at hpeek
      rw [← hpeek.2]
      exact ih
    | false =>
      simp only [Tokenizer.peek, hcurrent, Bool.not_false, ↓reduceIte] at hpeek
      obtain ⟨out, hnext, hout⟩ := Run.bind_eq_returns hpeek
      obtain ⟨-, rfl⟩ := Prod.mk.inj (Run.returns.inj hout)
      exact .next ih hnext
  | @consume t t' token ht hconsume ih =>
    cases hcurrent : t.hasCurrent with
    | true =>
      simp only [Tokenizer.consume, hcurrent, Bool.not_true, Bool.false_eq_true, ↓reduceIte,
        Run.pure_eq, Run.returns.injEq, Prod.mk.injEq] at hconsume
      rw [← hconsume.2]
      exact ih
    | false =>
      simp only [Tokenizer.consume, hcurrent, Bool.not_false, ↓reduceIte] at hconsume
      obtain ⟨out, hnext, hout⟩ := Run.bind_eq_returns hconsume
      obtain ⟨-, rfl⟩ := Prod.mk.inj (Run.returns.inj hout)
      exact .next ih hnext

/-- When the scan ends with the file, nothing is left. -/
theorem restOf_eq_nil {cs : List Char} (h : Ended (lex cs)) : restOf (lex cs) = [] := by
  cases hlex : lex cs with
  | ended s w => rfl
  | _ => rw [hlex] at h; exact h.elim

/-- What a returned token says of the place it was read at. -/
theorem nextToken_eq_returns {p : Place} {right : List Char} {token : Token}
    {s' : Scanner} (h : (p.scanner right).nextToken = .returns (token, s')) :
    (p.tail.exception = none ∨ ¬ Ended (lex right)) ∧
    ∃ p', p.Follows p' (leadingBlanks right ++ lexemeOf (lex right)) ∧
      token = p'.token (tokenTypeOf (lex right)) (lexemeOf (lex right)) ∧
      s' = p'.scanner (restOf (lex right)) := by
  -- A call that returns has not come to a malformed sequence.
  have hends : p.tail.exception = none ∨ ¬ Ended (lex right) := by
    by_contra hnot
    obtain ⟨htail, hended⟩ := not_or.mp hnot
    obtain ⟨e, he⟩ := Option.ne_none_iff_exists'.mp htail
    rw [nextToken_throws_iff.mpr ⟨he, not_not.mp hended⟩] at h
    exact nomatch h
  obtain ⟨p', hfollows, hreturns⟩ := nextToken_returns right hends
  rw [hreturns] at h
  obtain ⟨rfl, rfl⟩ := Prod.mk.inj (Run.returns.inj h)
  exact ⟨hends, p', hfollows, rfl, rfl⟩

/-- The place of a newly constructed scanner. -/
def Place.start (loadType : FileLoadType) (tail : Tail) : Place :=
  { loadType, left := [], tail, position := { line := 0, column := 0 }, cerr := [] }

theorem scannerNew_eq (loadType : FileLoadType) (cs : List Char) (tail : Tail) :
    Scanner.new (Utf8File.ofContent loadType (Utf8.encode cs ++ tail.bytes)) =
      (Place.start loadType tail).scanner cs := by
  rw [ofContent_eq]
  rfl

theorem scannerNew_encode (loadType : FileLoadType) (cs : List Char) :
    Scanner.new (Utf8File.ofContent loadType (Utf8.encode cs)) =
      (Place.start loadType Tail.empty).scanner cs := by
  rw [← scannerNew_eq]
  exact congrArg (fun bytes => Scanner.new (Utf8File.ofContent loadType bytes))
    (List.append_nil _).symm

/-- Every reachable scanner stands at a place of the file. -/
theorem Scanner.Reachable.exists_place {loadType : FileLoadType} {cs : List Char} {tail : Tail}
    {s : Scanner} (h : Scanner.Reachable
      (Scanner.new (Utf8File.ofContent loadType (Utf8.encode cs ++ tail.bytes))) s) :
    ∃ (p : Place) (right : List Char),
      s = p.scanner right ∧ p.left ++ right = cs ∧ p.tail = tail := by
  induction h with
  | start => exact ⟨_, cs, scannerNew_eq loadType cs tail, rfl, rfl⟩
  | next hs hnext ih =>
    obtain ⟨p, right, rfl, rfl, rfl⟩ := ih
    obtain ⟨-, p', hfollows, -, rfl⟩ := nextToken_eq_returns hnext
    refine ⟨p', _, rfl, ?_, hfollows.tail⟩
    rw [hfollows.left, List.append_assoc, List.append_assoc, lex_split]

/-- In well-formed content the place has nothing malformed after it. -/
theorem Scanner.Reachable.exists_place_encode {loadType : FileLoadType} {cs : List Char}
    {s : Scanner}
    (h : Scanner.Reachable (Scanner.new (Utf8File.ofContent loadType (Utf8.encode cs))) s) :
    ∃ (p : Place) (right : List Char), s = p.scanner right ∧ p.left ++ right = cs ∧
      p.tail.exception = none := by
  rw [← List.append_nil (Utf8.encode cs)] at h
  obtain ⟨p, right, hs, hcs, htail⟩ := Scanner.Reachable.exists_place (show Scanner.Reachable
    (Scanner.new (Utf8File.ofContent loadType (Utf8.encode cs ++ Tail.empty.bytes))) s from h)
  exact ⟨p, right, hs, hcs, by rw [htail]; rfl⟩

/-! ## The end of the input -/

/-- The unread part of the file. -/
def Scanner.unread (s : Scanner) : Bytes := s.file.data.drop s.file.currentOffset

theorem Place.unread_scanner (p : Place) (right : List Char) :
    (p.scanner right).unread = Utf8.encode right ++ p.tail.bytes := by
  have hoff : (p.scanner right).file.currentOffset = (Utf8.encode p.left).length :=
    Cursor.currentOffset_file _ _
  rw [Scanner.unread, Place.data_scanner, hoff]
  exact List.drop_left

/-- In well-formed content the unread part is the encoding of the unread characters. -/
theorem Place.unread_encode {p : Place} (htail : p.tail.exception = none) (right : List Char) :
    (p.scanner right).unread = Utf8.encode right := by
  rw [Place.unread_scanner, Tail.exception_eq_none.mp htail, List.append_nil]

/-- The bytes are insignificant whitespace only. -/
def OnlyBlanks (bytes : Bytes) : Prop := ∃ b, Blanks b ∧ bytes = Utf8.encode b

/-- The bytes are insignificant whitespace and then a token that has been begun but
    not completed. -/
def EndsUnfinished (bytes : Bytes) : Prop :=
  ∃ b u, Blanks b ∧ Unfinished u ∧ bytes = Utf8.encode (b ++ u)

/-- `next_token` reports the end of the input exactly when only whitespace is left,
    and an error when a token is left unfinished. -/
def Scanner.ReportsEnd (s : Scanner) : Prop :=
  ((∃ token s', s.nextToken = .returns (token, s') ∧ token.type = .endOfInput) ↔
    OnlyBlanks s.unread) ∧
  (EndsUnfinished s.unread → ∃ token s', s.nextToken = .returns (token, s') ∧
    token.type = .tkError)

/-- An unfinished token does not start with whitespace. -/
theorem Unfinished.not_blanks {b u : List Char} (hu : Unfinished u) : ¬ Blanks (b ++ u) := by
  intro h
  obtain ⟨hne, hpre, -⟩ := hu
  -- Its first character starts a token, and no token starts with whitespace.
  cases u with
  | nil => exact hne rfl
  | cons c u =>
    have hc := (blanks_cons.mp (blanks_append.mp h).2).1
    rw [isBlank_of_tokenPrefix hpre.tokenPrefix] at hc
    exact nomatch hc

private theorem onlyBlanks_encode {cs : List Char} :
    OnlyBlanks (Utf8.encode cs) ↔ Blanks cs := by
  constructor
  · intro h
    obtain ⟨b, hb, heq⟩ := h
    rw [Utf8.encode_injective heq]
    exact hb
  · intro h
    exact ⟨cs, h, rfl⟩

private theorem endsUnfinished_encode {cs : List Char} :
    EndsUnfinished (Utf8.encode cs) ↔ ∃ b u, cs = b ++ u ∧ Blanks b ∧ Unfinished u := by
  constructor
  · intro h
    obtain ⟨b, u, hb, hu, heq⟩ := h
    exact ⟨b, u, Utf8.encode_injective heq, hb, hu⟩
  · intro h
    obtain ⟨b, u, rfl, hb, hu⟩ := h
    exact ⟨b, u, hb, hu, rfl⟩

/-- `END_OF_INPUT` is returned for whitespace and for unfinished tokens. -/
private theorem returns_endOfInput_iff {p : Place} {right : List Char}
    (htail : p.tail.exception = none) :
    (∃ token s', (p.scanner right).nextToken = .returns (token, s') ∧
      token.type = .endOfInput) ↔
      Blanks right ∨ ∃ b u, right = b ++ u ∧ Blanks b ∧ Unfinished u := by
  obtain ⟨p', -, hreturns⟩ := nextToken_returns right (.inl htail)
  rw [hreturns, ← tokenTypeOf_lex_eq_endOfInput]
  constructor
  · intro h
    obtain ⟨token, s', heq, htype⟩ := h
    obtain ⟨rfl, -⟩ := Prod.mk.inj (Run.returns.inj heq)
    exact htype
  · intro htype
    exact ⟨_, _, rfl, htype⟩

/-- In every reachable state over well-formed content, the end of the input is
    reported as it should be unless the file ends with an unfinished token there. -/
theorem reportsEnd_iff {loadType : FileLoadType} {cs : List Char} {s : Scanner}
    (hs : Scanner.Reachable (Scanner.new (Utf8File.ofContent loadType (Utf8.encode cs))) s) :
    s.ReportsEnd ↔ ¬ EndsUnfinished s.unread := by
  obtain ⟨p, right, rfl, rfl, htail⟩ := hs.exists_place_encode
  rw [Scanner.ReportsEnd, Place.unread_encode htail, onlyBlanks_encode, endsUnfinished_encode,
    returns_endOfInput_iff htail]
  constructor
  · rintro ⟨hiff, -⟩ ⟨b, u, hright, hb, hu⟩
    -- The unfinished token is reported as the end of the input, which it is not.
    have hblanks := hiff.mp (.inr ⟨b, u, hright, hb, hu⟩)
    rw [hright] at hblanks
    exact hu.not_blanks hblanks
  · intro hno
    refine ⟨?_, fun hends => absurd hends hno⟩
    rw [or_iff_left hno]

/-- A file with the number `1` only meets the condition. -/
theorem reportsEnd_number :
    (Scanner.new (Utf8File.ofContent .fullMemory (Utf8.encode ['1']))).ReportsEnd := by
  apply (reportsEnd_iff .start).mpr
  rw [scannerNew_encode, Place.unread_encode rfl]
  intro h
  obtain ⟨b, u, hb, hu, heq⟩ := h
  have hbu : ['1'] = b ++ u := Utf8.encode_injective heq
  cases b with
  | nil =>
    obtain rfl : ['1'] = u := hbu
    exact hu.2.2 .tkNumber tkNumber_one
  | cons c b =>
    obtain ⟨rfl, -⟩ := List.cons.inj hbu
    exact nomatch (blanks_cons.mp hb).1

/-- A file with an unclosed string: `next_token` returns `END_OF_INPUT` in its first call. -/
theorem reportsEnd_unclosed_string :
    let start := Scanner.new (Utf8File.ofContent .fullMemory (Utf8.encode ['"', 'a']))
    Scanner.Reachable start start ∧ ¬ start.ReportsEnd := by
  refine ⟨.start, ?_⟩
  have hread : (Scanner.new (Utf8File.ofContent .fullMemory (Utf8.encode ['"', 'a']))).unread =
      Utf8.encode ['"', 'a'] := by decide
  intro h
  obtain ⟨-, herror⟩ := h
  obtain ⟨token, s', hnext, htype⟩ := herror ⟨[], _, blanks_nil, unfinished_quote, hread⟩
  have hreturns : (Scanner.new (Utf8File.ofContent .fullMemory
      (Utf8.encode ['"', 'a']))).nextToken = .returns
        (Token.mk (Utf8.encode ['"', 'a']) 0 2 .endOfInput,
          Scanner.mk (.inMemory { buffer := Utf8.encode ['"', 'a'], pos := 2 }) 0 2 []) := by
    decide
  rw [hreturns] at hnext
  obtain ⟨rfl, -⟩ := Prod.mk.inj (Run.returns.inj hnext)
  exact nomatch htype

/-! ## Tokens and whitespace make up the file -/

/-- The tokens of calls of `next_token` until `END_OF_INPUT` is first returned. -/
inductive Scanner.Lexes : Scanner → List Token → Prop where
  | last {s s' : Scanner} {token : Token} (hnext : s.nextToken = .returns (token, s'))
      (htype : token.type = .endOfInput) : Lexes s [token]
  | more {s s' : Scanner} {token : Token} {tokens : List Token}
      (hnext : s.nextToken = .returns (token, s')) (htype : token.type ≠ .endOfInput)
      (htokens : Lexes s' tokens) : Lexes s (token :: tokens)

/-- The bytes are the lexemes of the tokens with whitespace before each. -/
inductive Interleaves : Bytes → List Token → Prop where
  | nil : Interleaves [] []
  | cons (token : Token) {b : List Char} {bytes : Bytes} {tokens : List Token} (hb : Blanks b)
      (h : Interleaves bytes tokens) :
      Interleaves (Utf8.encode b ++ token.lexeme ++ bytes) (token :: tokens)

/-- A token that is not the end of the input has a lexeme. -/
theorem lexemeOf_ne_nil_of_type {cs : List Char} (h : tokenTypeOf (lex cs) ≠ .endOfInput) :
    lexemeOf (lex cs) ≠ [] := by
  intro hnil
  refine h (tokenTypeOf_eq_endOfInput.mpr ⟨?_, .inl hnil⟩)
  by_contra hended
  exact lexemeOf_ne_nil hended hnil

/-- Every other token takes some of the unread characters. -/
theorem length_restOf_lt {cs : List Char} (h : tokenTypeOf (lex cs) ≠ .endOfInput) :
    (restOf (lex cs)).length < cs.length := by
  have hlen := congrArg List.length (lex_split cs)
  have hpos := List.length_pos_of_ne_nil (lexemeOf_ne_nil_of_type h)
  rw [List.length_append, List.length_append] at hlen
  omega

/-- A run of `next_token` over well-formed content comes to `END_OF_INPUT`. -/
private theorem exists_lexes {p : Place} (right : List Char) (htail : p.tail.exception = none) :
    ∃ tokens, (p.scanner right).Lexes tokens := by
  -- By induction on the number of unread characters: a token takes at least one of them.
  obtain ⟨p', hfollows, hreturns⟩ := nextToken_returns right (.inl htail)
  by_cases htype : tokenTypeOf (lex right) = .endOfInput
  · exact ⟨_, .last hreturns htype⟩
  · obtain ⟨tokens, htokens⟩ :=
      exists_lexes (p := p') (restOf (lex right)) (by rw [hfollows.tail]; exact htail)
    exact ⟨_, .more hreturns htype htokens⟩
termination_by right.length
decreasing_by exact length_restOf_lt htype

private theorem encode_lex_split (cs : List Char) :
    Utf8.encode cs = Utf8.encode (leadingBlanks cs) ++ Utf8.encode (lexemeOf (lex cs)) ++
      Utf8.encode (restOf (lex cs)) := by
  rw [← Utf8.encode_append, ← Utf8.encode_append, List.append_assoc, lex_split]

/-- The tokens of a run make up the unread characters. -/
private theorem Scanner.Lexes.interleaves {s : Scanner} {tokens : List Token}
    (h : s.Lexes tokens) {p : Place} {right : List Char} (hs : s = p.scanner right)
    (htail : p.tail.exception = none) :
    Interleaves (Utf8.encode right) tokens ∧
      ∀ token ∈ tokens, token.type ≠ .endOfInput → token.lexeme ≠ [] := by
  induction h generalizing p right with
  | last hnext htype =>
    subst hs
    obtain ⟨-, p', -, rfl, -⟩ := nextToken_eq_returns hnext
    constructor
    · rw [encode_lex_split right, restOf_eq_nil (tokenTypeOf_eq_endOfInput.mp htype).1]
      exact .cons (p'.token _ _) (blanks_leadingBlanks right) .nil
    · intro token hmem hne
      rw [List.mem_singleton.mp hmem] at hne
      exact absurd htype hne
  | more hnext htype htokens ih =>
    subst hs
    obtain ⟨-, p', hfollows, rfl, rfl⟩ := nextToken_eq_returns hnext
    obtain ⟨hinter, hlexemes⟩ := ih rfl (by rw [hfollows.tail]; exact htail)
    constructor
    · rw [encode_lex_split right]
      exact .cons (p'.token _ _) (blanks_leadingBlanks right) hinter
    · intro token hmem hne
      rcases List.mem_cons.mp hmem with rfl | hmem
      · intro hnil
        exact lexemeOf_ne_nil_of_type htype (Utf8.encode_eq_nil.mp hnil)
      · exact hlexemes token hmem hne

/-- Over well-formed content, the calls of `next_token` come to `END_OF_INPUT`, the file
    is made up of the lexemes they return with whitespace between them, and no call in a
    reachable state throws (so that no slice of the file is out of range). -/
theorem lexes_interleaves (loadType : FileLoadType) (cs : List Char) :
    let start := Scanner.new (Utf8File.ofContent loadType (Utf8.encode cs))
    (∃ tokens, start.Lexes tokens) ∧
    (∀ tokens, start.Lexes tokens → Interleaves (Utf8.encode cs) tokens ∧
      ∀ token ∈ tokens, token.type ≠ .endOfInput → token.lexeme ≠ []) ∧
    (∀ s, Scanner.Reachable start s → ∃ token s', s.nextToken = .returns (token, s')) := by
  have hstart := scannerNew_encode loadType cs
  refine ⟨?_, ?_, ?_⟩
  · rw [hstart]
    exact exists_lexes cs rfl
  · intro tokens h
    exact h.interleaves hstart rfl
  · intro s hs
    obtain ⟨p, right, rfl, -, htail⟩ := hs.exists_place_encode
    obtain ⟨p', -, hreturns⟩ := nextToken_returns right (.inl htail)
    exact ⟨_, _, hreturns⟩

/-! ## Progress -/

theorem Place.currentOffset_scanner (p : Place) (right : List Char) :
    (p.scanner right).file.currentOffset = (Utf8.encode p.left).length :=
  Cursor.currentOffset_file _ _

/-- A call that does not throw moves the reader, unless it is at the end of the file. -/
theorem nextToken_advances {p : Place} {right : List Char} {token : Token} {s' : Scanner}
    (hnext : (p.scanner right).nextToken = .returns (token, s'))
    (hend : (p.scanner right).file.atEnd = false) :
    (p.scanner right).file.currentOffset < s'.file.currentOffset := by
  obtain ⟨hends, p', hfollows, -, rfl⟩ := nextToken_eq_returns hnext
  -- The call reads the whitespace and the lexeme, one of which is not empty.
  have hread : leadingBlanks right ++ lexemeOf (lex right) ≠ [] := by
    by_cases hended : Ended (lex right)
    · -- everything unread has been read, and that is not nothing
      have htail := hends.resolve_right (not_not_intro hended)
      have hsplit := lex_split right
      rw [restOf_eq_nil hended, List.append_nil] at hsplit
      rw [hsplit]
      rintro rfl
      rw [Place.atEnd_nil, Tail.exception_eq_none.mp htail] at hend
      exact nomatch hend
    · intro hnil
      exact lexemeOf_ne_nil hended (List.append_eq_nil_iff.mp hnil).2
  have hpos := List.length_pos_of_ne_nil (fun h => hread (Utf8.encode_eq_nil.mp h))
  rw [Place.currentOffset_scanner, Place.currentOffset_scanner, hfollows.left,
    Utf8.encode_append p.left, List.length_append]
  omega

/-- Once the end of the input has been reported, it is reported again and again. -/
theorem nextToken_sticky {p : Place} {right : List Char} {token : Token} {s' s'' : Scanner}
    (hnext : (p.scanner right).nextToken = .returns (token, s'))
    (htype : token.type = .endOfInput) (hs : Scanner.Reachable s' s'') :
    ∃ token' next, s''.nextToken = .returns (token', next) ∧ token'.type = .endOfInput ∧
      token'.lexeme = [] := by
  obtain ⟨hends, p', hfollows, rfl, rfl⟩ := nextToken_eq_returns hnext
  have htail : p'.tail.exception = none := by
    rw [hfollows.tail]
    exact hends.resolve_right (not_not_intro (tokenTypeOf_eq_endOfInput.mp htype).1)
  rw [restOf_eq_nil (tokenTypeOf_eq_endOfInput.mp htype).1] at hs
  have hlex : lex [] = .ended .start [] := lex_of_blanks blanks_nil
  -- With nothing left to read, every later call stays where it is.
  have hplace : ∃ q : Place, s'' = q.scanner [] ∧ q.tail.exception = none := by
    induction hs with
    | start => exact ⟨p', rfl, htail⟩
    | next _ hnext ih =>
      obtain ⟨q, rfl, hq⟩ := ih
      obtain ⟨-, q', hfollows', -, rfl⟩ := nextToken_eq_returns hnext
      exact ⟨q', by rw [hlex]; rfl, by rw [hfollows'.tail]; exact hq⟩
  obtain ⟨q, rfl, hq⟩ := hplace
  obtain ⟨q', -, hreturns⟩ := nextToken_returns [] (.inl hq)
  rw [hlex] at hreturns
  exact ⟨_, _, hreturns, rfl, rfl⟩

/-! ## The tokens of a run by number -/

/-- The token that the `k`-th call of `next_token` returns, counted from 0. -/
def Scanner.nthToken (k : Nat) (s : Scanner) : Run Exception Token :=
  match k with
  | 0 => do
    let (token, _) ← s.nextToken
    return token
  | k + 1 => do
    let (_, s') ← s.nextToken
    s'.nthToken k

/-- What is left of a text before the `k`-th call. -/
def restAfter : Nat → List Char → List Char
  | 0, cs => cs
  | k + 1, cs => restAfter k (restOf (lex cs))

/-- What a call counts in the position: the whitespace, the lexeme and the character put back. -/
def countedOf (cs : List Char) : List Char :=
  leadingBlanks cs ++ lexemeOf (lex cs) ++ lookaheadOf (lex cs)

/-- What the calls up to the `k`-th count in the position. -/
def counted : Nat → List Char → List Char
  | 0, cs => countedOf cs
  | k + 1, cs => countedOf cs ++ counted k (restOf (lex cs))

/-- Whitespace before a text does not change the next token. -/
theorem lex_blanks_append {b : List Char} (hb : Blanks b) (cs : List Char) :
    lex (b ++ cs) = lex cs := by
  rw [lex, List.dropWhile_append_of_pos hb, ← lex]

theorem lex_restAfter_blanks {b : List Char} (hb : Blanks b) (k : Nat) (cs : List Char) :
    lex (restAfter k (b ++ cs)) = lex (restAfter k cs) := by
  cases k with
  | zero => exact lex_blanks_append hb cs
  | succ k => rw [restAfter, restAfter, lex_blanks_append hb]

theorem counted_blanks {b : List Char} (hb : Blanks b) (k : Nat) (cs : List Char) :
    counted k (b ++ cs) = b ++ counted k cs := by
  have hone : countedOf (b ++ cs) = b ++ countedOf cs := by
    rw [countedOf, countedOf, leadingBlanks, List.takeWhile_append_of_pos hb,
      lex_blanks_append hb, ← leadingBlanks, List.append_assoc, List.append_assoc,
      List.append_assoc]
  cases k with
  | zero => exact hone
  | succ k => rw [counted, counted, hone, lex_blanks_append hb, List.append_assoc]

/-- The `k`-th token over well-formed text. -/
theorem nthToken_eq {p : Place} (right : List Char) (htail : p.tail.exception = none) (k : Nat) :
    (p.scanner right).nthToken k = .returns
      { lexeme := Utf8.encode (lexemeOf (lex (restAfter k right)))
        lineNumber := (p.position.after (counted k right)).line
        characterNumber := (p.position.after (counted k right)).column
        type := tokenTypeOf (lex (restAfter k right)) } := by
  induction k generalizing p right with
  | zero =>
    obtain ⟨p', -, hposition, hreturns⟩ := nextToken_counts right (.inl htail)
    rw [Scanner.nthToken, hreturns, Run.returns_bind, Place.token, hposition]
    rfl
  | succ k ih =>
    obtain ⟨p', hfollows, hposition, hreturns⟩ := nextToken_counts right (.inl htail)
    have htail' : p'.tail.exception = none := by
      rw [hfollows.tail]
      exact htail
    rw [Scanner.nthToken, hreturns, Run.returns_bind]
    show Scanner.nthToken k (p'.scanner (restOf (lex right))) = _
    rw [ih _ htail', hposition, ← countedOf, ← Position.after_append]
    rfl

end CcJson
