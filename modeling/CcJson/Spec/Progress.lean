import CcJson.Spec.Positions
import CcJson.Spec.TokenViews
import CcJson.Spec.Traces

/-!
# Progress of the tokenizer

Every token but the end of the input is reported at a later position than the tokens
before it, and the tokens of a file are scanned in linear time: a call of `next_token`
takes at most two iterations more than it reads bytes.

## Key results

- `positions_increase`: the positions in a run
- `nextToken_iterations`: the iterations of one call
- `parse_linear`: the calls of a run of the parser, and their iterations
-/

namespace CcJson

open Munch

/-! ## Positions -/

/-- The order of positions. -/
def Position.Before (p q : Position) : Prop :=
  p.line < q.line ∨ p.line = q.line ∧ p.column < q.column

namespace Position

theorem Before.trans {p q r : Position} (h : p.Before q) (h' : q.Before r) : p.Before r := by
  unfold Before at *
  omega

theorem before_advance (p : Position) (c : Char) : p.Before (p.advance c) := by
  unfold Before advance
  split <;> simp

/-- Counting a text moves the position on. -/
theorem before_after (p : Position) {cs : List Char} (h : cs ≠ []) : p.Before (p.after cs) := by
  induction cs generalizing p with
  | nil => exact absurd rfl h
  | cons c cs ih =>
    rw [show p.after (c :: cs) = (p.advance c).after cs from rfl]
    by_cases hcs : cs = []
    · subst hcs
      exact p.before_advance c
    · exact (p.before_advance c).trans (ih _ hcs)

end Position

/-- The position that a token is reported at. -/
def Token.position (t : Token) : Position := { line := t.lineNumber, column := t.characterNumber }

/-- A call of `next_token` moves the position of the tokenizer over the characters that it
    counts, and reports its token there. -/
theorem nextToken_position {p : Place} {right : List Char} {token : Token} {s' : Scanner}
    (h : (p.scanner right).nextToken = .returns (token, s')) :
    s'.position = token.position ∧ ∃ cs, token.position = p.position.after cs ∧
      (token.type ≠ .endOfInput → cs ≠ []) := by
  obtain ⟨hends, -⟩ := nextToken_eq_returns h
  obtain ⟨p', -, hposition, hreturns⟩ := nextToken_counts right hends
  rw [hreturns] at h
  obtain ⟨rfl, rfl⟩ := Prod.mk.inj (Run.returns.inj h)
  refine ⟨rfl, _, hposition, ?_⟩
  intro htype hnil
  simp only [List.append_eq_nil_iff] at hnil
  exact lexemeOf_ne_nil_of_type htype hnil.1.2

theorem Scanner.Reads.positions {start s : Scanner} {tokens : List Token}
    (h : start.Reads tokens s)
    (hplace : ∃ (p : Place) (right : List Char), start = p.scanner right) :
    (tokens.Pairwise fun t t' => t'.type ≠ .endOfInput → t.position.Before t'.position) ∧
    ∀ t ∈ tokens, t.position = s.position ∨ t.position.Before s.position := by
  induction h with
  | nil => simp
  | @snoc tokens s s' token h hnext ih =>
    obtain ⟨p, right, hstart⟩ := hplace
    obtain ⟨hpairs, hbefore⟩ := ih
    obtain ⟨q, right', rfl⟩ := (hstart ▸ h).exists_place
    obtain ⟨hs', cs, hcs, hne⟩ := nextToken_position hnext
    -- the position has moved on, or there was nothing to count
    have hmoves : ∀ t ∈ tokens, cs ≠ [] → t.position.Before token.position := by
      intro t ht hcs'
      rw [hcs]
      have hlast := q.position.before_after hcs'
      obtain heq | hbefore := hbefore t ht
      · rw [heq]
        exact hlast
      · exact hbefore.trans hlast
    constructor
    · rw [List.pairwise_append]
      refine ⟨hpairs, List.pairwise_singleton _ _, ?_⟩
      intro t ht t' ht' htype
      obtain rfl := List.mem_singleton.mp ht'
      exact hmoves t ht (hne htype)
    · intro t ht
      rw [hs']
      obtain ht | ht := List.mem_append.mp ht
      · by_cases hnil : cs = []
        · rw [hcs, hnil]
          exact hbefore t ht
        · exact .inr (hmoves t ht hnil)
      · exact .inl (by rw [List.mem_singleton.mp ht])

/-- In any run over any content the tokens that are read one after the other are reported at
    later and later positions, up to the end of the input. -/
theorem positions_increase {loadType : FileLoadType} {content : Bytes} {tokens : List Token}
    {s : Scanner} (h : (Scanner.new (.ofContent loadType content)).Reads tokens s) :
    tokens.Pairwise fun t t' => t'.type ≠ .endOfInput → t.position.Before t'.position := by
  obtain ⟨cs, tail, rfl⟩ := exists_tail content
  exact (h.positions ⟨_, cs, scannerNew_eq _ _ _⟩).1

/-- Two brackets. -/
theorem positions_increase_brackets : ∃ tokens s,
    (Scanner.new (.ofContent .fullMemory (lit "[]"))).Reads tokens s ∧
    tokens.map Token.type = [.tkOpenBracket, .tkCloseBracket] ∧
      tokens.Pairwise fun t t' => t'.type ≠ .endOfInput → t.position.Before t'.position := by
  have hreads : (Scanner.new (.ofContent .fullMemory (lit "[]"))).Reads _ _ :=
    (Scanner.Reads.nil.snoc rfl).snoc rfl
  exact ⟨_, _, hreads, rfl, positions_increase hreads⟩

/-! ## Iterations -/

section Iterations

variable {view : Bytes} {p : Place} {read right : List Char} {c : Char} {l l' : TokenLoop}

/-- The offset of the reader in an iteration. -/
def TokenLoop.offset (l : TokenLoop) : Nat := l.scanner.file.currentOffset

theorem Reading.offset {looked : List Char} {s : State} {type : TokenType}
    (h : Reading p read looked right s type l) :
    l.offset = (Utf8.encode p.left).length + (Utf8.encode read).length := by
  rw [TokenLoop.offset, h.scanner, Place.currentOffset_scanner, Place.advance_left,
    Utf8.encode_append, List.length_append]

theorem length_encode_concat (read : List Char) (c : Char) :
    (Utf8.encode read).length < (Utf8.encode (read ++ [c])).length := by
  have := Utf8.length_utf8EncodeChar_pos c
  rw [Utf8.encode_append, Utf8.encode_singleton, List.length_append]
  omega

/-- The last iteration moves nothing. -/
theorem Inside.eq_of_done (h : Inside view p read right l)
    (hbody : nextTokenBody view l = .returns (.done l')) : l' = l := by
  cases right with
  | nil =>
    cases htail : p.tail.exception with
    | none =>
      rw [body_end h.reading htail] at hbody
      exact (ForInStep.done.inj (Run.returns.inj hbody)).symm
    | some e => cases (body_throws h.reading h.not_done htail).symm.trans hbody
  | cons c right =>
    by_cases hblank : l.currentState = .start → isBlank c = false
    · obtain ⟨l₁, hbody', -⟩ := body_reading h.bytes h.reading h.not_done hblank
      cases hbody'.symm.trans hbody
    · obtain ⟨hs, hc⟩ := not_forall.mp hblank
      rw [h.fresh hs, body_blank (by simpa using hc)] at hbody
      cases hbody

/-- An iteration that stops the token does not move the reader back behind its beginning. -/
theorem Inside.offset_le (h : Inside view p read (c :: right) l)
    (hbody : nextTokenBody view l = .returns (.yield l')) (hdone : isDone l'.currentState = true) :
    l.offset ≤ l'.offset := by
  have hread := length_encode_concat read c
  by_cases hblank : l.currentState = .start → isBlank c = false
  · obtain ⟨l₁, hbody', hafter⟩ := body_reading h.bytes h.reading h.not_done hblank
    obtain rfl : l₁ = l' := ForInStep.yield.inj (Run.returns.inj (hbody'.symm.trans hbody))
    rw [h.reading.offset]
    cases hmove : move l.currentState read c with
    | shift s =>
      obtain ⟨-, h'⟩ := hmove ▸ hafter
      rw [h'.offset]
      omega
    | accept kind =>
      have h' := hmove ▸ hafter
      rw [h'.offset]
      omega
    | putBack kind =>
      have h' := hmove ▸ hafter
      rw [h'.offset]
    | reject =>
      obtain ⟨type, h'⟩ := hmove ▸ hafter
      rw [h'.offset]
      omega
  · -- whitespace before the token does not stop it
    obtain ⟨hs, hc⟩ := not_forall.mp hblank
    rw [h.fresh hs, body_blank (by simpa using hc)] at hbody
    obtain rfl := ForInStep.yield.inj (Run.returns.inj hbody)
    exact nomatch hdone

/-- Each iteration but the last two moves the reader. -/
theorem Inside.takes_le {n : Nat} (h : Inside view p read right l)
    (htakes : Run.Takes (nextTokenBody view) n l l') : l.offset + n ≤ l'.offset + 2 := by
  induction htakes generalizing p read right with
  | done hbody =>
    rw [h.eq_of_done hbody]
    omega
  | @yield n l l₁ l' hbody htakes ih =>
    obtain ⟨c, right, rfl, hgoes⟩ := h.goes hbody
    have hread := length_encode_concat read c
    by_cases hdone : isDone l₁.currentState = true
    · -- the token has been stopped, which leaves one iteration
      obtain ⟨rfl, rfl⟩ := htakes.unique (.done (body_done hdone))
      have := h.offset_le hbody hdone
      omega
    · cases hgoes with
      | skipped _ hnil h' =>
        have := ih h'
        subst hnil
        rw [h'.reading.offset, Place.advance_left, Utf8.encode_append, List.length_append] at this
        rw [h.reading.offset]
        simp only [List.nil_append] at hread
        omega
      | handed _ h' =>
        have h' := h' (by simpa using hdone)
        have := ih h'
        rw [h'.reading.offset] at this
        rw [h.reading.offset]
        omega

end Iterations

/-! ## Calls and runs -/

/-- The number of iterations of the main loop of a call of `next_token`. -/
def Scanner.iterations (s : Scanner) : Nat :=
  Run.iterations (nextTokenBody s.fullFileView) (s.file.size + 1) (TokenLoop.init s)

/-- A call of `next_token` takes at most two iterations more than it reads bytes. -/
theorem nextToken_iterations {p : Place} {right : List Char} {token : Token} {s' : Scanner}
    (h : (p.scanner right).nextToken = .returns (token, s')) :
    (p.scanner right).file.currentOffset + (p.scanner right).iterations ≤
      s'.file.currentOffset + 2 := by
  unfold Scanner.nextToken at h
  obtain ⟨l, hloop, h⟩ := Run.bind_eq_returns h
  obtain ⟨n, hn, htakes⟩ := Run.loop_eq_returns_iff.mp hloop
  rw [Scanner.iterations, Scanner.fullFileView, htakes.iterations_eq hn]
  have hle : (TokenLoop.init (p.scanner right)).offset + n ≤ l.offset + 2 := by
    have hinside := inside_init p right
    rw [← Place.fullFileView_scanner] at hinside
    exact hinside.takes_le htakes
  -- after the loop the reader is left where it is
  obtain ⟨lexeme, -, h⟩ := Run.bind_eq_returns h
  dsimp only at h
  split at h
  · rw [advancePastDeadChars_eq, Run.returns_bind] at h
    obtain ⟨-, rfl⟩ := Prod.mk.inj (Run.returns.inj h)
    exact hle
  · obtain ⟨-, rfl⟩ := Prod.mk.inj (Run.returns.inj h)
    exact hle

/-- The number of iterations of the main loops of calls. -/
def totalIterations : List (Scanner × Token) → Nat
  | [] => 0
  | (s, _) :: calls => s.iterations + totalIterations calls

theorem totalIterations_concat (calls : List (Scanner × Token)) (s : Scanner) (token : Token) :
    totalIterations (calls ++ [(s, token)]) = totalIterations calls + s.iterations := by
  induction calls with
  | nil => simp only [List.nil_append, totalIterations, Nat.add_zero, Nat.zero_add]
  | cons call calls ih =>
    rw [List.cons_append, totalIterations, totalIterations, ih, Nat.add_assoc]

/-- Each byte is read in an iteration of its own, and each token takes at most two others. -/
theorem Called.iterations_le {p : Place} {right : List Char} {s : Scanner}
    {calls : List (Scanner × Token)} (h : Called (p.scanner right) calls s) :
    (p.scanner right).file.currentOffset + totalIterations calls ≤
      s.file.currentOffset + 2 * calls.length := by
  induction h with
  | nil => simp [totalIterations]
  | @snoc calls s s' token h hnext ih =>
    obtain ⟨q, right', rfl⟩ := h.reads.exists_place
    have hle := nextToken_iterations hnext
    rw [totalIterations_concat, List.length_append, List.length_singleton]
    omega

/-- Each token but the end of the input takes a byte. -/
theorem Scanner.Reads.length_le {p : Place} {right : List Char} {s : Scanner}
    {tokens : List Token} (h : (p.scanner right).Reads tokens s)
    (hend : .endOfInput ∉ types tokens) :
    (p.scanner right).file.currentOffset + tokens.length ≤ s.file.currentOffset := by
  induction h with
  | nil => simp
  | @snoc tokens s s' token h hnext ih =>
    obtain ⟨q, right', rfl⟩ := h.exists_place
    simp only [types, List.map_append, List.mem_append, not_or] at hend
    have htype : token.type ≠ .endOfInput := fun heq => hend.2 (by simp [heq])
    have := ih hend.1
    obtain ⟨-, q', hfollows, rfl, rfl⟩ := nextToken_eq_returns hnext
    have hlexeme : lexemeOf (lex right') ≠ [] := lexemeOf_ne_nil_of_type htype
    have hpos : 0 < (Utf8.encode (leadingBlanks right' ++ lexemeOf (lex right'))).length :=
      List.length_pos_of_ne_nil (by simp [hlexeme])
    rw [Place.currentOffset_scanner, Place.currentOffset_scanner, hfollows.left,
      Utf8.encode_append q.left, List.length_append, List.length_append, List.length_singleton]
    rw [Place.currentOffset_scanner, Place.currentOffset_scanner] at this
    omega

/-- The reader stands within the file. -/
theorem Scanner.Reachable.offset_le {loadType : FileLoadType} {content : Bytes} {s : Scanner}
    (h : Scanner.Reachable (Scanner.new (.ofContent loadType content)) s) :
    s.file.currentOffset ≤ content.length := by
  obtain ⟨cs, tail, rfl⟩ := exists_tail content
  obtain ⟨p, right, rfl, hcs, -⟩ := h.exists_place
  rw [Place.currentOffset_scanner, ← hcs, Utf8.encode_append, List.length_append,
    List.length_append]
  omega

/-- However the calls of `next_token` are made until it reports the end of the input, their
    loops take at most three iterations for each byte of the file, and two. -/
theorem Called.linear {loadType : FileLoadType} {content : Bytes} {s : Scanner}
    {calls : List (Scanner × Token)} {tokens : List Token} {token : Token}
    (h : Called (Scanner.new (.ofContent loadType content)) calls s)
    (htokens : calls.map Prod.snd = tokens ++ [token]) (hend : .endOfInput ∉ types tokens) :
    calls.length ≤ content.length + 1 ∧ totalIterations calls ≤ 3 * content.length + 2 := by
  obtain ⟨s₁, hfront, hnext⟩ := (htokens ▸ h.reads).exists_of_snoc
  have hoffset := h.reads.reachable.offset_le
  have hfrontoffset := hfront.reachable.offset_le
  have hcount := congrArg List.length htokens
  obtain ⟨cs, tail, rfl⟩ := exists_tail content
  rw [scannerNew_eq] at h hfront
  have hle := h.iterations_le
  have hlength := hfront.length_le hend
  rw [List.length_map, List.length_append, List.length_singleton] at hcount
  omega

/-- A parser over a newly constructed tokenizer of `file`, with a record of the calls that it
    makes of `next_token`. -/
def Parser.recording (file : Utf8File) : Parser (Recorder Scanner) :=
  Parser.new (Tokenizer.new (Recorder.new (Scanner.new file)))

/-- Validation is linear: when the parser returns, it has called `next_token` at most once more
    than the file has bytes, and the loops of these calls have taken at most three iterations for
    each byte, and two. -/
theorem parse_linear {loadType : FileLoadType} {content : Bytes} {fuel : Nat}
    {p : Parser Scanner}
    (h : (Parser.ofFile (.ofContent loadType content)).parse fuel = .returns p) :
    ∃ r, (Parser.recording (.ofContent loadType content)).parse fuel = .returns r ∧ r.erase = p ∧
      r.tok.source.calls.length ≤ content.length + 1 ∧
      totalIterations r.tok.source.calls ≤ 3 * content.length + 2 := by
  rw [Parser.ofFile, ← Parser.parse_recorder] at h
  obtain ⟨r, hr, hp⟩ := Run.bind_eq_returns h
  refine ⟨r, hr, Run.returns.inj hp, ?_⟩
  obtain ⟨tokens, token, htokens, hcalled, hend⟩ : ∃ tokens token,
      r.tok.source.calls.map Prod.snd = tokens ++ [token] ∧
      Called (Scanner.new (.ofContent loadType content)) r.tok.source.calls
        r.tok.source.source ∧ .endOfInput ∉ types tokens := by
    obtain ⟨cs, tail, rfl⟩ := exists_tail content
    rw [scannerNew_eq] at hr ⊢
    obtain ⟨tokens, token, htokens, hcalled, -, -, haccepted, hrejected⟩ := exists_record hr
    obtain ⟨us, hus⟩ := viable_of_trace haccepted hrejected
    exact ⟨tokens, token, htokens, hcalled, hus.not_mem_left (.inr rfl)⟩
  exact hcalled.linear htokens hend

/-- Two brackets: three calls. -/
theorem parse_linear_brackets : ∃ p r,
    (Parser.ofFile (.ofContent .fullMemory (lit "[]"))).parse 4 = .returns p ∧
    (Parser.recording (.ofContent .fullMemory (lit "[]"))).parse 4 = .returns r ∧ r.erase = p ∧
      r.tok.source.calls.length ≤ (lit "[]").length + 1 ∧
      totalIterations r.tok.source.calls ≤ 3 * (lit "[]").length + 2 := by
  obtain ⟨p, hp⟩ : ∃ p,
      (Parser.ofFile (.ofContent .fullMemory (lit "[]"))).parse 4 = .returns p := ⟨_, rfl⟩
  obtain ⟨r, hr, hlinear⟩ := parse_linear hp
  exact ⟨p, r, hp, hr, hlinear⟩

end CcJson
