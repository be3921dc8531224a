import CcJson.Spec.Cursor
import CcJson.Spec.Iteration
import CcJson.Spec.StateStep

/-!
# `next_token` finds the next token

The loop of `next_token` over the file is the scan of the automaton over the code
points to the right of the reader: offsets, slices and put-backs are accounted for
by the `Place` at which the scanner stands.

## Key results

- `loop_scan`: the loop from a non-blank character on
- `nextToken_accepted`, `nextToken_rejected`, `nextToken_ended`, `nextToken_throws`:
  what `next_token` returns, by the outcome of `lex` on the unread code points
-/

namespace CcJson

open Munch

/-! ## Places -/

/-- `update_position` for a code point. -/
def Position.advance (p : Position) (c : Char) : Position :=
  if c = '\n' then { line := p.line + 1, column := 1 } else { p with column := p.column + 1 }

/-- `update_position` for each code point of a text. -/
def Position.after (p : Position) (cs : List Char) : Position := cs.foldl Position.advance p

@[simp] theorem Position.after_nil (p : Position) : p.after [] = p := rfl

@[simp] theorem Position.after_append (p : Position) (cs ds : List Char) :
    p.after (cs ++ ds) = (p.after cs).after ds := List.foldl_append

theorem Position.after_singleton (p : Position) (c : Char) : p.after [c] = p.advance c := rfl

/-- Everything about a scanner but the code points on the right of its reader. -/
structure Place where
  loadType : FileLoadType
  left : List Char
  tail : Tail
  position : Position
  cerr : List Bytes

namespace Place

/-- The cursor of the reader. -/
def cursor (p : Place) (right : List Char) : Cursor := { left := p.left, right, tail := p.tail }

/-- The scanner at a place with `right` unread. -/
def scanner (p : Place) (right : List Char) : Scanner :=
  { file := (p.cursor right).file p.loadType
    lineNumber := p.position.line
    characterNumber := p.position.column
    cerr := p.cerr }

/-- The token that ends at a place. -/
def token (p : Place) (type : TokenType) (lexeme : List Char) : Token :=
  { lexeme := Utf8.encode lexeme
    lineNumber := p.position.line
    characterNumber := p.position.column
    type }

/-- The place after reading `cs`, and looking at `looked` before putting it back. -/
def advance (p : Place) (cs looked : List Char) : Place :=
  { p with left := p.left ++ cs, position := p.position.after (cs ++ looked) }

/-- The arguments of the step for `c`, when the token that began at the place has been read up
    to it. -/
def stepInput (p : Place) (s : State) (read : List Char) (c : Char) : StepInput :=
  { currentState := s
    codepoint := c.val
    utf8Codepoint := String.utf8EncodeChar c
    lexeme := Utf8.encode (read ++ [c])
    lineNumber := (p.advance (read ++ [c]) []).position.line
    characterNumber := (p.advance (read ++ [c]) []).position.column }

@[simp] theorem advance_tail (p : Place) (cs looked : List Char) :
    (p.advance cs looked).tail = p.tail := rfl

@[simp] theorem advance_loadType (p : Place) (cs looked : List Char) :
    (p.advance cs looked).loadType = p.loadType := rfl

@[simp] theorem advance_left (p : Place) (cs looked : List Char) :
    (p.advance cs looked).left = p.left ++ cs := rfl

@[simp] theorem advance_nil (p : Place) : p.advance [] [] = p := by
  simp [advance]

theorem advance_advance (p : Place) (cs ds looked : List Char) :
    (p.advance cs []).advance ds looked = p.advance (cs ++ ds) looked := by
  simp [advance]

/-- The bytes of the file do not depend on where in the text the place is. -/
theorem cursor_bytes_advance (p : Place) (cs looked right : List Char) :
    ((p.advance cs looked).cursor right).bytes = (p.cursor (cs ++ right)).bytes := by
  simp [Cursor.bytes, cursor]

theorem atEnd_cons (p : Place) (c : Char) (right : List Char) :
    (p.scanner (c :: right)).file.atEnd = false := Cursor.atEnd_file _ _

theorem atEnd_nil (p : Place) : (p.scanner []).file.atEnd = p.tail.bytes.isEmpty :=
  Cursor.atEnd_file _ _

theorem data_scanner (p : Place) (right : List Char) :
    (p.scanner right).file.data = (p.cursor right).bytes := Cursor.data_file _ _

theorem size_scanner (p : Place) (right : List Char) :
    (p.scanner right).file.size = (p.cursor right).bytes.length := Cursor.size_file _ _

/-- Reading a code point. -/
theorem nextCodepoint_cons (p : Place) (c : Char) (right : List Char) :
    (p.scanner (c :: right)).file.nextCodepoint =
      (.ok (some c.val), ((p.advance [c] []).scanner right).file) :=
  Cursor.nextCodepoint_file p.loadType (p.cursor (c :: right))

/-- Counting a code point that has been read. -/
theorem updatePosition_cons (p : Place) (c : Char) (right : List Char) :
    Scanner.updatePosition
        { file := ((p.advance [c] []).scanner right).file
          lineNumber := (p.scanner (c :: right)).lineNumber
          characterNumber := (p.scanner (c :: right)).characterNumber
          cerr := (p.scanner (c :: right)).cerr } c.val =
      (p.advance [c] []).scanner right := by
  have hlf : c.val == jsonLineFeed ↔ c = '\n' := by
    rw [beq_iff_eq, Char.ext_iff]
    exact Iff.rfl
  rw [Scanner.updatePosition]
  simp only [scanner, advance, List.append_nil, Position.after_singleton, Position.advance, hlf]
  split
  · rfl
  · rfl

/-- Reverting over the code point just read. -/
theorem revert_advance (p : Place) (read : List Char) (c : Char) (right : List Char) :
    ((p.advance (read ++ [c]) []).scanner right).file.revert =
      (.ok (), ((p.advance read [c]).scanner (c :: right)).file) := by
  have hrevert := Cursor.revert_file p.loadType ((p.advance (read ++ [c]) []).cursor right)
  have hback : ((p.advance (read ++ [c]) []).cursor right).back =
      (p.advance read [c]).cursor (c :: right) := by
    simp [Cursor.back, cursor, ← List.append_assoc]
  rw [hback] at hrevert
  exact hrevert

end Place

/-! ## The loop of `next_token` -/

/-- The slice of the file between two code points. -/
private theorem substr_cursor (p : Place) (read right : List Char) :
    substr ((p.advance read []).cursor right).bytes (Utf8.encode p.left).length
      (sizeSub ((p.advance read []).scanner right).file.currentOffset
        (Utf8.encode p.left).length) = .ok (Utf8.encode read) := by
  -- Offsets are encoded lengths, so that the slice is the encoding of what lies between.
  have hoff : ((p.advance read []).scanner right).file.currentOffset =
      (Utf8.encode p.left).length + (Utf8.encode read).length := by
    rw [Place.scanner, Cursor.currentOffset_file]
    simp [Cursor.offset, Place.cursor]
  rw [hoff, sizeSub_eq (Nat.le_add_right _ _), Nat.add_sub_cancel_left, substr, if_neg]
  · congr 1
    simp only [Cursor.bytes, Place.cursor, Place.advance_left, Utf8.encode_append,
      List.append_assoc, List.drop_left, List.take_left]
  · simp only [Cursor.bytes, Place.cursor, Place.advance_left, Utf8.encode_append,
      List.length_append]
    omega

/-- The local variables of `next_token` when the token that began at `p` has been read
    up to `right`: `read` are its characters and `looked` those put back. -/
structure Reading (p : Place) (read looked right : List Char) (s : State) (type : TokenType)
    (l : TokenLoop) : Prop where
  scanner : l.scanner = (p.advance read looked).scanner right
  state : l.currentState = s
  tokenType : l.tokenType = type
  start : l.tokenStarted = true → l.tokenStartOffset = (Utf8.encode p.left).length
  fresh : l.tokenStarted = false → read = []

theorem reading_init (p : Place) (right : List Char) :
    Reading p [] [] right .start .endOfInput (TokenLoop.init (p.scanner right)) where
  scanner := by rw [Place.advance_nil]; rfl
  state := rfl
  tokenType := rfl
  start := fun h => nomatch h
  fresh := fun _ => rfl

/-- What an iteration makes of a move of the automaton. -/
def Reading.After (p : Place) (read : List Char) (c : Char) (right : List Char) (l : TokenLoop) :
    Move State TokenType → Prop
  | .shift s => isDone s = false ∧ Reading p (read ++ [c]) [] right s .endOfInput l
  | .accept kind => Reading p (read ++ [c]) [] right .completed kind l
  | .putBack kind => Reading p read [c] (c :: right) .completed kind l
  | .reject => ∃ type, Reading p (read ++ [c]) [] right .dead type l

section Loop

variable {p : Place} {read right : List Char} {c : Char} {s : State} {l : TokenLoop}
  {view : Bytes}

/-- The start offset that an iteration uses. -/
private theorem Reading.startOffset (h : Reading p read [] right s .endOfInput l) :
    l.startOffset = (Utf8.encode p.left).length := by
  unfold TokenLoop.startOffset
  cases hstarted : l.tokenStarted with
  | true => exact h.start hstarted
  | false =>
    rw [if_neg Bool.false_ne_true, h.scanner, h.fresh hstarted, Place.advance_nil]
    exact Cursor.currentOffset_file _ _

/-- Reading the next character of the token. -/
private theorem Reading.nextCodepoint (h : Reading p read [] (c :: right) s .endOfInput l) :
    l.scanner.file.nextCodepoint =
      (.ok (some c.val), ((p.advance (read ++ [c]) []).scanner right).file) := by
  rw [h.scanner, Place.nextCodepoint_cons, Place.advance_advance]

private theorem Reading.readScanner (h : Reading p read [] (c :: right) s .endOfInput l) :
    l.readScanner = (p.advance (read ++ [c]) []).scanner right := by
  have hcount := (p.advance read []).updatePosition_cons c right
  rw [Place.advance_advance] at hcount
  rw [TokenLoop.readScanner, h.nextCodepoint, h.scanner]
  exact hcount

/-- The arguments of a step inside a token: both views of what has been read are encodings. -/
theorem Reading.stepInput (hview : view = (p.cursor (read ++ c :: right)).bytes)
    (h : Reading p read [] (c :: right) s .endOfInput l) (hs : isDone s = false)
    (hblank : s = .start → isBlank c = false) :
    l.stepInput view = .ok (some (p.stepInput s read c)) := by
  -- No whitespace is skipped, the start offset is that of `p` and the slice is the text so far.
  have hskip : (s == .start && isInsignificantWhitespace c.val) = false := by
    cases hst : s == State.start with
    | false => rfl
    | true => rw [isInsignificantWhitespace_val, hblank (beq_iff_eq.mp hst)]; rfl
  have hend : l.scanner.file.atEnd = false := by
    rw [h.scanner]
    exact Place.atEnd_cons _ _ _
  have hslice : substr view (Utf8.encode p.left).length
      (sizeSub ((p.advance (read ++ [c]) []).scanner right).file.currentOffset
        (Utf8.encode p.left).length) = .ok (Utf8.encode (read ++ [c])) := by
    have hbytes : view = ((p.advance (read ++ [c]) []).cursor right).bytes := by
      rw [hview, Place.cursor_bytes_advance, List.append_assoc, List.singleton_append]
    rw [hbytes]
    exact substr_cursor p (read ++ [c]) right
  simp only [TokenLoop.stepInput, hend, h.state, hs, Bool.or_self, Bool.false_eq_true,
    ↓reduceIte, h.nextCodepoint, h.readScanner, h.startOffset, hskip, hslice,
    codepointToUtf8_val, bind, Except.bind, pure, Except.pure]
  rfl

/-- One iteration inside a token makes the move of the automaton. -/
theorem body_reading (hview : view = (p.cursor (read ++ c :: right)).bytes)
    (h : Reading p read [] (c :: right) s .endOfInput l) (hs : isDone s = false)
    (hblank : s = .start → isBlank c = false) :
    ∃ l', nextTokenBody view l = .returns (.yield l') ∧
      Reading.After p read c right l' (move s read c) := by
  obtain ⟨r, hr, hmakes⟩ := processStateStep_makes hs read c
    (p.stepInput s read c).lineNumber (p.stepInput s read c).characterNumber
  have hstep : (p.stepInput s read c).step = .ok r := hr
  rw [nextTokenBody_eq, h.stepInput hview hs hblank]
  simp only [Run.ofExcept_ok, Run.returns_bind, hstep, TokenLoop.afterStep, h.readScanner,
    h.startOffset, Run.pure_eq]
  -- One case for each move; only `putBack` reverts the reader.
  cases hmove : move s read c with
  | shift s' =>
    obtain ⟨hnextState, hdone, htype, hput⟩ := hmove ▸ hmakes
    rw [hput, if_neg Bool.false_ne_true]
    exact ⟨_, rfl, hdone, rfl, hnextState, htype, fun _ => rfl, fun h => nomatch h⟩
  | accept kind =>
    obtain ⟨hnextState, htype, hput⟩ := hmove ▸ hmakes
    rw [hput, if_neg Bool.false_ne_true]
    exact ⟨_, rfl, rfl, hnextState, htype, fun _ => rfl, fun h => nomatch h⟩
  | putBack kind =>
    obtain ⟨hnextState, htype, hput⟩ := hmove ▸ hmakes
    simp only [hput, ↓reduceIte, Place.revert_advance, Run.ofExcept_ok, Run.returns_bind]
    refine ⟨_, rfl, ?_, hnextState, htype, fun _ => rfl, fun h => nomatch h⟩
    simp only [Place.scanner, Place.advance, List.append_nil]
  | reject =>
    obtain ⟨hnextState, hput⟩ := hmove ▸ hmakes
    rw [hput, if_neg Bool.false_ne_true]
    exact ⟨_, rfl, _, rfl, hnextState, rfl, fun _ => rfl, fun h => nomatch h⟩

/-- One iteration over whitespace before a token. -/
theorem body_blank (hc : isBlank c = true) :
    nextTokenBody view (TokenLoop.init (p.scanner (c :: right))) =
      .returns (.yield (TokenLoop.init ((p.advance [c] []).scanner right))) := by
  have hnext := p.nextCodepoint_cons c right
  have hcount := p.updatePosition_cons c right
  simp only [nextTokenBody, TokenLoop.init, Place.atEnd_cons, isDone, hnext, hcount,
    isInsignificantWhitespace_val, hc, Run.ofExcept_ok, Run.returns_bind, Run.pure_eq]
  rfl

/-- The last iteration, after the token has been stopped. -/
theorem body_done (hs : isDone l.currentState = true) :
    nextTokenBody view l = .returns (.done l) := by
  simp only [nextTokenBody, hs, Bool.or_true, ↓reduceIte, Run.pure_eq]

/-- The last iteration, at the end of the file. -/
theorem body_end (h : Reading p read [] [] s .endOfInput l)
    (htail : p.tail.exception = none) : nextTokenBody view l = .returns (.done l) := by
  have hend : l.scanner.file.atEnd = true := by
    rw [h.scanner, Place.atEnd_nil, Place.advance_tail, List.isEmpty_iff]
    exact Tail.exception_eq_none.mp htail
  simp only [nextTokenBody, hend, Bool.true_or, ↓reduceIte, Run.pure_eq]

/-- The last iteration, at a malformed sequence. -/
theorem body_throws (h : Reading p read [] [] s .endOfInput l) (hs : isDone s = false)
    {e : Exception} (htail : p.tail.exception = some e) : nextTokenBody view l = .throws e := by
  have hend : l.scanner.file.atEnd = false := by
    rw [h.scanner, Place.atEnd_nil, Place.advance_tail, List.isEmpty_eq_false_iff]
    exact (Tail.next_of_exception htail).1
  have hnext : l.scanner.file.nextCodepoint.1 = .error e := by
    rw [h.scanner, Place.scanner, Cursor.nextCodepoint_file]
    simp only [Cursor.peek, Place.cursor, Place.advance_tail, htail, Except.map]
  simp only [nextTokenBody, hend, h.state, hs, Bool.or_self, Bool.false_eq_true, ↓reduceIte,
    hnext, Run.ofExcept_error, Run.throws_bind]

/-- What has been read beyond a token and put back: the character that ended a number. -/
def lookahead (kind : TokenType) (rest : List Char) : List Char :=
  if kind = .tkNumber then rest.take 1 else []

/-- How the loop ends when the scan of the automaton has the given outcome. -/
def Stops (p : Place) (result : Run Exception TokenLoop) : Outcome State TokenType Char → Prop
  | .accepted kind w rest =>
    ∃ l, result = .returns l ∧ Reading p w (lookahead kind rest) rest .completed kind l
  | .rejected w rest => ∃ l type, result = .returns l ∧ Reading p w [] rest .dead type l
  | .ended s w =>
    (p.tail.exception = none →
      ∃ l, result = .returns l ∧ isDone s = false ∧ Reading p w [] [] s .endOfInput l) ∧
    ∀ e, p.tail.exception = some e → result = .throws e

/-- The loop of `next_token`, from a character of the token on, scans the token.
    The induction is on the unread characters, of which each iteration takes one. -/
theorem loop_scan {fuel : Nat} (hview : view = (p.cursor (read ++ right)).bytes)
    (h : Reading p read [] right s .endOfInput l) (hs : isDone s = false)
    (hblank : s = .start → ∀ c ∈ right.head?, isBlank c = false) (hfuel : right.length < fuel) :
    Stops p (Run.loop (nextTokenBody view) fuel l) (scan move s read right) := by
  obtain ⟨fuel, rfl⟩ : ∃ n, fuel = n + 1 := ⟨fuel - 1, by omega⟩
  induction right generalizing read s l fuel with
  | nil =>
    constructor
    · intro htail
      exact ⟨l, Run.loop_done fuel (body_end h htail), hs, h⟩
    · intro e htail
      exact Run.loop_throws fuel (body_throws h hs htail)
  | cons c right ih =>
    obtain ⟨l', hbody, hafter⟩ :=
      body_reading hview h hs (fun hstart => hblank hstart c rfl)
    obtain ⟨fuel, rfl⟩ : ∃ n, fuel = n + 1 := by
      refine ⟨fuel - 1, ?_⟩
      rw [List.length_cons] at hfuel
      omega
    have hdone : isDone l'.currentState = true →
        Run.loop (nextTokenBody view) (fuel + 1) l' = .returns l' :=
      fun hd => Run.loop_done fuel (body_done hd)
    rw [Run.loop_yield _ hbody, scan]
    cases hmove : move s read c with
    | shift s' =>
      -- the scan goes on: the rest is one character shorter
      obtain ⟨hs', h'⟩ := hmove ▸ hafter
      refine ih ?_ h' hs' ?_ fuel ?_
      · rw [hview, List.append_assoc, List.singleton_append]
      · -- no move leads back to the start state
        rintro rfl
        exact absurd hmove (kind_of_move (k := .tkError)).2.2
      · rw [List.length_cons] at hfuel
        omega
    | accept kind =>
      -- the token has ended: the next iteration sees a state that is done
      have h' := hmove ▸ hafter
      refine ⟨l', hdone (by rw [h'.state]; rfl), ?_⟩
      rw [lookahead, if_neg (kind_of_move.1 hmove)]
      exact h'
    | putBack kind =>
      have h' := hmove ▸ hafter
      refine ⟨l', hdone (by rw [h'.state]; rfl), ?_⟩
      rw [lookahead, if_pos (kind_of_move.2.1 hmove)]
      exact h'
    | reject =>
      obtain ⟨type, h'⟩ := hmove ▸ hafter
      exact ⟨l', type, hdone (by rw [h'.state]; rfl), h'⟩

/-- Whitespace before a token takes one iteration for each character. -/
private theorem loop_blanks {b : List Char} (hb : Blanks b) (fuel : Nat) :
    Run.loop (nextTokenBody view) (b.length + fuel) (TokenLoop.init (p.scanner (b ++ right))) =
      Run.loop (nextTokenBody view) fuel (TokenLoop.init ((p.advance b []).scanner right)) := by
  induction b generalizing p with
  | nil => simp
  | cons c b ih =>
    obtain ⟨hc, hb⟩ := blanks_cons.mp hb
    rw [List.length_cons, Nat.add_right_comm, List.cons_append,
      Run.loop_yield _ (body_blank hc), ih hb, Place.advance_advance, List.singleton_append]

end Loop

/-! ## `next_token` -/

/-- `advance_past_dead_chars` skips nothing: its `state` is DEAD from the beginning,
    which `is_done` accepts. -/
theorem advancePastDeadChars_eq (file : Utf8File) (pos : Position) :
    advancePastDeadChars file pos = .returns (file, pos) := by
  apply Run.loop_done
  have hdone : isDone .dead = true := rfl
  simp only [advancePastDeadCharsBody, hdone, Bool.or_true, ↓reduceIte, Run.pure_eq]

section Scan

variable {p : Place} {right : List Char}

/-- The loop of `next_token` from its beginning. -/
private theorem loop_lex (p : Place) (right : List Char) :
    Stops (p.advance (leadingBlanks right) [])
      (Run.loop (nextTokenBody (p.cursor right).bytes) ((p.cursor right).bytes.length + 1)
        (TokenLoop.init (p.scanner right))) (lex right) := by
  -- `b` is the whitespace that is skipped, `cs` the text from the token on.
  obtain ⟨b, hb⟩ : ∃ b, leadingBlanks right = b := ⟨_, rfl⟩
  obtain ⟨cs, hcs⟩ : ∃ cs, right.dropWhile isBlank = cs := ⟨_, rfl⟩
  have hright : right = b ++ cs := by rw [← hb, ← hcs, leadingBlanks_append]
  have hlen : right.length ≤ (p.cursor right).bytes.length := by
    have := Utf8.length_le_length_encode right
    simp only [Cursor.bytes, Place.cursor, List.length_append]
    omega
  -- There are at least as many bytes as characters, so the fuel suffices for both parts.
  have hfuel : (p.cursor right).bytes.length + 1 =
      b.length + ((p.cursor right).bytes.length + 1 - b.length) := by
    have : right.length = b.length + cs.length := by rw [hright, List.length_append]
    omega
  have hinit : TokenLoop.init (p.scanner right) = TokenLoop.init (p.scanner (b ++ cs)) := by
    rw [hright]
  rw [hfuel, hinit, loop_blanks (hb ▸ blanks_leadingBlanks right), lex, hb, hcs]
  refine loop_scan ?_ (reading_init _ _) rfl ?_ ?_
  · rw [Place.cursor_bytes_advance, List.nil_append, hright]
  · -- The text after the whitespace does not start with whitespace.
    intro _ c hc
    have hhead := List.head?_dropWhile_not isBlank right
    rw [hcs] at hhead
    cases cs with
    | nil => simp at hc
    | cons d cs =>
      obtain rfl := Option.some.inj (Option.mem_def.mp hc)
      simpa using hhead
  · rw [hright, List.length_append] at hlen
    rw [hright]
    omega

/-- The lexeme that is cut from the file after the loop. -/
private theorem Reading.finalLexeme {w looked rest : List Char} {s : State} {type : TokenType}
    {l : TokenLoop} (h : Reading p w looked rest s type l) :
    l.finalLexeme (p.cursor (w ++ rest)).bytes = .ok (Utf8.encode w) := by
  have hsubstr := substr_cursor p w rest
  rw [Place.cursor_bytes_advance] at hsubstr
  have hfile : l.scanner.file = ((p.advance w []).scanner rest).file := by rw [h.scanner]; rfl
  have hle : (Utf8.encode p.left).length ≤
      ((p.advance w []).scanner rest).file.currentOffset := by
    rw [Place.scanner, Cursor.currentOffset_file]
    simp [Cursor.offset, Place.cursor]
  rw [TokenLoop.finalLexeme, hfile]
  cases hstarted : l.tokenStarted with
  | true => simp only [h.start hstarted, hle, decide_true, Bool.and_self, ↓reduceIte,
      hsubstr]
  | false => simp only [h.fresh hstarted, Bool.false_and, Bool.false_eq_true, ↓reduceIte,
      Utf8.encode_nil]

/-- A complete token is returned, and the reader stands after it. -/
theorem nextToken_accepted {kind : TokenType} {w rest : List Char}
    (h : lex right = .accepted kind w rest) :
    let p' := p.advance (leadingBlanks right ++ w) (lookahead kind rest)
    (p.scanner right).nextToken = .returns (p'.token kind w, p'.scanner rest) := by
  have hstop := loop_lex p right
  rw [h] at hstop
  obtain ⟨l, hloop, hl⟩ := hstop
  have hlexeme := hl.finalLexeme
  rw [Place.cursor_bytes_advance, ← (lex_accepted h).1] at hlexeme
  simp only [Scanner.nextToken, Place.data_scanner, Place.size_scanner, List.take_length, hloop,
    hlexeme, Run.ofExcept_ok, Run.returns_bind, hl.state, hl.scanner, hl.tokenType,
    Place.advance_advance]
  rfl

/-- A text that starts no token is returned as an error, up to the character that
    makes it so. -/
theorem nextToken_rejected {w rest : List Char} (h : lex right = .rejected w rest) :
    ∃ cerr, let p' := { p.advance (leadingBlanks right ++ w) [] with cerr }
      (p.scanner right).nextToken = .returns (p'.token .tkError w, p'.scanner rest) := by
  have hstop := loop_lex p right
  rw [h] at hstop
  obtain ⟨l, type, hloop, hl⟩ := hstop
  have hlexeme := hl.finalLexeme
  rw [Place.cursor_bytes_advance, ← (lex_rejected h).1] at hlexeme
  have hdead : (State.dead == State.dead) = true := rfl
  simp only [Scanner.nextToken, Place.data_scanner, Place.size_scanner, List.take_length, hloop,
    hlexeme, Run.ofExcept_ok, Run.returns_bind, hl.state, hl.scanner, hdead, ↓reduceIte,
    advancePastDeadChars_eq, Place.advance_advance]
  exact ⟨if l.errorMessage.isEmpty then p.cerr else p.cerr ++ [l.errorMessage], rfl⟩

/-- At the end of the file a number is complete and every other text reads as the
    end of the input. -/
theorem nextToken_ended {s : State} {w : List Char} (h : lex right = .ended s w)
    (htail : p.tail.exception = none) :
    let p' := p.advance (leadingBlanks right ++ w) []
    (p.scanner right).nextToken =
      .returns (p'.token ((finalKind s).getD .endOfInput) w, p'.scanner []) := by
  have hstop := loop_lex p right
  rw [h] at hstop
  obtain ⟨l, hloop, hdone, hl⟩ := hstop.1 htail
  have hlexeme := hl.finalLexeme
  rw [Place.cursor_bytes_advance, List.append_nil, ← (lex_ended h).1] at hlexeme
  have hend : ((p.advance (leadingBlanks right ++ w) []).scanner []).file.atEnd = true := by
    rw [Place.atEnd_nil, Place.advance_tail, List.isEmpty_iff]
    exact Tail.exception_eq_none.mp htail
  -- The scan has not stopped, so the branch of a dead token is not taken.
  have hdead : (s == State.dead) = false := by
    cases s <;> first | rfl | exact nomatch hdone
  simp only [Scanner.nextToken, Place.data_scanner, Place.size_scanner, List.take_length, hloop,
    hlexeme, Run.ofExcept_ok, Run.returns_bind, hl.state, hl.scanner, hl.tokenType,
    Place.advance_advance, hend, hdead, Bool.and_true, Bool.false_eq_true, ↓reduceIte, finalKind]
  cases isNumberState s <;> rfl

/-- The exception of a malformed sequence inside or after the text leaves `next_token`. -/
theorem nextToken_throws {s : State} {w : List Char} (h : lex right = .ended s w) {e : Exception}
    (htail : p.tail.exception = some e) : (p.scanner right).nextToken = .throws e := by
  have hstop := loop_lex p right
  rw [h] at hstop
  simp only [Scanner.nextToken, Place.data_scanner, Place.size_scanner, List.take_length,
    hstop.2 e htail, Run.throws_bind]

/-- `p'` is a place in the same file as `p`, `cs` further. -/
structure Place.Follows (p p' : Place) (cs : List Char) : Prop where
  loadType : p'.loadType = p.loadType
  left : p'.left = p.left ++ cs
  tail : p'.tail = p.tail

theorem Place.follows_advance (p : Place) (cs looked : List Char) :
    p.Follows (p.advance cs looked) cs := ⟨rfl, rfl, rfl⟩

/-- What an outcome counts in the position beside the text it reads: the character that ended
    a number. -/
def lookaheadOf : Outcome State TokenType Char → List Char
  | .accepted kind _ rest => lookahead kind rest
  | _ => []

/-- What `next_token` returns, and what it counts, unless it runs into a malformed sequence. -/
theorem nextToken_counts (right : List Char)
    (h : p.tail.exception = none ∨ ¬ Ended (lex right)) :
    ∃ p', p.Follows p' (leadingBlanks right ++ lexemeOf (lex right)) ∧
      p'.position = p.position.after
        (leadingBlanks right ++ lexemeOf (lex right) ++ lookaheadOf (lex right)) ∧
      (p.scanner right).nextToken =
        .returns (p'.token (tokenTypeOf (lex right)) (lexemeOf (lex right)),
          p'.scanner (restOf (lex right))) := by
  cases hlex : lex right with
  | accepted kind w rest =>
    exact ⟨_, p.follows_advance _ _, rfl, nextToken_accepted hlex⟩
  | rejected w rest =>
    obtain ⟨cerr, hreturns⟩ := nextToken_rejected (p := p) hlex
    exact ⟨{ p.advance (leadingBlanks right ++ w) [] with cerr }, ⟨rfl, rfl, rfl⟩, rfl, hreturns⟩
  | ended s w =>
    rw [hlex] at h
    have htail := h.resolve_right (not_not_intro trivial)
    exact ⟨_, p.follows_advance _ _, rfl, nextToken_ended hlex htail⟩

/-- What `next_token` returns, unless it runs into a malformed sequence. -/
theorem nextToken_returns (right : List Char)
    (h : p.tail.exception = none ∨ ¬ Ended (lex right)) :
    ∃ p', p.Follows p' (leadingBlanks right ++ lexemeOf (lex right)) ∧
      (p.scanner right).nextToken =
        .returns (p'.token (tokenTypeOf (lex right)) (lexemeOf (lex right)),
          p'.scanner (restOf (lex right))) := by
  obtain ⟨p', hfollows, -, hreturns⟩ := nextToken_counts right h
  exact ⟨p', hfollows, hreturns⟩

/-- `next_token` throws iff it runs into a malformed sequence. -/
theorem nextToken_throws_iff {e : Exception} :
    (p.scanner right).nextToken = .throws e ↔
      p.tail.exception = some e ∧ Ended (lex right) := by
  by_cases h : p.tail.exception = none ∨ ¬ Ended (lex right)
  · obtain ⟨p', -, hreturns⟩ := nextToken_returns right h
    rw [hreturns]
    constructor
    · intro hthrows
      exact nomatch hthrows
    · intro h
      obtain ⟨htail, hended⟩ := h
      rcases h with hnone | hnot
      · rw [htail] at hnone
        exact nomatch hnone
      · exact absurd hended hnot
  · obtain ⟨htail, hended⟩ := not_or.mp h
    obtain ⟨e', he'⟩ := Option.ne_none_iff_exists'.mp htail
    rw [not_not] at hended
    cases hlex : lex right with
    | ended s w =>
      rw [nextToken_throws hlex he', he']
      simp [Ended]
    | _ => rw [hlex] at hended; exact hended.elim

end Scan

end CcJson
