import CcJson.Spec.Recognition

/-!
# Source positions

The position that the tokenizer keeps beside its reader counts the character after a
number twice: `next_token` puts that character back into the file and not out of the
position. It also starts in column 0 where a line feed starts a line in column 1.

## Key results

- `countsOnce_iff`: the runs in which every character is counted once
- `feedShifts_iff`: the tokens that keep their column when a line feed is put before the text
-/

namespace CcJson

open Munch

/-! ## Counting characters -/

theorem Position.after_cons (p : Position) (c : Char) (cs : List Char) :
    p.after (c :: cs) = (p.advance c).after cs := rfl

/-- The line grows by the line feeds. -/
theorem Position.after_line (p : Position) (cs : List Char) :
    (p.after cs).line = p.line + cs.count '\n' := by
  induction cs generalizing p with
  | nil => rfl
  | cons c cs ih =>
    rw [Position.after_cons, ih, List.count_cons, Position.advance]
    by_cases hc : c = '\n'
    · simp only [hc, if_true, beq_self_eq_true]
      omega
    · simp only [hc, if_false, beq_iff_eq]
      omega

/-- Without a line feed the column grows by the characters. -/
theorem Position.after_column (p : Position) {cs : List Char} (h : '\n' ∉ cs) :
    (p.after cs).column = p.column + cs.length := by
  induction cs generalizing p with
  | nil => rfl
  | cons c cs ih =>
    obtain ⟨hc, hcs⟩ := not_or.mp (mt List.mem_cons.mpr h)
    rw [Position.after_cons, ih _ hcs, Position.advance, if_neg (Ne.symm hc), List.length_cons]
    show p.column + 1 + cs.length = _
    omega

/-- Every character changes the position. -/
theorem Position.after_eq_self_iff (p : Position) (cs : List Char) : p.after cs = p ↔ cs = [] := by
  constructor
  · intro h
    have hline := congrArg Position.line h
    have hcolumn := congrArg Position.column h
    rw [Position.after_line] at hline
    -- the line is the same, so there is no line feed and the column counts the characters
    have hfeed : '\n' ∉ cs := by
      intro hmem
      have := List.count_pos_iff.mpr hmem
      omega
    rw [Position.after_column p hfeed] at hcolumn
    exact List.eq_nil_of_length_eq_zero (by omega)
  · rintro rfl
    rfl

/-- Two counts of a text come to the same column, if they start in it or there is a line feed. -/
theorem Position.after_column_eq_iff (p q : Position) (cs : List Char) :
    (p.after cs).column = (q.after cs).column ↔ p.column = q.column ∨ '\n' ∈ cs := by
  induction cs generalizing p q with
  | nil => simp
  | cons c cs ih =>
    rw [Position.after_cons, Position.after_cons, ih, List.mem_cons, Position.advance,
      Position.advance]
    by_cases hc : c = '\n'
    · simp [hc]
    · have hne : ¬ '\n' = c := fun h => hc h.symm
      simp only [hc, hne, if_false, false_or, Nat.add_right_cancel_iff]

/-- The byte of a line feed is in no other encoding. -/
private theorem count_utf8EncodeChar (c : Char) :
    (String.utf8EncodeChar c).count 10 = if c = '\n' then 1 else 0 := by
  have hc : c = '\n' ↔ c.val.toNat = 10 := by
    rw [Char.ext_iff, ← UInt32.toNat_inj]
    exact Iff.rfl
  have hseq := Utf8Cpp.isSequence_utf8EncodeChar c
  rw [if_congr hc rfl rfl]
  generalize String.utf8EncodeChar c = bs at hseq
  generalize c.val.toNat = n at hseq
  -- The bytes of the longer sequences are at least 0x80.
  have htrail : ∀ b : UInt8, Utf8Cpp.isTrail b = true → b ≠ 10 := by
    rintro b hb rfl
    exact nomatch hb
  have hlead : ∀ b : UInt8, 192 ≤ b.toNat → b ≠ 10 := by
    rintro b hb rfl
    exact absurd hb (by decide)
  cases hseq with
  | one b hn hlt =>
    have hb : b = 10 ↔ n = 10 := by
      rw [hn, ← UInt8.toNat_inj]
      exact Iff.rfl
    simp only [List.count_singleton, beq_iff_eq, hb]
  | two b b₁ hlo hhi ht hn hge =>
    have hn10 : n ≠ 10 := by omega
    simp [hlead b (by omega), htrail b₁ ht, hn10]
  | three b b₁ b₂ hlo hhi ht₁ ht₂ hn hge =>
    have hn10 : n ≠ 10 := by omega
    simp [hlead b (by omega), htrail b₁ ht₁, htrail b₂ ht₂, hn10]
  | four b b₁ b₂ b₃ hlo hhi ht₁ ht₂ ht₃ hn hge =>
    have hn10 : n ≠ 10 := by omega
    simp [hlead b (by omega), htrail b₁ ht₁, htrail b₂ ht₂, htrail b₃ ht₃, hn10]

/-- The line feeds of a text are the line feeds among its bytes. -/
theorem count_encode (cs : List Char) : (Utf8.encode cs).count 10 = cs.count '\n' := by
  induction cs with
  | nil => rfl
  | cons c cs ih =>
    rw [Utf8.encode_cons, List.count_append, ih, count_utf8EncodeChar, List.count_cons]
    simp only [beq_iff_eq]
    omega

/-! ## The character put back -/

theorem lookaheadOf_of_longest {b w r : List Char} {c : Char} (hb : Blanks b)
    (h : Longest IsToken .tkNumber w (c :: r)) :
    lookaheadOf (lex (b ++ (w ++ c :: r))) = [c] := by
  rcases lex_of_longest hb h with hlex | ⟨s, -, hnil, -⟩
  · rw [hlex]
    rfl
  · exact absurd hnil (List.cons_ne_nil c r)

/-- Nothing is put back but the character that has ended a number. -/
theorem lookaheadOf_cases (cs : List Char) :
    lookaheadOf (lex cs) = [] ∨ ∃ w c r, lookaheadOf (lex cs) = [c] ∧
      cs = leadingBlanks cs ++ (w ++ c :: r) ∧ Longest IsToken .tkNumber w (c :: r) := by
  cases hlex : lex cs with
  | accepted kind w rest =>
    obtain ⟨hcs, hlong⟩ := lex_accepted hlex
    by_cases hkind : kind = .tkNumber
    · subst hkind
      cases rest with
      | nil => exact .inl rfl
      | cons c r => exact .inr ⟨w, c, r, rfl, hcs, hlong⟩
    · exact .inl (if_neg hkind)
  | _ => exact .inl rfl

/-! ## Runs of `next_token` -/

/-- A call of `next_token` with the state before and after it. -/
structure Call where
  before : Scanner
  token : Token
  after : Scanner

/-- The calls of a run of `next_token` from a state. -/
inductive Scanner.Calls : Scanner → List Call → Prop where
  | nil (s : Scanner) : Calls s []
  | cons {s s' : Scanner} {token : Token} {calls : List Call}
      (hnext : s.nextToken = .returns (token, s')) (hcalls : Calls s' calls) :
      Calls s ({ before := s, token, after := s' } :: calls)

/-- The part of the file that the reader has passed. -/
def Scanner.passed (s : Scanner) : Bytes := s.file.data.take s.file.currentOffset

/-- The position of the tokenizer. -/
def Scanner.position (s : Scanner) : Position :=
  { line := s.lineNumber, column := s.characterNumber }

/-- After the call the position, which is that of the token, counts each character before the
    offset of the reader once. -/
structure Call.CountsOnce (call : Call) : Prop where
  position : ∃ cs, call.after.passed = Utf8.encode cs ∧
    call.after.position = Position.after { line := 0, column := 0 } cs
  token : call.token.lineNumber = call.after.lineNumber ∧
    call.token.characterNumber = call.after.characterNumber
  lines : call.after.lineNumber = call.after.passed.count 10

/-- The unread text goes on with a number that ends before the end of the text. -/
def Scanner.PutsBack (s : Scanner) : Prop :=
  ∃ b w c r, s.unread = Utf8.encode (b ++ (w ++ c :: r)) ∧ Blanks b ∧ TkNumber w ∧
    ¬ ∃ v, TkNumber (w ++ c :: v)

theorem Place.passed_scanner (p : Place) (right : List Char) :
    (p.scanner right).passed = Utf8.encode p.left := by
  rw [Scanner.passed, Place.data_scanner, Place.currentOffset_scanner]
  exact List.take_left

/-- A character is put back after the numbers that do not end the text. -/
theorem putsBack_iff {p : Place} {right : List Char} (htail : p.tail.exception = none) :
    (p.scanner right).PutsBack ↔ lookaheadOf (lex right) ≠ [] := by
  rw [Scanner.PutsBack, Place.unread_encode htail]
  constructor
  · intro h
    obtain ⟨b, w, c, r, htext, hb, hw, hmax⟩ := h
    obtain rfl := Utf8.encode_injective htext
    have hlong : Longest IsToken .tkNumber w (c :: r) := by
      apply longest_number_iff.mpr
      refine ⟨hw, ?_⟩
      intro d r' heq
      obtain ⟨rfl, -⟩ := List.cons.inj heq
      exact hmax
    rw [lookaheadOf_of_longest hb hlong]
    exact List.cons_ne_nil c []
  · intro hlooked
    obtain ⟨w, c, r, -, hright, hlong⟩ := (lookaheadOf_cases right).resolve_left hlooked
    obtain ⟨hw, hmax⟩ := longest_number_iff.mp hlong
    exact ⟨_, w, c, r, by rw [← hright], blanks_leadingBlanks right, hw, hmax c r rfl⟩

/-- The position of a place counts each character on its left once. -/
def Place.Counted (p : Place) : Prop :=
  p.position = Position.after { line := 0, column := 0 } p.left

/-- A call keeps the count exactly if it puts no character back. -/
theorem countsOnce_step {p : Place} {right : List Char} (htail : p.tail.exception = none)
    (hp : p.Counted) {token : Token} {s' : Scanner}
    (hnext : (p.scanner right).nextToken = .returns (token, s')) :
    ∃ (p' : Place) (right' : List Char), s' = p'.scanner right' ∧ p'.tail.exception = none ∧
      (Call.CountsOnce { before := p.scanner right, token, after := s' } ↔ p'.Counted) ∧
      (p'.Counted ↔ ¬ (p.scanner right).PutsBack) := by
  obtain ⟨p', hfollows, hposition, hreturns⟩ := nextToken_counts right (.inl htail)
  rw [hreturns] at hnext
  obtain ⟨rfl, rfl⟩ := Prod.mk.inj (Run.returns.inj hnext)
  refine ⟨p', _, rfl, by rw [hfollows.tail]; exact htail, ?_, ?_⟩
  · constructor
    · intro h
      obtain ⟨⟨cs, hpassed, hcs⟩, -, -⟩ := h
      rw [Place.passed_scanner] at hpassed
      obtain rfl := Utf8.encode_injective hpassed
      exact hcs
    · intro hp'
      refine ⟨⟨p'.left, Place.passed_scanner _ _, hp'⟩, ⟨rfl, rfl⟩, ?_⟩
      have hline := congrArg Position.line hp'
      rw [Position.after_line] at hline
      rw [Place.passed_scanner, count_encode]
      exact hline.trans (Nat.zero_add _)
  · -- `p'` counts what it should and the character that was put back
    have hcount : p'.position = (Position.after { line := 0, column := 0 } p'.left).after
        (lookaheadOf (lex right)) := by
      rw [hposition, hfollows.left, hp]
      simp only [Position.after_append]
    rw [putsBack_iff htail, not_not, Place.Counted, hcount, Position.after_eq_self_iff]

private theorem calls_countsOnce_iff {s : Scanner} {calls : List Call} (h : s.Calls calls)
    {p : Place} {right : List Char} (hs : s = p.scanner right) (htail : p.tail.exception = none)
    (hp : p.Counted) :
    (∀ call ∈ calls, call.CountsOnce) ↔ ∀ call ∈ calls, ¬ call.before.PutsBack := by
  induction h generalizing p right with
  | nil s => simp
  | cons hnext hcalls ih =>
    subst hs
    obtain ⟨p', right', rfl, htail', hcounts, hback⟩ := countsOnce_step htail hp hnext
    rw [List.forall_mem_cons, List.forall_mem_cons, hcounts, ← hback]
    -- once the count is wrong neither side holds, and else it is right for the other calls
    exact and_congr_right fun hp' => ih rfl htail' hp'

/-- In a run over well-formed content every character is counted once after each call, exactly
    if no call reads a number that ends before the end of the file. -/
theorem countsOnce_iff {loadType : FileLoadType} {cs : List Char} {calls : List Call}
    (h : (Scanner.new (Utf8File.ofContent loadType (Utf8.encode cs))).Calls calls) :
    (∀ call ∈ calls, call.CountsOnce) ↔ ∀ call ∈ calls, ¬ call.before.PutsBack :=
  calls_countsOnce_iff h (scannerNew_encode loadType cs) rfl rfl

/-- A line feed and a number at the end of the file. -/
theorem countsOnce_number :
    let start := Scanner.new (Utf8File.ofContent .fullMemory (Utf8.encode ['\n', '1']))
    let calls := [Call.mk start (Token.mk (Utf8.encode ['1']) 1 2 .tkNumber)
      (Scanner.mk (.inMemory { buffer := Utf8.encode ['\n', '1'], pos := 2 }) 1 2 [])]
    (∀ call ∈ calls, call.CountsOnce) ↔ ∀ call ∈ calls, ¬ call.before.PutsBack :=
  countsOnce_iff (.cons (by decide) (.nil _))

/-- A number and a line feed: after the first call the tokenizer is in the second line, with the
    reader still before the line feed. -/
theorem countsOnce_number_feed :
    let start := Scanner.new (Utf8File.ofContent .fullMemory (Utf8.encode ['1', '\n']))
    let calls := [Call.mk start (Token.mk (Utf8.encode ['1']) 1 1 .tkNumber)
      (Scanner.mk (.inMemory { buffer := Utf8.encode ['1', '\n'], pos := 1 }) 1 1 [])]
    start.Calls calls ∧ ¬ ∀ call ∈ calls, call.CountsOnce := by
  refine ⟨.cons (by decide) (.nil _), ?_⟩
  intro hcounts
  have hlines := (hcounts _ (List.mem_singleton.mpr rfl)).lines
  exact absurd hlines (by decide)

/-! ## A line feed before the text -/

private theorem SlashContent.feed_not_mem {e : List Char} (h : SlashContent e) : '\n' ∉ e := by
  intro hmem
  cases h with
  | escape hc =>
    obtain rfl := List.mem_singleton.mp hmem
    exact nomatch hc
  | unicode hlen hhex =>
    rcases List.mem_cons.mp hmem with hu | hmem
    · exact absurd hu (by decide)
    · exact nomatch hhex _ hmem

private theorem StringContent.feed_not_mem {v : List Char} (h : StringContent v) : '\n' ∉ v := by
  induction h with
  | char hslash hquote hcontrol hv ih =>
    intro hmem
    rcases List.mem_cons.mp hmem with rfl | hmem
    · exact nomatch hcontrol
    · exact ih hmem
  | slash he hv ih => simp [he.feed_not_mem, ih]
  | quote => decide

theorem IsToken.feed_not_mem {kind : TokenType} {w : List Char} (h : IsToken kind w) :
    '\n' ∉ w := by
  cases kind with
  | tkString =>
    obtain ⟨hv⟩ : TkString w := h
    simp [hv.feed_not_mem]
  | tkNumber =>
    intro hmem
    exact nomatch TkNumber.numberChars h '\n' hmem
  | tkError | endOfInput => exact nomatch h
  | _ =>
    obtain rfl := Option.some.inj h
    decide

/-- No token goes on with a line feed. -/
theorem feed_not_mem_of_tokenPrefix {u : List Char} (h : TokenPrefix IsToken u) : '\n' ∉ u := by
  obtain ⟨kind, v, hv⟩ := h
  intro hmem
  exact hv.feed_not_mem (List.mem_append_left v hmem)

/-- The text is whitespace and then a part of a token, or a number, before a line feed. -/
def FeedNext (cs : List Char) : Prop :=
  ∃ b u r, cs = b ++ (u ++ '\n' :: r) ∧ Blanks b ∧ TokenPrefix IsToken u ∧
    ∀ kind, IsToken kind u → kind = .tkNumber

/-- A line feed in the whitespace: nothing of a token comes before it. -/
private theorem FeedNext.of_leadingBlanks {cs : List Char} (h : '\n' ∈ leadingBlanks cs) :
    FeedNext cs := by
  obtain ⟨b, b', hb⟩ := List.append_of_mem h
  have hblanks := blanks_leadingBlanks cs
  have hcs := leadingBlanks_append cs
  rw [hb] at hblanks hcs
  refine ⟨b, [], b' ++ cs.dropWhile isBlank, ?_, (blanks_append.mp hblanks).1,
    ⟨.tkNumber, ['1'], tkNumber_one⟩, fun kind h => absurd rfl h.ne_nil⟩
  rw [List.nil_append, ← List.cons_append, ← List.append_assoc, hcs]

/-- A line feed in the lexeme: it is the one character that makes an error. -/
private theorem FeedNext.of_lexeme {cs : List Char} (h : '\n' ∈ lexemeOf (lex cs)) :
    FeedNext cs := by
  cases hlex : lex cs with
  | accepted kind w rest =>
    rw [hlex] at h
    exact absurd h (lex_accepted hlex).2.1.feed_not_mem
  | rejected w rest =>
    rw [hlex] at h
    obtain ⟨hcs, v, c, rfl, hpre, hno, hdead⟩ := lex_rejected hlex
    rcases List.mem_append.mp h with hmem | hmem
    · exact absurd hmem (feed_not_mem_of_tokenPrefix hpre)
    · obtain rfl := List.mem_singleton.mp hmem
      rw [List.append_assoc] at hcs
      exact ⟨_, v, rest, hcs, blanks_leadingBlanks cs, hpre, fun kind h => absurd h (hno kind)⟩
  | ended s w =>
    rw [hlex] at h
    exact absurd h (feed_not_mem_of_tokenPrefix (lex_ended hlex).2.1.tokenPrefix)

/-- A line feed that is put back: it has ended a number. -/
private theorem FeedNext.of_lookahead {cs : List Char} (h : '\n' ∈ lookaheadOf (lex cs)) :
    FeedNext cs := by
  rcases lookaheadOf_cases cs with hnil | ⟨w, c, r, hlooked, hcs, hlong⟩
  · rw [hnil] at h
    exact absurd h List.not_mem_nil
  · rw [hlooked] at h
    obtain rfl := List.mem_singleton.mp h
    have hlive : automaton.live .start [] := rfl
    exact ⟨_, w, r, hcs, blanks_leadingBlanks cs, tokenPrefix_of_lang hlong.1,
      fun kind hkind => automaton.kind_unique hlive hkind hlong.1⟩

/-- A call counts a line feed only in the whitespace, as the character that makes an error or as
    the one that ends a number. -/
theorem mem_countedOf_iff {cs : List Char} : '\n' ∈ countedOf cs ↔ FeedNext cs := by
  rw [countedOf, List.mem_append, List.mem_append]
  constructor
  · intro h
    obtain (hmem | hmem) | hmem := h
    · exact .of_leadingBlanks hmem
    · exact .of_lexeme hmem
    · exact .of_lookahead hmem
  · intro h
    obtain ⟨b, u, r, rfl, hb, hu, hno⟩ := h
    by_cases hnil : u = []
    · left; left
      rw [hnil, List.nil_append, leadingBlanks, List.takeWhile_append_of_pos hb,
        List.takeWhile_cons_of_pos rfl]
      exact List.mem_append_right b List.mem_cons_self
    · -- the line feed ends the token: it completes a number or makes an error
      have hdead : ¬ TokenPrefix IsToken (u ++ ['\n']) := by
        intro hpre
        exact feed_not_mem_of_tokenPrefix hpre (by simp)
      by_cases hnumber : TkNumber u
      · right
        have hlong : Longest IsToken .tkNumber u ('\n' :: r) := by
          refine ⟨hnumber, ?_⟩
          intro c r' heq
          obtain ⟨rfl, -⟩ := List.cons.inj heq
          exact hdead
        rw [lookaheadOf_of_longest hb hlong]
        exact List.mem_singleton.mpr rfl
      · left; right
        have hkinds : ∀ kind, ¬ IsToken kind u := by
          intro kind h
          obtain rfl := hno kind h
          exact hnumber h
        rw [lex_of_dead hb (fun h => absurd h hnil) ⟨hu, hkinds, hdead⟩]
        simp [lexemeOf]

/-- The text of the first `k` tokens, or what takes their places, is followed by a text that goes
    on to a line feed within the next token. -/
inductive FeedWithin : Nat → List Char → Prop where
  | here {k : Nat} {cs : List Char} (h : FeedNext cs) : FeedWithin k cs
  | token {k : Nat} {kind : TokenType} {b w rest : List Char} (hb : Blanks b)
      (hw : Longest IsToken kind w rest) (hrest : FeedWithin k rest) :
      FeedWithin (k + 1) (b ++ (w ++ rest))
  | error {k : Nat} {b v rest : List Char} {c : Char} (hb : Blanks b)
      (hstart : v = [] → isBlank c = false) (hdead : Dead IsToken v c)
      (hrest : FeedWithin k rest) : FeedWithin (k + 1) (b ++ (v ++ c :: rest))

theorem not_feedWithin_nil {k : Nat} : ¬ FeedWithin k [] := by
  intro h
  generalize hcs : ([] : List Char) = cs at h
  cases h with
  | here h =>
    obtain ⟨b, u, r, rfl, -⟩ := h
    simp at hcs
  | token hb hw hrest =>
    have hnil := hw.1.ne_nil
    simp_all
  | error => simp at hcs

/-- The calls up to the `k`-th count a line feed iff there is one in their texts. -/
theorem mem_counted_iff (k : Nat) (cs : List Char) : '\n' ∈ counted k cs ↔ FeedWithin k cs := by
  induction k generalizing cs with
  | zero =>
    rw [counted, mem_countedOf_iff]
    constructor
    · exact .here
    · intro h
      obtain ⟨h⟩ := h
      exact h
  | succ k ih =>
    rw [counted, List.mem_append, mem_countedOf_iff, ih]
    constructor
    · intro h
      obtain h | h := h
      · exact .here h
      · cases hlex : lex cs with
        | accepted kind w rest =>
          rw [hlex] at h
          obtain ⟨hcs, hlong⟩ := lex_accepted hlex
          rw [hcs]
          exact .token (blanks_leadingBlanks cs) hlong h
        | rejected w rest =>
          have htype : tokenTypeOf (lex cs) = .tkError := by rw [hlex]; rfl
          obtain ⟨v, c, hlex', hdead, hstart⟩ := lex_of_tkError htype
          have hcs := (lex_rejected hlex').1
          rw [List.append_assoc, List.singleton_append] at hcs
          rw [hcs]
          exact .error (blanks_leadingBlanks cs) hstart hdead h
        | ended s w =>
          rw [hlex] at h
          exact absurd h not_feedWithin_nil
    · intro h
      cases h with
      | here h => exact .inl h
      | token hb hw hrest =>
        right
        rwa [(lex_eq_of_longest hb hw).2.2]
      | error hb hstart hdead hrest =>
        right
        rwa [lex_of_dead hb hstart hdead]

/-- The `k`-th token of the text after a line feed is that of the text, one line further down. -/
def FeedShifts (loadType : FileLoadType) (k : Nat) (cs : List Char) : Prop :=
  ∃ token : Token,
    (Scanner.new (Utf8File.ofContent loadType (Utf8.encode cs))).nthToken k = .returns token ∧
    (Scanner.new (Utf8File.ofContent loadType (Utf8.encode ('\n' :: cs)))).nthToken k =
      .returns { token with lineNumber := token.lineNumber + 1 }

/-- A line feed before the text moves the `k`-th token to the next line and leaves its column,
    exactly if the text up to the token has a line feed already. -/
theorem feedShifts_iff (loadType : FileLoadType) (k : Nat) (cs : List Char) :
    FeedShifts loadType k cs ↔ FeedWithin k cs := by
  have hfeed : Blanks ['\n'] := by decide
  have htoken := nthToken_eq (p := Place.start loadType Tail.empty) cs rfl k
  have htoken' := nthToken_eq (p := Place.start loadType Tail.empty) (['\n'] ++ cs) rfl k
  rw [← scannerNew_encode] at htoken htoken'
  rw [lex_restAfter_blanks hfeed, counted_blanks hfeed] at htoken'
  -- the count starts in column 1 after the line feed, and in column 0 without it
  have hcolumn := Position.after_column_eq_iff { line := 1, column := 1 }
    { line := 0, column := 0 } (counted k cs)
  rw [FeedShifts, htoken, ← List.singleton_append, htoken', ← mem_counted_iff]
  constructor
  · intro h
    obtain ⟨token, heq, heq'⟩ := h
    obtain rfl := Run.returns.inj heq
    have hsame := congrArg Token.characterNumber (Run.returns.inj heq')
    exact (hcolumn.mp hsame).resolve_left (by decide)
  · intro hmem
    refine ⟨_, rfl, ?_⟩
    have hsame := hcolumn.mpr (.inr hmem)
    have hline := Position.after_line { line := 1, column := 1 } (counted k cs)
    have hline' := Position.after_line { line := 0, column := 0 } (counted k cs)
    rw [Run.returns.injEq, Token.mk.injEq]
    refine ⟨rfl, ?_, hsame, rfl⟩
    show (Position.after { line := 1, column := 1 } (counted k cs)).line =
      (Position.after { line := 0, column := 0 } (counted k cs)).line + 1
    rw [hline, hline']
    show 1 + _ = 0 + _ + 1
    omega

/-- The bracket of a file `[` is in column 1, and in column 2 after a line feed. -/
theorem feedShifts_bracket : ¬ FeedShifts .fullMemory 0 ['['] := by
  intro h
  obtain ⟨token, htoken, htoken'⟩ := h
  have hfirst : (Scanner.new (Utf8File.ofContent .fullMemory (Utf8.encode ['[']))).nthToken 0 =
      .returns (Token.mk (Utf8.encode ['[']) 0 1 .tkOpenBracket) := by decide
  have hsecond : (Scanner.new (Utf8File.ofContent .fullMemory
      (Utf8.encode ['\n', '[']))).nthToken 0 =
        .returns (Token.mk (Utf8.encode ['[']) 1 2 .tkOpenBracket) := by decide
  rw [hfirst] at htoken
  obtain rfl := Run.returns.inj htoken
  rw [hsecond] at htoken'
  exact nomatch htoken'

end CcJson
