import CcJson.Spec.ParserStep

/-!
# Runs of the parser

What holds whenever the loop of `parse` tests its condition, over a source that records
which tokens have been asked for: the tokens consumed so far have been read from the
form that the stack expects, and the stack has one entry for each container that they
leave open. When the parser has given up, it holds the token that no value goes on with.

## Key results

- `atHead_of_heads`: the invariant at every head of the loop
- `rejects_first_offending`: the parser rejects at the first offending token
- `stack_openContainers`: the stack is the list of the open containers
-/

namespace CcJson

open ContextFreeGrammar

/-! ## A source that records what is asked of it -/

/-- A source that delivers given token types and then `END_OF_INPUT` forever, with the types
    of the tokens that have been requested. -/
structure Feed where
  upcoming : List TokenType
  requested : List TokenType

instance : TokenSource Feed where
  nextToken s := .returns ({ Tokenizer.noToken with type := s.upcoming.headD .endOfInput },
    { upcoming := s.upcoming.tail
      requested := s.requested ++ [s.upcoming.headD .endOfInput] })

/-- The types of the tokens that have been consumed: the one in the buffer has only been
    requested. -/
def Tokenizer.consumed (t : Tokenizer Feed) : List TokenType :=
  if t.hasCurrent then t.source.requested.dropLast else t.source.requested

/-- The token types up to the first `END_OF_INPUT`. -/
def upToEnd (ts : List TokenType) : List TokenType := ts.takeWhile (· != .endOfInput)

theorem upToEnd_cons {k : TokenType} (hk : k ≠ .endOfInput) (ts : List TokenType) :
    upToEnd (k :: ts) = k :: upToEnd ts :=
  List.takeWhile_cons_of_pos (bne_iff_ne.mpr hk)

theorem upToEnd_endOfInput (ts : List TokenType) : upToEnd (.endOfInput :: ts) = [] :=
  List.takeWhile_cons_of_neg (by decide)

/-- The next token is the first of those up to the end of the input. -/
theorem headD_of_upToEnd_cons {ts rest : List TokenType} {k : TokenType}
    (h : upToEnd ts = k :: rest) : ts.headD .endOfInput = k := by
  cases ts with
  | nil => exact nomatch h
  | cons k' ts =>
    by_cases hk : k' = .endOfInput
    · rw [hk, upToEnd_endOfInput] at h
      exact nomatch h
    · rw [upToEnd_cons hk] at h
      exact (List.cons.inj h).1

/-- With nothing up to the end of the input, the next token ends it. -/
theorem headD_of_upToEnd_nil {ts : List TokenType} (h : upToEnd ts = []) :
    ts.headD .endOfInput = .endOfInput := by
  cases ts with
  | nil => rfl
  | cons k ts =>
    by_cases hk : k = .endOfInput
    · exact hk
    · rw [upToEnd_cons hk] at h
      exact nomatch h

theorem delivers_feed (ts requested : List TokenType) :
    ∃ last, Delivers (Feed.mk ts requested) (upToEnd ts) (.eof last) := by
  induction ts generalizing requested with
  | nil => exact ⟨_, .eof rfl rfl⟩
  | cons k ts ih =>
    by_cases hk : k = .endOfInput
    · subst hk
      rw [upToEnd_endOfInput]
      exact ⟨_, .eof rfl rfl⟩
    · obtain ⟨last, hdelivers⟩ := ih (requested ++ [k])
      rw [upToEnd_cons hk]
      have hnext : TokenSource.nextToken (Feed.mk (k :: ts) requested) =
          .returns ({ Tokenizer.noToken with type := k }, Feed.mk ts (requested ++ [k])) := rfl
      exact ⟨last, .cons hnext hk hdelivers⟩

namespace Tokenizer

/-- The tokens of `seen` have been consumed and those of `rest` are to come, of which the
    first may be in the buffer. -/
inductive Stands (t : Tokenizer Feed) (seen rest : List TokenType) : Prop where
  | fresh (hcurrent : t.hasCurrent = false)
      (hsource : t.source = Feed.mk rest seen)
  | buffered (hcurrent : t.hasCurrent = true) (htype : t.current.type = rest.headD .endOfInput)
      (hsource : t.source = Feed.mk rest.tail (seen ++ [rest.headD .endOfInput]))

variable {t t' : Tokenizer Feed} {token : Token} {seen rest : List TokenType}

theorem Stands.consumed_eq (h : t.Stands seen rest) : t.consumed = seen := by
  unfold consumed
  cases h with
  | fresh hcurrent hsource => rw [if_neg (by simp [hcurrent]), hsource]
  | buffered hcurrent _ hsource => rw [if_pos hcurrent, hsource, List.dropLast_concat]

/-- With a token in the buffer, that token is the last one requested. -/
theorem Stands.requested_eq (h : t.Stands seen rest) (hcurrent : t.hasCurrent = true) :
    t.current.type = rest.headD .endOfInput ∧
      t.source.requested = seen ++ [rest.headD .endOfInput] := by
  cases h with
  | fresh hfresh => exact absurd (hcurrent.symm.trans hfresh) (by decide)
  | buffered _ htype hsource => exact ⟨htype, by rw [hsource]⟩

/-- Peeking requests the next token at most. -/
theorem Stands.peek (h : t.Stands seen rest) (hpeek : t.peek = .returns (token, t')) :
    token.type = rest.headD .endOfInput ∧ t'.Stands seen rest := by
  cases h with
  | fresh hcurrent hsource =>
    simp only [Tokenizer.peek, hcurrent, hsource, Bool.not_false, if_true] at hpeek
    obtain ⟨rfl, rfl⟩ := Prod.mk.inj (Run.returns.inj hpeek)
    exact ⟨rfl, .buffered rfl rfl rfl⟩
  | buffered hcurrent htype hsource =>
    simp only [Tokenizer.peek, hcurrent, Bool.not_true, Bool.false_eq_true, if_false] at hpeek
    obtain ⟨rfl, rfl⟩ := Prod.mk.inj (Run.returns.inj hpeek)
    exact ⟨htype, .buffered hcurrent htype hsource⟩

/-- Consuming takes the next token. -/
theorem Stands.consume (h : t.Stands seen rest) (hconsume : t.consume = .returns (token, t')) :
    token.type = rest.headD .endOfInput ∧ t'.Stands (seen ++ [token.type]) rest.tail := by
  cases h with
  | fresh hcurrent hsource =>
    simp only [Tokenizer.consume, hcurrent, hsource, Bool.not_false, if_true] at hconsume
    obtain ⟨rfl, rfl⟩ := Prod.mk.inj (Run.returns.inj hconsume)
    exact ⟨rfl, .fresh rfl rfl⟩
  | buffered hcurrent htype hsource =>
    simp only [Tokenizer.consume, hcurrent, Bool.not_true, Bool.false_eq_true, if_false]
      at hconsume
    obtain ⟨rfl, rfl⟩ := Prod.mk.inj (Run.returns.inj hconsume)
    exact ⟨htype, .fresh rfl (by rw [htype]; exact hsource)⟩

/-- An iteration that consumes a token takes the next one. -/
theorem Stands.consumes (h : t.Stands seen rest) (hconsumes : t.Consumes token t')
    (htype : token.type ≠ .endOfInput) :
    ∃ rest', rest = token.type :: rest' ∧ t'.Stands (seen ++ [token.type]) rest' := by
  obtain ⟨hpeek, hconsume, hnext⟩ := hconsumes
  obtain ⟨hhead, hstands⟩ := (h.peek hpeek).2.consume hconsume
  cases rest with
  | nil => exact absurd hhead htype
  | cons k rest =>
    obtain rfl : token.type = k := hhead
    refine ⟨rest, rfl, ?_⟩
    rcases hnext with rfl | ⟨next, hnext⟩
    · exact hstands
    · exact (hstands.peek hnext).2

/-- What is to come is delivered up to the end of the input. -/
theorem Stands.pending (h : t.Stands seen rest) :
    ∃ last, t.Pending (upToEnd rest) (.eof last) := by
  cases h with
  | fresh hcurrent hsource =>
    obtain ⟨last, hdelivers⟩ := delivers_feed rest seen
    rw [← hsource] at hdelivers
    exact ⟨last, .fresh hcurrent hdelivers⟩
  | buffered hcurrent htype hsource =>
    cases rest with
    | nil => exact ⟨_, .atEnd hcurrent htype⟩
    | cons k rest =>
      have htype : t.current.type = k := htype
      have hsource : t.source = Feed.mk rest (seen ++ [k]) := hsource
      by_cases hk : k = .endOfInput
      · rw [hk, upToEnd_endOfInput]
        exact ⟨_, .atEnd hcurrent (htype.trans hk)⟩
      · obtain ⟨last, hdelivers⟩ := delivers_feed rest (seen ++ [k])
        rw [← hsource] at hdelivers
        rw [upToEnd_cons hk, ← htype]
        exact ⟨last, .buffered hcurrent (by rw [htype]; exact hk) hdelivers⟩

end Tokenizer

/-! ## The open containers -/

/-- The two kinds of containers. -/
inductive Container where
  | object
  | array
  deriving DecidableEq, Repr

/-- The kind of the container that an entry of the stack belongs to. -/
def ParserState.container? : ParserState → Option Container
  | .expectValue => none
  | .expectObjectKey | .expectObjectColon | .expectObjectValue | .expectObjectComma => some .object
  | .expectArrayValue | .expectArrayComma => some .array

/-- The open containers after one more token: a closing bracket closes the innermost one, if
    that is of its kind. -/
def containersAfter (opened : List Container) (k : TokenType) : List Container :=
  match k, opened with
  | .tkOpenBrace, opened => .object :: opened
  | .tkOpenBracket, opened => .array :: opened
  | .tkCloseBrace, .object :: opened => opened
  | .tkCloseBracket, .array :: opened => opened
  | _, opened => opened

/-- The containers that a sequence of tokens leaves open, the innermost first. -/
def openContainers (ts : List TokenType) : List Container := ts.foldl containersAfter []

theorem openContainers_concat (ts : List TokenType) (k : TokenType) :
    openContainers (ts ++ [k]) = containersAfter (openContainers ts) k := by
  rw [openContainers, List.foldl_append, ← openContainers]
  rfl

/-- The state waits for what follows a member or an element. -/
def ParserState.AwaitsComma (s : ParserState) : Prop :=
  s = .expectObjectComma ∨ s = .expectArrayComma

/-- The stack has an entry for each open container, the innermost at its back, and all but
    the back of the stack wait for a comma. -/
structure Nests (stack : List ParserState) (opened : List Container) : Prop where
  containers : stack.map ParserState.container? = opened.map some
  below : ∀ s ∈ stack.tail, s.AwaitsComma

/-- The states pushed for a token stand for the containers that it leaves open. Below the new
    back of the stack only states that wait for a comma are pushed. -/
structure Pushes (new : List ParserState) (k : TokenType) (opened below : List Container) :
    Prop where
  containers : new.map ParserState.container? ++ below.map some =
    (containersAfter opened k).map some
  below : ∀ s ∈ new.tail, s.AwaitsComma

/-- The first token of a value opens a container or none. -/
theorem pushes_valueStates {k : TokenType} {new : List ParserState}
    (h : valueStates k = some new) (opened : List Container) : Pushes new k opened opened := by
  cases k with
  | tkString | tkNumber | tkTrue | tkFalse | tkNull | tkOpenBrace | tkOpenBracket =>
    obtain rfl := Option.some.inj h
    exact ⟨rfl, by simp⟩
  | _ => exact nomatch h

/-- A value in a container leaves a state of the container below its own. -/
theorem pushes_inner {k : TokenType} {new : List ParserState} {s : ParserState} {c : Container}
    (hs : s.AwaitsComma) (hc : s.container? = some c)
    (h : (valueStates k).map (· ++ [s]) = some new) (opened : List Container) :
    Pushes new k (c :: opened) opened := by
  obtain ⟨v, hv, rfl⟩ := Option.map_eq_some_iff.mp h
  obtain ⟨hcontainers, hbelow⟩ := pushes_valueStates hv (c :: opened)
  constructor
  · rw [← hcontainers, List.map_append, List.append_assoc, List.map_singleton, hc]
    rfl
  · intro s' hs'
    cases v with
    | nil => exact nomatch hs'
    | cons x v =>
      rcases List.mem_append.mp hs' with hmem | hmem
      · exact hbelow s' hmem
      · rw [List.mem_singleton.mp hmem]
        exact hs

/-- A state of a container takes the token for its container. -/
theorem pushes_next {s : ParserState} {k : TokenType} {new : List ParserState} {c : Container}
    (hc : s.container? = some c) (h : s.next k = some new) (opened : List Container) :
    Pushes new k (c :: opened) opened := by
  cases s with
  | expectValue => exact nomatch hc
  | expectObjectValue =>
    obtain rfl := Option.some.inj hc
    exact pushes_inner (.inl rfl) rfl h opened
  | expectArrayValue =>
    obtain rfl := Option.some.inj hc
    by_cases hk : k = .tkCloseBracket
    · subst hk
      obtain rfl := Option.some.inj h
      exact ⟨rfl, by simp⟩
    · refine pushes_inner (s := .expectArrayComma) (.inr rfl) rfl ?_ opened
      rw [← h]
      cases k with
      | tkCloseBracket => exact absurd rfl hk
      | _ => rfl
  | expectObjectKey =>
    obtain rfl := Option.some.inj hc
    cases k with
    | tkCloseBrace | tkString =>
      obtain rfl := Option.some.inj h
      exact ⟨rfl, by simp⟩
    | _ => exact nomatch h
  | expectObjectColon =>
    obtain rfl := Option.some.inj hc
    cases k with
    | tkColon =>
      obtain rfl := Option.some.inj h
      exact ⟨rfl, by simp⟩
    | _ => exact nomatch h
  | expectObjectComma =>
    obtain rfl := Option.some.inj hc
    cases k with
    | tkCloseBrace | tkComma =>
      obtain rfl := Option.some.inj h
      exact ⟨rfl, by simp⟩
    | _ => exact nomatch h
  | expectArrayComma =>
    obtain rfl := Option.some.inj hc
    cases k with
    | tkCloseBracket | tkComma =>
      obtain rfl := Option.some.inj h
      exact ⟨rfl, by simp⟩
    | _ => exact nomatch h

/-- Replacing the back of the stack for a token keeps the nesting. -/
theorem Nests.next {s : ParserState} {stack new : List ParserState} {opened : List Container}
    {k : TokenType} (h : Nests (s :: stack) opened) (hnext : s.next k = some new) :
    Nests (new ++ stack) (containersAfter opened k) := by
  obtain ⟨hcontainers, hbelow⟩ := h
  cases opened with
  | nil => simp at hcontainers
  | cons c opened =>
    obtain ⟨hc, hstack⟩ := List.cons.inj hcontainers
    obtain ⟨hnew, hnewBelow⟩ := pushes_next hc hnext opened
    constructor
    · rw [List.map_append, hstack, hnew]
    · intro s' hs'
      cases new with
      | nil => exact hbelow s' (List.mem_of_mem_tail hs')
      | cons x new =>
        rcases List.mem_append.mp hs' with hmem | hmem
        · exact hnewBelow s' hmem
        · exact hbelow s' hmem

/-! ## The invariant of the loop -/

/-- The tokens of `seen` begin a value that does not go on with `k`; the end of the input as
    `k` means that they are no value. -/
structure Offends (seen : List TokenType) (k : TokenType) : Prop where
  viable : ∃ us, IsValue (seen ++ us)
  incomplete : k = .endOfInput → ¬ IsValue seen
  refused : k ≠ .endOfInput → ¬ ∃ us, IsValue (seen ++ k :: us)

/-- What holds whenever the loop of `parse` tests its condition, when the tokens of `seen` have
    been consumed and those of `rest` are to come. -/
structure AtHead (seen rest : List TokenType) (p : Parser Feed) : Prop where
  stands : p.tok.Stands seen rest
  expects : p.isValid = true → ∃ form, StackExpects (upToEnd rest).head? p.stack form ∧
    ∀ us, IsValue (seen ++ us) ↔ Yields form us
  nests : p.isValid = true → (seen = [] ∧ p.stack = [.expectValue]) ∨
    Nests p.stack (openContainers seen)
  rejects : p.isValid = false →
    p.tok.hasCurrent = true ∧ Offends seen (rest.headD .endOfInput)

/-- Before the loop nothing has been consumed, and the stack expects a value. -/
theorem atHead_start (ts : List TokenType) :
    AtHead [] ts ((Parser.new (Tokenizer.new (Feed.mk ts []))).push .expectValue) where
  stands := .fresh rfl rfl
  expects := fun _ => ⟨_, stackExpects_stackForm _ [.expectValue], fun _ => isValue_iff⟩
  nests := fun _ => .inl ⟨rfl, rfl⟩
  rejects := fun h => nomatch h

/-- The token at which an iteration fails is the next one, or the input ends there. -/
theorem offends_of_fails {seen read rest : List TokenType} {form : List Sym} {last : Feed}
    {p : Parser Feed} (hform : ∀ us, IsValue (seen ++ us) ↔ Yields form us)
    (hread : ∀ k ∈ read, k ≠ .endOfInput) (hstands : p.tok.Stands (seen ++ read) rest)
    (h : Fails form (upToEnd (read ++ rest)) (.eof last) (.returns p)) :
    Offends (seen ++ read) (rest.headD .endOfInput) := by
  have hsplit : upToEnd (read ++ rest) = read ++ upToEnd rest :=
    List.takeWhile_append_of_pos fun k hk => bne_iff_ne.mpr (hread k hk)
  obtain ⟨last', hpending'⟩ := hstands.pending
  rw [hsplit] at h
  cases h with
  | @refused _ done rest' k hts hinvalid hpending hviable hrefused =>
    have hrest := hpending'.unique hpending
    -- what has been read of the form is what has been consumed
    obtain rfl : read = done := by
      rw [hrest] at hts
      exact List.append_cancel_right hts
    have hk := hpending.ne_endOfInput
    rw [headD_of_upToEnd_cons hrest]
    constructor
    · obtain ⟨us, hus⟩ := hviable
      exact ⟨us, by rw [List.append_assoc]; exact (hform _).mpr hus⟩
    · exact fun heq => absurd heq hk
    · intro _ h
      obtain ⟨us, hus⟩ := h
      rw [List.append_assoc] at hus
      exact hrefused us ((hform _).mp hus)
  | exhausted hending hinvalid hpending hviable hincomplete =>
    have hrest := hpending'.unique hpending
    rw [hrest, List.append_nil] at hviable hincomplete
    rw [headD_of_upToEnd_nil hrest]
    constructor
    · obtain ⟨us, hus⟩ := hviable
      exact ⟨us, by rw [List.append_assoc]; exact (hform _).mpr hus⟩
    · intro _ hvalue
      exact hincomplete ((hform read).mp hvalue)
    · exact fun hne => absurd rfl hne

theorem Fails.invalid {form : List Sym} {ts : List TokenType} {ending : Ending Feed}
    {p : Parser Feed} (h : Fails form ts ending (.returns p)) : p.isValid = false := by
  cases h with
  | refused _ _ hinvalid => exact hinvalid
  | exhausted _ hinvalid => exact hinvalid

/-- An iteration after which the parser has given up is one that fails. -/
theorem Iterates.fails_of_invalid {form : List Sym} {ts : List TokenType} {ending : Ending Feed}
    {p : Parser Feed} (h : Iterates form ts ending (.returns p)) (hinvalid : p.isValid = false) :
    Fails form ts ending (.returns p) := by
  cases h with
  | consumed _ hvalid => exact absurd (hvalid.symm.trans hinvalid) (by decide)
  | failed h => exact h

/-- An iteration of the loop is one from the back of the stack. -/
theorem parseBody_eq_yield {p p' : Parser Feed} (h : p.parseBody = .returns (.yield p')) :
    ∃ s stack, p.stack = s :: stack ∧ p.isValid = true ∧ p.iterate s stack = .returns p' := by
  unfold Parser.parseBody at h
  split at h
  · rename_i s stack hstack hvalid
    obtain ⟨q, hq, hout⟩ := Run.bind_eq_returns h
    obtain rfl := ForInStep.yield.inj (Run.returns.inj hout)
    exact ⟨s, stack, hstack, hvalid, hq⟩
  · exact nomatch Run.returns.inj h

/-- The loop ends with an empty stack, or when the parser has given up. -/
theorem parseBody_eq_done {p p' : Parser Feed} (h : p.parseBody = .returns (.done p')) :
    p' = p ∧ (p.isValid = true → p.stack = []) := by
  unfold Parser.parseBody at h
  split at h
  · obtain ⟨q, hq, hout⟩ := Run.bind_eq_returns h
    exact nomatch Run.returns.inj hout
  · rename_i hno
    obtain rfl := ForInStep.done.inj (Run.returns.inj h)
    refine ⟨rfl, fun hvalid => ?_⟩
    cases hstack : p.stack with
    | nil => rfl
    | cons s stack => exact (hno s stack hstack hvalid).elim

section Step

variable {seen rest : List TokenType} {p p' : Parser Feed} {s : ParserState}
  {stack : List ParserState} {form : List Sym} {last : Feed} {token : Token}

/-- An iteration that rejects the next token has only looked at it. -/
private theorem AtHead.step_refused (h : AtHead seen rest p)
    (hform : ∀ us, IsValue (seen ++ us) ↔ Yields form us)
    (hpeek : p.tok.peek = .returns (token, p'.tok)) (hinvalid : p'.isValid = false)
    (hfails : Fails form (upToEnd rest) (.eof last) (.returns p')) : AtHead seen rest p' := by
  have hstands := (h.stands.peek hpeek).2
  have hoffends : Offends (seen ++ []) (rest.headD .endOfInput) :=
    offends_of_fails hform (by simp) (by rwa [List.append_nil]) hfails
  rw [List.append_nil] at hoffends
  have hbuffered := (Tokenizer.hasCurrent_of_peek hpeek).1
  constructor
  · exact hstands
  · intro hvalid
    exact absurd (hvalid.symm.trans hinvalid) (by decide)
  · intro hvalid
    exact absurd (hvalid.symm.trans hinvalid) (by decide)
  · exact fun _ => ⟨hbuffered, hoffends⟩

/-- The form that the stack expects after an iteration that has read a token. -/
private theorem expects_of_iterates (hform : ∀ us, IsValue (seen ++ us) ↔ Yields form us)
    (htype : token.type ≠ .endOfInput) (hvalid : p'.isValid = true)
    (hspec : Iterates form (upToEnd (token.type :: rest)) (.eof last) (.returns p')) :
    ∃ form', StackExpects (upToEnd rest).head? p'.stack form' ∧
      ∀ us, IsValue (seen ++ [token.type] ++ us) ↔ Yields form' us := by
  rw [upToEnd_cons htype] at hspec
  cases hspec with
  | @consumed _ form' _ _ hts _ hstack _ hform' =>
    obtain ⟨rfl, rfl⟩ := List.cons.inj hts
    refine ⟨form', hstack, fun us => ?_⟩
    rw [List.append_assoc]
    exact (hform _).trans (hform' us)
  | failed hfails => exact absurd (hvalid.symm.trans hfails.invalid) (by decide)

/-- The nesting after an iteration that has read a token. -/
private theorem AtHead.nests_next (h : AtHead seen rest p) (hvalid : p.isValid = true)
    (hstack : p.stack = s :: stack) {new : List ParserState} {k : TokenType}
    (hnext : s.next k = some new) : Nests (new ++ stack) (openContainers (seen ++ [k])) := by
  rw [openContainers_concat]
  rcases h.nests hvalid with ⟨rfl, hone⟩ | hnests
  · -- the first token, for the state that `parse` starts with
    obtain ⟨rfl, rfl⟩ := List.cons.inj (hstack.symm.trans hone)
    obtain ⟨hcontainers, hbelow⟩ := pushes_valueStates hnext []
    rw [List.append_nil]
    exact ⟨by rw [← List.append_nil (new.map _)]; exact hcontainers, hbelow⟩
  · rw [hstack] at hnests
    exact hnests.next hnext

/-- An iteration keeps the invariant. -/
theorem AtHead.step (h : AtHead seen rest p) (hbody : p.parseBody = .returns (.yield p')) :
    ∃ seen' rest', seen' ++ rest' = seen ++ rest ∧ AtHead seen' rest' p' := by
  obtain ⟨s, stack, hstack, hvalid, hiterate⟩ := parseBody_eq_yield hbody
  obtain ⟨form, hexpects, hform⟩ := h.expects hvalid
  obtain ⟨last, hpending⟩ := h.stands.pending
  rw [hstack] at hexpects
  cases hexpects with
  | @cons _ form _ hexpects =>
    have hspec := Parser.iterate_spec stack hvalid hpending hexpects
    rw [hiterate] at hspec
    cases Parser.iterate_steps hiterate with
    | refused hinvalid hpeek =>
      exact ⟨seen, rest, rfl,
        h.step_refused hform hpeek hinvalid (hspec.fails_of_invalid hinvalid)⟩
    | @read token htype hconsumes hlooked hnext =>
      obtain ⟨rest', rfl, hstands⟩ := h.stands.consumes hconsumes htype
      refine ⟨seen ++ [token.type], rest', by simp, hstands, ?_, ?_, ?_⟩
      · intro hvalid'
        exact expects_of_iterates hform htype hvalid' hspec
      · intro hvalid'
        obtain ⟨new, hnew, hp'⟩ := hnext hvalid'
        rw [hp']
        exact .inr (h.nests_next hvalid hstack hnew)
      · intro hinvalid
        have hfails := hspec.fails_of_invalid hinvalid
        have hbuffered : p'.tok.hasCurrent = true := by
          apply hlooked.resolve_left
          rw [hinvalid, hvalid]
          exact Bool.false_ne_true
        exact ⟨hbuffered, offends_of_fails hform (by simpa using htype) hstands hfails⟩

end Step

/-- The invariant holds at every head of the loop. -/
theorem atHead_of_heads {ts : List TokenType} {p : Parser Feed}
    (h : Run.Heads Parser.parseBody
      ((Parser.new (Tokenizer.new (Feed.mk ts []))).push .expectValue) p) :
    ∃ seen rest, seen ++ rest = ts ∧ AtHead seen rest p := by
  induction h with
  | start => exact ⟨[], ts, rfl, atHead_start ts⟩
  | next _ hbody ih =>
    obtain ⟨seen, rest, hts, hhead⟩ := ih
    obtain ⟨seen', rest', hsame, hhead'⟩ := hhead.step hbody
    exact ⟨seen', rest', hsame.trans hts, hhead'⟩

/-! ## The rejected token -/

/-- How `parse` ends: with a value and the end of the input after it, at a head at which it has
    given up, or with a token after the value. -/
theorem stands_of_parse {ts : List TokenType} {fuel : Nat} {p : Parser Feed}
    (h : (Parser.new (Tokenizer.new (Feed.mk ts []))).parse fuel = .returns p) :
    ∃ seen rest, seen ++ rest = ts ∧ p.tok.Stands seen rest ∧ p.tok.hasCurrent = true ∧
      (p.ok = true → IsValue seen ∧ rest.headD .endOfInput = .endOfInput) ∧
      (p.ok = false → Offends seen (rest.headD .endOfInput)) := by
  unfold Parser.parse at h
  obtain ⟨q, hloop, hfinish⟩ := Run.bind_eq_returns h
  obtain ⟨q', hheads, hdone⟩ := Run.exists_head_of_loop hloop
  obtain ⟨rfl, hempty⟩ := parseBody_eq_done hdone
  obtain ⟨seen, rest, hts, hhead⟩ := atHead_of_heads hheads
  refine ⟨seen, rest, hts, ?_⟩
  by_cases hvalid : q.isValid = true
  · rw [if_pos hvalid] at hfinish
    obtain ⟨⟨k, q'⟩, hpeekType, hout⟩ := Run.bind_eq_returns hfinish
    obtain ⟨token, tok, hpeek, rfl, rfl⟩ := Parser.peekType_eq_returns hpeekType
    obtain ⟨hhead', hstands⟩ := hhead.stands.peek hpeek
    have hbuffered := (Tokenizer.hasCurrent_of_peek hpeek).1
    obtain rfl := Run.returns.inj hout
    -- the stack is empty, so the consumed tokens are a value and only that
    obtain ⟨form, hexpects, hform⟩ := hhead.expects hvalid
    rw [hempty hvalid] at hexpects
    cases hexpects
    have hcomplete : ∀ us, IsValue (seen ++ us) ↔ us = [] := fun us =>
      (hform us).trans yields_form_nil
    have hvalue : IsValue seen := by simpa using (hcomplete []).mpr rfl
    by_cases htype : token.type = .endOfInput
    · rw [if_neg (by simp [htype]), ← hhead']
      refine ⟨hstands, hbuffered, fun _ => ⟨hvalue, htype⟩, fun hreject => ?_⟩
      simp [htype, Parser.ok, hvalid] at hreject
    · rw [if_pos (bne_iff_ne.mpr htype), ← hhead']
      refine ⟨hstands, hbuffered, nofun, fun _ => ⟨⟨[], (hcomplete []).mpr rfl⟩,
        fun heq => absurd heq htype, ?_⟩⟩
      intro _ h
      obtain ⟨us, hus⟩ := h
      exact List.cons_ne_nil _ us ((hcomplete _).mp hus)
  · rw [if_neg hvalid] at hfinish
    obtain rfl := Run.returns.inj hfinish
    obtain ⟨hbuffered, hoffends⟩ := hhead.rejects (by simpa using hvalid)
    exact ⟨hhead.stands, hbuffered, fun hok => absurd hok hvalid, fun _ => hoffends⟩

private theorem offends_of_parse {ts : List TokenType} {fuel : Nat} {p : Parser Feed}
    (h : (Parser.new (Tokenizer.new (Feed.mk ts []))).parse fuel = .returns p)
    (hreject : p.ok = false) :
    ∃ seen rest, seen ++ rest = ts ∧ p.tok.Stands seen rest ∧ p.tok.hasCurrent = true ∧
      Offends seen (rest.headD .endOfInput) := by
  obtain ⟨seen, rest, hts, hstands, hbuffered, -, hoffends⟩ := stands_of_parse h
  exact ⟨seen, rest, hts, hstands, hbuffered, hoffends hreject⟩

/-- The parser rejects at the first offending token: whatever token types it is given, with
    `END_OF_INPUT` after them, the tokens that it has consumed when it rejects begin a value
    that does not go on with the token in the buffer, the last one requested. -/
theorem rejects_first_offending (ts : List TokenType) :
    ∃ p, (∀ fuel, ts.length + 2 ≤ fuel →
        (Parser.new (Tokenizer.new (Feed.mk ts []))).parse fuel = .returns p) ∧
      (p.ok = false →
        p.tok.hasCurrent = true ∧
        p.tok.source.requested = p.tok.consumed ++ [p.tok.current.type] ∧
        p.tok.consumed ++ [p.tok.current.type] <+: ts ++ [.endOfInput] ∧
        Offends p.tok.consumed p.tok.current.type) := by
  obtain ⟨last, hdelivers⟩ := delivers_feed ts []
  obtain ⟨r, hverdict, hparse⟩ := Parser.parse_spec hdelivers
  obtain ⟨p, rfl, -⟩ := hverdict.ok_iff
  have hlen : (upToEnd ts).length ≤ ts.length := (List.takeWhile_prefix _).length_le
  refine ⟨p, fun fuel hfuel => hparse fuel (by omega), fun hreject => ?_⟩
  obtain ⟨seen, rest, rfl, hstands, hbuffered, hoffends⟩ :=
    offends_of_parse (hparse _ le_rfl) hreject
  obtain ⟨htype, hrequested⟩ := hstands.requested_eq hbuffered
  rw [hstands.consumed_eq, htype]
  refine ⟨hbuffered, hrequested, ?_, hoffends⟩
  cases rest with
  | nil => exact ⟨[], by simp⟩
  | cons k rest => exact ⟨rest ++ [.endOfInput], by simp⟩

-- A second comma in an array is noticed one iteration after the first.
example : ∃ p, (Parser.new (Tokenizer.new (Feed.mk
      [.tkOpenBracket, .tkNumber, .tkComma, .tkComma] []))).parse 6 = .returns p ∧
    p.tok.consumed = [.tkOpenBracket, .tkNumber, .tkComma] ∧ p.tok.current.type = .tkComma :=
  ⟨_, rfl, rfl, rfl⟩

/-! ## The stack -/

/-- After the first token, at every head of the loop at which the parser has not given up, the
    stack is the list of the containers that the consumed tokens leave open. -/
theorem stack_openContainers {ts : List TokenType} {p : Parser Feed}
    (h : Run.Heads Parser.parseBody
      ((Parser.new (Tokenizer.new (Feed.mk ts []))).push .expectValue) p)
    (hvalid : p.isValid = true) (hconsumed : p.tok.consumed ≠ []) :
    p.stack.map ParserState.container? = (openContainers p.tok.consumed).map some ∧
    (∀ s ∈ p.stack.tail, s = .expectObjectComma ∨ s = .expectArrayComma) ∧
    ParserState.expectValue ∉ p.stack ∧
    (p.stack = [] ↔ IsValue p.tok.consumed) := by
  obtain ⟨seen, rest, -, hhead⟩ := atHead_of_heads h
  obtain rfl := hhead.stands.consumed_eq
  obtain ⟨hcontainers, hbelow⟩ := (hhead.nests hvalid).resolve_left fun hstart =>
    hconsumed hstart.1
  refine ⟨hcontainers, hbelow, ?_, ?_⟩
  · intro hmem
    have hnone := List.mem_map_of_mem (f := ParserState.container?) hmem
    rw [hcontainers] at hnone
    obtain ⟨c, -, hc⟩ := List.mem_map.mp hnone
    exact nomatch hc
  · obtain ⟨form, hexpects, hform⟩ := hhead.expects hvalid
    have hvalue := hform []
    rw [List.append_nil] at hvalue
    rw [hvalue]
    generalize p.stack = stack at hexpects
    cases hexpects with
    | nil => simp
    | cons stack hs => simp [not_yields_nil hs]

/-- An object that has been opened in an array. -/
theorem stack_openContainers_nested :
    let p : Parser Feed := {
      tok := {
        source := Feed.mk [] [.tkOpenBracket, .tkOpenBrace]
        current := { Tokenizer.noToken with type := .tkOpenBrace }
        hasCurrent := false }
      isValid := true
      stack := [.expectObjectKey, .expectArrayComma] }
    p.stack.map ParserState.container? = (openContainers p.tok.consumed).map some ∧
    (∀ s ∈ p.stack.tail, s = .expectObjectComma ∨ s = .expectArrayComma) ∧
    ParserState.expectValue ∉ p.stack ∧
    (p.stack = [] ↔ IsValue p.tok.consumed) :=
  have h : Run.Heads Parser.parseBody ((Parser.new (Tokenizer.new (Feed.mk
      [.tkOpenBracket, .tkOpenBrace] []))).push .expectValue) {
        tok := {
          source := Feed.mk [] [.tkOpenBracket, .tkOpenBrace]
          current := { Tokenizer.noToken with type := .tkOpenBrace }
          hasCurrent := false }
        isValid := true
        stack := [.expectObjectKey, .expectArrayComma] } := .next (.next .start rfl) rfl
  stack_openContainers h rfl (by decide)

end CcJson
