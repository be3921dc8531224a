import CcJson.Spec.Positions
import CcJson.Spec.Sources

/-!
# Restarting behind a token

Between two calls of `next_token` the tokenizer remembers nothing of what it has read but
its position: from any state that it reaches, over any content, it goes on as a new
tokenizer over the unread bytes does, with its positions moved to where it stands.

## Key results

- `Position.shift_after`: counting on from a position is counting from 0 and moving
- `restart`: the tokens, the exceptions and the verdict of the parser after a restart
-/

namespace CcJson

open Munch

/-! ## Moving positions -/

/-- A position counted from 0, moved behind `base`: only the first line is moved to the right. -/
def Position.shift (base p : Position) : Position :=
  { line := base.line + p.line
    column := if p.line = 0 then base.column + p.column else p.column }

/-- A token with its position moved. -/
def Token.shift (base : Position) (t : Token) : Token :=
  let p := base.shift { line := t.lineNumber, column := t.characterNumber }
  { t with lineNumber := p.line, characterNumber := p.column }

theorem Position.shift_advance (base p : Position) (c : Char) :
    (base.shift p).advance c = base.shift (p.advance c) := by
  unfold Position.advance Position.shift
  by_cases hc : c = '\n'
  · simp [hc, Nat.add_assoc]
  · simp only [hc, if_false]
    split <;> simp [Nat.add_assoc]

/-- Counting goes on from a moved position as it does from the position itself. -/
theorem Position.shift_after (base p : Position) (cs : List Char) :
    (base.shift p).after cs = base.shift (p.after cs) := by
  induction cs generalizing p with
  | nil => rfl
  | cons c cs ih => rw [Position.after_cons, Position.shift_advance, ih, ← Position.after_cons]

theorem Position.shift_zero (base : Position) :
    base.shift { line := 0, column := 0 } = base := rfl

/-! ## Scanners over the same rest -/

/-- Both scanners have the same unread bytes, and the position of `s` is that of `t` moved. -/
inductive Resumes (base : Position) : Scanner → Scanner → Prop where
  | intro (p q : Place) (right : List Char) (htail : p.tail = q.tail)
      (hposition : p.position = base.shift q.position) :
      Resumes base (p.scanner right) (q.scanner right)

/-- Where the moved scanner is unread, so is the other one. -/
theorem Resumes.unread {base : Position} {s t : Scanner} (h : Resumes base s t) :
    s.unread = t.unread := by
  obtain ⟨p, q, right, htail, -⟩ := h
  rw [Place.unread_scanner, Place.unread_scanner, htail]

/-- One call: the same exception, or the same token moved and scanners over the same rest. -/
theorem Resumes.nextToken {base : Position} {s t : Scanner} (h : Resumes base s t) :
    (∃ e, s.nextToken = .throws e ∧ t.nextToken = .throws e) ∨
      ∃ token s' t', s.nextToken = .returns (token.shift base, s') ∧
        t.nextToken = .returns (token, t') ∧ Resumes base s' t' := by
  obtain ⟨p, q, right, htail, hposition⟩ := h
  by_cases hends : q.tail.exception = none ∨ ¬ Ended (lex right)
  · right
    obtain ⟨p', hfollows, hp', hreturns⟩ := nextToken_counts (p := p) right (htail ▸ hends)
    obtain ⟨q', hfollows', hq', hreturns'⟩ := nextToken_counts (p := q) right hends
    have hposition' : p'.position = base.shift q'.position := by
      rw [hp', hq', hposition, Position.shift_after]
    refine ⟨_, _, _, ?_, hreturns', .intro p' q' _ ?_ hposition'⟩
    · rw [hreturns]
      simp only [Place.token, Token.shift, hposition']
    · rw [hfollows.tail, hfollows'.tail, htail]
  · -- the malformed sequence after the rest is the same one
    left
    obtain ⟨hq, hended⟩ := not_or.mp hends
    obtain ⟨e, he⟩ := Option.ne_none_iff_exists'.mp hq
    exact ⟨e, nextToken_throws_iff.mpr ⟨htail ▸ he, not_not.mp hended⟩,
      nextToken_throws_iff.mpr ⟨he, not_not.mp hended⟩⟩

/-- A reachable scanner resumes a new one over its unread bytes. -/
theorem Scanner.Reachable.resumes {loadType : FileLoadType} {content : Bytes} {s : Scanner}
    (h : Scanner.Reachable (Scanner.new (Utf8File.ofContent loadType content)) s)
    (loadType' : FileLoadType) :
    Resumes s.position s (Scanner.new (Utf8File.ofContent loadType' s.unread)) := by
  obtain ⟨cs, tail, rfl⟩ := exists_tail content
  obtain ⟨p, right, rfl, -, -⟩ := h.exists_place
  rw [Place.unread_scanner, scannerNew_eq]
  exact .intro p _ right rfl (Position.shift_zero p.position).symm

/-- The tokens by number. -/
theorem Resumes.nthToken {base : Position} {s t : Scanner} (h : Resumes base s t) (k : Nat) :
    s.nthToken k = (do
      let token ← t.nthToken k
      return token.shift base) := by
  induction k generalizing s t with
  | zero =>
    unfold Scanner.nthToken
    rcases h.nextToken with ⟨e, hs, ht⟩ | ⟨token, s', t', hs, ht, -⟩
    · rw [hs, ht]
      rfl
    · rw [hs, ht]
      rfl
  | succ k ih =>
    unfold Scanner.nthToken
    rcases h.nextToken with ⟨e, hs, ht⟩ | ⟨token, s', t', hs, ht, h'⟩
    · rw [hs, ht]
      rfl
    · rw [hs, ht, Run.returns_bind, Run.returns_bind]
      exact ih h'

/-! ## The parser after a restart -/

theorem sourceSim_resumes (base : Position) :
    SourceSim (fun _ => False) (fun a b => a.type = b.type) (Resumes base) := by
  intro s t h
  show Run.Sim _ _ s.nextToken t.nextToken
  rcases h.nextToken with ⟨e, hs, ht⟩ | ⟨token, s', t', hs, ht, h'⟩
  · rw [hs, ht]
    exact .throws e
  · rw [hs, ht]
    exact .returns ⟨rfl, h'⟩

/-- A call comes to its end, so the new scanner simulates the one that it resumes, too. -/
theorem sourceSim_resumed (base : Position) :
    SourceSim (fun _ => False) (fun a b => b.type = a.type) (fun t s => Resumes base s t) := by
  intro t s h
  apply (sourceSim_resumes base s t h).symm
  show s.nextToken ≠ .outOfFuel
  rcases h.nextToken with ⟨e, hs, -⟩ | ⟨token, s', t', hs, -, -⟩
  · rw [hs]
    exact nofun
  · rw [hs]
    exact nofun

/-- What does not depend on where the text of a parser is in the file. -/
structure Parser.Outcome where
  isValid : Bool
  stack : List ParserState
  currentType : TokenType
  hasCurrent : Bool
  unread : Bytes

def Parser.outcome (p : Parser Scanner) : Parser.Outcome :=
  { isValid := p.isValid
    stack := p.stack
    currentType := p.tok.current.type
    hasCurrent := p.tok.hasCurrent
    unread := p.tok.source.unread }

theorem Parser.Related.outcome_eq {base : Position} {p q : Parser Scanner}
    (h : p.Related (fun a b => a.type = b.type) (Resumes base) q) : p.outcome = q.outcome := by
  rw [Parser.outcome, Parser.outcome, h.isValid, h.stack, h.tok.current, h.tok.hasCurrent,
    h.tok.source.unread]

/-- From any state that calls of `next_token` reach over any content, with nothing in the lookahead
    buffer, the further tokens are those of a new tokenizer over the unread bytes, with their
    positions moved, and a parser that is given the tokenizer in this state ends as a parser over
    the unread bytes does. -/
theorem restart {loadType : FileLoadType} {content : Bytes} {s : Scanner}
    (hs : Scanner.Reachable (Scanner.new (Utf8File.ofContent loadType content)) s)
    (loadType' : FileLoadType) :
    let fresh := Utf8File.ofContent loadType' s.unread
    (∀ k, s.nthToken k = (do
      let token ← (Scanner.new fresh).nthToken k
      return token.shift s.position)) ∧
    ∀ fuel, (do
      let p ← (Parser.new (Tokenizer.new s)).parse fuel
      return p.outcome) = (do
      let p ← (Parser.ofFile fresh).parse fuel
      return p.outcome) := by
  have hresumes := hs.resumes loadType'
  refine ⟨hresumes.nthToken, ?_⟩
  -- each of the two tokenizers simulates the other one
  exact Parser.parse_map_eq (sourceSim_resumes s.position) (sourceSim_resumed s.position)
    (fun _ _ => id) rfl (fun _ _ => Parser.Related.outcome_eq) hresumes

/-- After the first token of `1 [` the tokenizer is in column 2 of line 0. -/
theorem restart_after_number :
    let s := Scanner.mk (.inMemory { buffer := Utf8.encode ['1', ' ', '['], pos := 1 }) 0 2 []
    let fresh := Utf8File.ofContent .fullMemory s.unread
    (∀ k, s.nthToken k = (do
      let token ← (Scanner.new fresh).nthToken k
      return token.shift s.position)) ∧
    ∀ fuel, (do
      let p ← (Parser.new (Tokenizer.new s)).parse fuel
      return p.outcome) = (do
      let p ← (Parser.ofFile fresh).parse fuel
      return p.outcome) :=
  have hnext : (Scanner.new (Utf8File.ofContent .fullMemory
      (Utf8.encode ['1', ' ', '[']))).nextToken = .returns
        (Token.mk (Utf8.encode ['1']) 0 2 .tkNumber, Scanner.mk
          (.inMemory { buffer := Utf8.encode ['1', ' ', '['], pos := 1 }) 0 2 []) := by decide
  restart (.next .start hnext) .fullMemory

end CcJson
