import CcJson.Spec.JsonText
import CcJson.Spec.ParserRun
import CcJson.Spec.Sources

/-!
# The tokens that a run of the parser reads

The parser over a file does what it does over a source that is given the types of the
tokens of the file. So when a run over a file ends, it is known which tokens it has read:
those of a value and the end of the input, or tokens of which the last one is the first
that no value goes on with.

## Key results

- `sourceSim_fedBy`: a file is simulated by a source that is given its token types
- `exists_record`: the calls of `next_token` that have been made when `parse` returns
-/

namespace CcJson

open Munch

/-! ## Readings of a file -/

/-- The tokens that calls of `next_token` return on the way from one scanner to another. -/
inductive Scanner.Reads (start : Scanner) : List Token → Scanner → Prop where
  | nil : Reads start [] start
  | snoc {tokens : List Token} {s s' : Scanner} {token : Token} (h : Reads start tokens s)
      (hnext : s.nextToken = .returns (token, s')) : Reads start (tokens ++ [token]) s'

theorem Scanner.Reads.reachable {start s : Scanner} {tokens : List Token}
    (h : start.Reads tokens s) : Scanner.Reachable start s := by
  induction h with
  | nil => exact .start
  | snoc _ hnext ih => exact .next ih hnext

/-- The types of tokens. -/
abbrev types (tokens : List Token) : List TokenType := tokens.map Token.type

/-- The last token of a reading has been returned by a call of its own. -/
theorem Scanner.Reads.exists_of_snoc {start s' : Scanner} {tokens : List Token} {token : Token}
    (h : start.Reads (tokens ++ [token]) s') :
    ∃ s, start.Reads tokens s ∧ s.nextToken = .returns (token, s') := by
  generalize htokens : tokens ++ [token] = all at h
  cases h with
  | nil => simp at htokens
  | snoc h hnext =>
    obtain ⟨rfl, rfl⟩ := List.append_inj' htokens rfl |>.imp_right List.singleton_inj.mp
    exact ⟨_, h, hnext⟩

/-- A reading from a place in a file leads to a place. -/
theorem Scanner.Reads.exists_place {p : Place} {right : List Char} {s : Scanner}
    {tokens : List Token} (h : (p.scanner right).Reads tokens s) :
    ∃ (q : Place) (right' : List Char), s = q.scanner right' := by
  generalize hstart : p.scanner right = start at h
  induction h with
  | nil => exact ⟨p, right, hstart.symm⟩
  | snoc _ hnext ih =>
    obtain ⟨q, right', rfl⟩ := ih
    obtain ⟨-, q', -, -, rfl⟩ := nextToken_eq_returns hnext
    exact ⟨q', _, rfl⟩

/-- The tokens of calls are a reading. -/
theorem Called.reads {start s : Scanner} {calls : List (Scanner × Token)}
    (h : Called start calls s) : start.Reads (calls.map Prod.snd) s := by
  induction h with
  | nil => exact .nil
  | snoc _ hnext ih =>
    rw [List.map_append]
    exact ih.snoc hnext

/-! ## A file and the types of its tokens -/

/-- The types of the tokens that calls have returned. -/
abbrev Recorder.types (r : Recorder Scanner) : List TokenType :=
  CcJson.types (r.calls.map Prod.snd)

/-- The record `r` of a file has been made by calls that returned tokens of the types that `f`
    has been asked for, and goes on with the types that `f` is going to deliver. -/
structure FedBy (start : Scanner) (r : Recorder Scanner) (f : Feed) : Prop where
  place : ∃ (p : Place) (right : List Char), r.source = p.scanner right
  called : Called start r.calls r.source
  requested : r.types = f.requested
  delivers : ∃ ending, Delivers r.source f.upcoming ending

/-- A call of `next_token` returns what the source is going to deliver, or throws. -/
theorem sourceSim_fedBy (start : Scanner) :
    SourceSim (fun _ => True) (fun a b => a.type = b.type) (FedBy start) := by
  intro r f h
  obtain ⟨s, calls⟩ := r
  obtain ⟨⟨p, right, hplace⟩, hcalled, htypes, ⟨ending, hdelivers⟩⟩ := h
  obtain ⟨upcoming, requested⟩ := f
  show Run.Sim _ _ (s.nextToken >>= _) _
  dsimp only at hplace hcalled htypes hdelivers
  -- the record goes on with the token, whichever it is
  have hrecord : ∀ token s', s.nextToken = .returns (token, s') →
      (∃ (q : Place) (right' : List Char), s' = q.scanner right') ∧
      Called start (calls ++ [(s, token)]) s' ∧
      Recorder.types ⟨s', calls ++ [(s, token)]⟩ = requested ++ [token.type] := by
    intro token s' hnext
    refine ⟨?_, hcalled.snoc hnext, ?_⟩
    · subst hplace
      obtain ⟨-, q, -, -, rfl⟩ := nextToken_eq_returns hnext
      exact ⟨q, _, rfl⟩
    · rw [← htypes]
      simp [Recorder.types]
  cases hdelivers with
  | @eof _ last token hnext htype =>
    rw [show s.nextToken = _ from hnext]
    obtain ⟨hplace', hcalled', hrequested⟩ := hrecord token last hnext
    rw [htype] at hrequested
    refine .returns ⟨htype, hplace', hcalled', hrequested, ?_⟩
    -- after the end of the input there is nothing but the end of the input
    subst hplace
    obtain ⟨token', last', hagain, htype', -⟩ := nextToken_sticky hnext htype .start
    exact ⟨_, .eof hagain htype'⟩
  | throws hnext =>
    rw [show s.nextToken = _ from hnext]
    exact .tolerated trivial _
  | @cons _ s' token ts _ hnext htype hdelivers =>
    rw [show s.nextToken = _ from hnext]
    obtain ⟨hplace', hcalled', hrequested⟩ := hrecord token s' hnext
    exact .returns ⟨rfl, hplace', hcalled', hrequested, ending, hdelivers⟩

/-- When `parse` returns, the calls that it has made have returned a value and the end of the
    input, or tokens that begin a value and the first one that the value does not go on with. -/
theorem exists_record {place : Place} {right : List Char} {fuel : Nat}
    {p : Parser (Recorder Scanner)}
    (h : (Parser.new (Tokenizer.new (Recorder.new (place.scanner right)))).parse fuel =
      .returns p) :
    ∃ tokens token, p.tok.source.calls.map Prod.snd = tokens ++ [token] ∧
      Called (place.scanner right) p.tok.source.calls p.tok.source.source ∧
      p.tok.hasCurrent = true ∧ p.tok.current.type = token.type ∧
      (p.ok = true → IsValue (types tokens) ∧ token.type = .endOfInput) ∧
      (p.ok = false → Offends (types tokens) token.type) := by
  obtain ⟨ts, ending, hdelivers, -, -⟩ := place.exists_delivers right
  have hfed : FedBy (place.scanner right) (Recorder.new (place.scanner right)) (Feed.mk ts []) :=
    ⟨⟨place, right, rfl⟩, .nil, rfl, ending, hdelivers⟩
  have hsim := Parser.parse_sim (sourceSim_fedBy _) (fun _ _ => id) rfl hfed (Nat.le_refl fuel)
  obtain ⟨q, hq, hrelated⟩ := hsim.exists_returns h
  obtain ⟨seen, rest, -, hstands, hbuffered, haccepted, hrejected⟩ := stands_of_parse hq
  obtain ⟨htype, hrequested⟩ := hstands.requested_eq hbuffered
  -- the last token that has been asked for is the one in the buffer
  have htypes := hrelated.tok.source.requested
  rw [hrequested] at htypes
  obtain ⟨tokens, last, hcalls, rfl, hlast⟩ := List.map_eq_append_iff.mp htypes
  obtain ⟨token, rfl, htoken⟩ := List.map_eq_singleton_iff.mp hlast
  have hok : p.ok = q.ok := hrelated.isValid
  rw [hok]
  rw [← htoken] at htype haccepted hrejected
  exact ⟨tokens, token, hcalls, hrelated.tok.source.called,
    hrelated.tok.hasCurrent.trans hbuffered, hrelated.tok.current.trans htype, haccepted,
    hrejected⟩

/-- What `parse` has read when it returns. -/
theorem exists_trace {place : Place} {right : List Char} {fuel : Nat} {p : Parser Scanner}
    (h : (Parser.new (Tokenizer.new (place.scanner right))).parse fuel = .returns p) :
    ∃ tokens token, (place.scanner right).Reads (tokens ++ [token]) p.tok.source ∧
      p.tok.hasCurrent = true ∧ p.tok.current.type = token.type ∧
      (p.ok = true → IsValue (types tokens) ∧ token.type = .endOfInput) ∧
      (p.ok = false → Offends (types tokens) token.type) := by
  rw [← Parser.parse_recorder] at h
  obtain ⟨r, hr, hp⟩ := Run.bind_eq_returns h
  obtain rfl := Run.returns.inj hp
  obtain ⟨tokens, token, hcalls, hcalled, hrest⟩ := exists_record hr
  exact ⟨tokens, token, hcalls ▸ hcalled.reads, hrest⟩

/-- Tokens that begin a value are neither rejected ones nor the end of the input. -/
theorem IsValue.not_mem_left {ts us : List TokenType} (h : IsValue (ts ++ us)) {k : TokenType}
    (hk : k = .tkError ∨ k = .endOfInput) : k ∉ ts :=
  fun hmem => h.not_mem hk (List.mem_append_left us hmem)

/-- All tokens that have been read but the last one begin a value, whatever the verdict. -/
theorem viable_of_trace {ok : Bool} {tokens : List Token} {token : Token}
    (haccepted : ok = true → IsValue (types tokens) ∧ token.type = .endOfInput)
    (hrejected : ok = false → Offends (types tokens) token.type) :
    ∃ us, IsValue (types tokens ++ us) := by
  cases ok with
  | true => exact ⟨[], by simpa using (haccepted rfl).1⟩
  | false => exact (hrejected rfl).viable

/-! ## Further calls of `parse` -/

section Again

variable {σ : Type} [TokenSource σ] {p : Parser σ}

/-- A parser that has come to a verdict: it has given up, or the end of the input is in the
    buffer of its tokenizer. -/
def Parser.Spent (p : Parser σ) : Prop :=
  p.ok = false ∨ p.tok.hasCurrent = true ∧ p.tok.current.type = .endOfInput

private theorem loop_of_invalid (h : p.isValid = false) (fuel : Nat) :
    Run.loop Parser.parseBody (fuel + 1) p = .returns p := by
  apply Run.loop_done
  unfold Parser.parseBody
  rw [h]
  cases p.stack <;> rfl

/-- A further call gives up in front of what is in the buffer. -/
theorem Parser.Spent.parse (h : p.Spent) (fuel : Nat) :
    ∃ p', p.parse (fuel + 2) = .returns p' ∧ p'.ok = false ∧ p'.tok = p.tok := by
  unfold Parser.parse
  by_cases hvalid : p.isValid = true
  · have hlook : p.tok.hasCurrent = true ∧ p.tok.current.type = .endOfInput :=
      h.resolve_left (by simp [Parser.ok, hvalid])
    have hbody : (p.push .expectValue).parseBody = .returns (.yield p.invalidate) := by
      simp [Parser.parseBody, Parser.push, hvalid, Parser.iterate, Parser.peekType,
        Tokenizer.peek, hlook.1, hlook.2, Parser.handle, Parser.handleValue, Parser.invalidate]
    rw [Run.loop_yield _ hbody, loop_of_invalid rfl]
    exact ⟨_, rfl, rfl, rfl⟩
  · rw [Bool.not_eq_true] at hvalid
    rw [loop_of_invalid (p := p.push .expectValue) hvalid, Run.returns_bind,
      show (p.push .expectValue).isValid = false from hvalid]
    exact ⟨_, rfl, hvalid, rfl⟩

/-- Any number of calls of `parse`. -/
def Parser.parses (fuel : Nat) : Nat → Parser σ → Run Exception (Parser σ)
  | 0, p => return p
  | n + 1, p => do
    let p ← p.parse fuel
    p.parses fuel n

end Again

end CcJson
