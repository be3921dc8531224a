import CcJson.Native.Tokenizer

/-!
# The lookahead buffer is transparent

`peek` keeps the token that it has produced in a buffer, from which `consume` takes it.
A client of the tokenizer cannot tell it from one without a buffer, that produces the
next token anew in every call and moves on in `consume` only: in any order of calls, no
token is lost, repeated or produced out of turn.

## Key results

- `call_of_holds`: one call on a tokenizer, by what its source without the buffer does
- `answers_eq`: any sequence of calls
-/

namespace CcJson

variable {σ : Type} [TokenSource σ]

/-- The calls of a client of a tokenizer. -/
inductive TokenizerCall where
  | peek
  | consume
  deriving DecidableEq, Repr

namespace Tokenizer

def call (t : Tokenizer σ) : TokenizerCall → Run Exception (Token × Tokenizer σ)
  | .peek => t.peek
  | .consume => t.consume

/-- The tokens that the calls return, and the tokenizer after them. -/
def answers (t : Tokenizer σ) : List TokenizerCall → Run Exception (List Token × Tokenizer σ)
  | [] => return ([], t)
  | call :: calls => do
    let (token, t) ← t.call call
    let (tokens, t) ← t.answers calls
    return (token :: tokens, t)

end Tokenizer

/-- The answers to the calls when every one of them produces the next token of the source anew,
    and only `consume` goes on behind it. -/
def unbuffered (s : σ) : List TokenizerCall → Run Exception (List Token × σ)
  | [] => return ([], s)
  | call :: calls => do
    let (token, s') ← TokenSource.nextToken s
    let (tokens, last) ← unbuffered (if call = .peek then s else s') calls
    return (token :: tokens, last)

/-- The tokenizer stands where the source `s` does: with an empty buffer, or with the next token
    in it. -/
inductive Tokenizer.Holds (t : Tokenizer σ) (s : σ) : Prop where
  | empty (hcurrent : t.hasCurrent = false) (hsource : t.source = s)
  | full (hcurrent : t.hasCurrent = true)
      (hnext : TokenSource.nextToken s = .returns (t.current, t.source))

variable {t : Tokenizer σ} {s : σ}

/-- A call returns the next token of the source, whether it is in the buffer or not. -/
theorem Tokenizer.call_of_holds (h : t.Holds s) (call : TokenizerCall) :
    t.call call = (do
      let (current, source) ← TokenSource.nextToken s
      return (current, { source, current, hasCurrent := decide (call = .peek) })) := by
  cases h with
  | empty hcurrent hsource =>
    subst hsource
    cases call with
    | peek => simp [Tokenizer.call, peek, hcurrent]
    | consume => simp [Tokenizer.call, consume, hcurrent]
  | full hcurrent hnext =>
    obtain ⟨source, current, hasCurrent⟩ := t
    obtain rfl : hasCurrent = true := hcurrent
    rw [hnext]
    cases call with
    | peek => rfl
    | consume => rfl

/-- Where a tokenizer stands after a call. -/
theorem Tokenizer.holds_next {current : Token} {source : σ} (call : TokenizerCall)
    (hnext : TokenSource.nextToken s = .returns (current, source)) :
    Tokenizer.Holds { source, current, hasCurrent := decide (call = .peek) }
      (if call = .peek then s else source) := by
  cases call with
  | peek => exact .full rfl hnext
  | consume => exact .empty rfl rfl

private theorem answers_of_holds (h : t.Holds s) (calls : List TokenizerCall) :
    (do
      let (tokens, _) ← t.answers calls
      return tokens) =
    (do
      let (tokens, _) ← unbuffered s calls
      return tokens) ∧
    ∀ tokens t', t.answers calls = .returns (tokens, t') →
      ∃ s', unbuffered s calls = .returns (tokens, s') ∧ t'.Holds s' := by
  induction calls generalizing t s with
  | nil =>
    refine ⟨rfl, ?_⟩
    intro tokens t' hanswers
    obtain ⟨rfl, rfl⟩ := Prod.mk.inj (Run.returns.inj hanswers)
    exact ⟨s, rfl, h⟩
  | cons call calls ih =>
    rw [Tokenizer.answers, unbuffered, Tokenizer.call_of_holds h]
    cases hnext : TokenSource.nextToken s with
    | returns out =>
      obtain ⟨token, source⟩ := out
      obtain ⟨hsame, hstands⟩ := ih (Tokenizer.holds_next call hnext)
      simp only [Run.returns_bind, Run.pure_eq]
      constructor
      · -- the first tokens are the same, and so are the others
        have hcons := congrArg (fun r => r >>= fun tokens => Run.returns (token :: tokens)) hsame
        simpa only [Run.bind_assoc, Run.pure_eq, Run.returns_bind] using hcons
      · intro tokens t' hanswers
        obtain ⟨⟨tokens', t''⟩, hrest, hout⟩ := Run.bind_eq_returns hanswers
        obtain ⟨rfl, rfl⟩ := Prod.mk.inj (Run.returns.inj hout)
        obtain ⟨s', hs', hholds⟩ := hstands _ _ hrest
        rw [hs']
        exact ⟨s', rfl, hholds⟩
    | throws e => exact ⟨rfl, fun _ _ hanswers => nomatch hanswers⟩
    | outOfFuel => exact ⟨rfl, fun _ _ hanswers => nomatch hanswers⟩

/-- Any sequence of calls on a new tokenizer returns the tokens that it would return without the
    buffer, with the same exceptions, and leaves the tokenizer in front of the same token. -/
theorem answers_eq (s : σ) (calls : List TokenizerCall) :
    (do
      let (tokens, _) ← (Tokenizer.new s).answers calls
      return tokens) =
    (do
      let (tokens, _) ← unbuffered s calls
      return tokens) ∧
    ∀ tokens t, (Tokenizer.new s).answers calls = .returns (tokens, t) →
      ∃ s', unbuffered s calls = .returns (tokens, s') ∧ t.Holds s' :=
  answers_of_holds (.empty rfl rfl) calls

end CcJson
