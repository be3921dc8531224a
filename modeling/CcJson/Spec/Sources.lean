import CcJson.ForStd.Simulation
import CcJson.Native.Main

/-!
# The parser over simulating sources

The parser looks at nothing but the types of the tokens that its source returns. When
one source simulates another one, call by call, so does the parser over it: with the
same stack, the same verdict and the buffers related.

## Key results

- `parse_sim`: `parse` over two sources of which one simulates the other
- `parse_map_eq`: `parse` over two sources that simulate each other
- `parse_recorder`: a record of the calls of `next_token` changes nothing
-/

namespace CcJson

variable {σ τ : Type} [TokenSource σ] [TokenSource τ]

/-- From sources related by `S`, calls of `next_token` return tokens related by `T` and sources
    that are related again. -/
def SourceSim (tolerated : Exception → Prop) (T : Token → Token → Prop) (S : σ → τ → Prop) :
    Prop :=
  ∀ s t, S s t → Run.Sim tolerated (fun a b => T a.1 b.1 ∧ S a.2 b.2)
    (TokenSource.nextToken s) (TokenSource.nextToken t)

section Relations

variable (T : Token → Token → Prop) (S : σ → τ → Prop)

/-- The tokenizers differ in their sources and in related buffers only. -/
structure Tokenizer.Related (t : Tokenizer σ) (t' : Tokenizer τ) : Prop where
  source : S t.source t'.source
  hasCurrent : t.hasCurrent = t'.hasCurrent
  current : T t.current t'.current

/-- The parsers differ in their tokenizers only. -/
structure Parser.Related (p : Parser σ) (p' : Parser τ) : Prop where
  tok : p.tok.Related T S p'.tok
  isValid : p.isValid = p'.isValid
  stack : p.stack = p'.stack

/-- The same token type has been looked at by related parsers. -/
def Parser.Peeked (a : TokenType × Parser σ) (b : TokenType × Parser τ) : Prop :=
  a.1 = b.1 ∧ a.2.Related T S b.2

end Relations

section Simulation

variable {tolerated : Exception → Prop} {T : Token → Token → Prop} {S : σ → τ → Prop}

/-! ## The lookahead buffer -/

namespace Tokenizer

variable {t : Tokenizer σ} {t' : Tokenizer τ}

/-- A call of `next_token` whose token goes into the buffer, or to the caller only. -/
private theorem sim_nextToken (hsim : SourceSim tolerated T S) (h : S t.source t'.source)
    (hasCurrent : Bool) :
    Run.Sim tolerated (fun a b => T a.1 b.1 ∧ a.2.Related T S b.2)
      (do
        let (current, source) ← TokenSource.nextToken t.source
        return (current, { source, current, hasCurrent : Tokenizer σ }))
      (do
        let (current, source) ← TokenSource.nextToken t'.source
        return (current, { source, current, hasCurrent : Tokenizer τ })) := by
  apply (hsim _ _ h).bind
  intro a b hab
  obtain ⟨htoken, hsource⟩ := hab
  exact .returns ⟨htoken, hsource, rfl, htoken⟩

theorem peek_sim (hsim : SourceSim tolerated T S) (h : t.Related T S t') :
    Run.Sim tolerated (fun a b => T a.1 b.1 ∧ a.2.Related T S b.2) t.peek t'.peek := by
  unfold peek
  rw [← h.hasCurrent]
  cases hcurrent : t.hasCurrent with
  | true => exact .returns ⟨h.current, h⟩
  | false => exact sim_nextToken hsim h.source true

theorem consume_sim (hsim : SourceSim tolerated T S) (h : t.Related T S t') :
    Run.Sim tolerated (fun a b => T a.1 b.1 ∧ a.2.Related T S b.2) t.consume t'.consume := by
  unfold consume
  rw [← h.hasCurrent]
  cases hcurrent : t.hasCurrent with
  | true => exact .returns ⟨h.current, h.source, rfl, h.current⟩
  | false => exact sim_nextToken hsim h.source false

end Tokenizer

/-! ## The handlers -/

namespace Parser

variable {p : Parser σ} {p' : Parser τ}

omit [TokenSource σ] [TokenSource τ] in
theorem Related.symm (h : p.Related T S p') :
    p'.Related (fun b a => T a b) (fun t s => S s t) p :=
  ⟨⟨h.tok.source, h.tok.hasCurrent.symm, h.tok.current⟩, h.isValid.symm, h.stack.symm⟩

omit [TokenSource σ] [TokenSource τ] in
theorem Related.push (h : p.Related T S p') (s : ParserState) :
    (p.push s).Related T S (p'.push s) := ⟨h.tok, h.isValid, congrArg (s :: ·) h.stack⟩

omit [TokenSource σ] [TokenSource τ] in
theorem Related.invalidate (h : p.Related T S p') : p.invalidate.Related T S p'.invalidate :=
  ⟨h.tok, rfl, h.stack⟩

section Handlers

variable (hsim : SourceSim tolerated T S)
include hsim

private theorem consume_sim (h : p.Related T S p') :
    Run.Sim tolerated (Parser.Related T S) p.consume p'.consume := by
  apply (Tokenizer.consume_sim hsim h.tok).bind
  intro a b hab
  exact .returns ⟨hab.2, h.isValid, h.stack⟩

/-- Consuming the token and pushing a state. -/
private theorem consume_push_sim (h : p.Related T S p') (s : ParserState) :
    Run.Sim tolerated (Parser.Related T S) (do let p ← p.consume; return p.push s)
      (do let p ← p'.consume; return p.push s) := by
  apply (consume_sim hsim h).bind
  intro q q' hq
  exact .returns (hq.push s)

private theorem handleValue_sim (h : p.Related T S p') (type : TokenType) :
    Run.Sim tolerated (Parser.Related T S) (p.handleValue type) (p'.handleValue type) := by
  cases type with
  | tkString | tkNumber | tkTrue | tkFalse | tkNull => exact consume_sim hsim h
  | tkOpenBrace | tkOpenBracket => exact consume_push_sim hsim h _
  | _ => exact .returns h.invalidate

variable (htype : ∀ a b, T a b → a.type = b.type)
include htype

theorem peekType_sim (h : p.Related T S p') :
    Run.Sim tolerated (Parser.Peeked T S) p.peekType p'.peekType := by
  apply (Tokenizer.peek_sim hsim h.tok).bind
  rintro ⟨token, tok⟩ ⟨token', tok'⟩ ⟨htoken, htok⟩
  have hrelated : { p with tok }.Related T S { p' with tok := tok' } := ⟨htok, h.isValid, h.stack⟩
  dsimp only at htoken ⊢
  rw [htype _ _ htoken]
  split
  · exact .returns ⟨rfl, hrelated.invalidate⟩
  · exact .returns ⟨rfl, hrelated⟩

/-- A comma: what is done after it depends on the type of the next token only. -/
private theorem comma_sim (h : p.Related T S p') (bad : TokenType → Bool) (s : ParserState) :
    Run.Sim tolerated (Parser.Related T S)
      (do
        let p ← p.consume
        let (next, p) ← p.peekType
        if bad next then return p.invalidate else return p.push s)
      (do
        let p ← p'.consume
        let (next, p) ← p.peekType
        if bad next then return p.invalidate else return p.push s) := by
  apply (consume_sim hsim h).bind
  intro q q' hq
  apply (peekType_sim hsim htype hq).bind
  rintro ⟨next, r⟩ ⟨next', r'⟩ ⟨rfl, hr⟩
  dsimp only
  split
  · exact .returns hr.invalidate
  · exact .returns (hr.push s)

private theorem handleObjectComma_sim (h : p.Related T S p') (type : TokenType) :
    Run.Sim tolerated (Parser.Related T S) (p.handleObjectComma type)
      (p'.handleObjectComma type) := by
  cases type with
  | tkCloseBrace => exact consume_sim hsim h
  | tkComma =>
    have hcomma := comma_sim hsim htype h (fun next => next != .tkString) .expectObjectKey
    simpa [handleObjectComma] using hcomma
  | _ => exact .returns h.invalidate

private theorem handleArrayComma_sim (h : p.Related T S p') (type : TokenType) :
    Run.Sim tolerated (Parser.Related T S) (p.handleArrayComma type)
      (p'.handleArrayComma type) := by
  cases type with
  | tkCloseBracket => exact consume_sim hsim h
  | tkComma =>
    exact comma_sim hsim htype h (fun next => next == .tkCloseBracket || next == .endOfInput)
      .expectArrayValue
  | _ => exact .returns h.invalidate

private theorem handle_sim (h : p.Related T S p') (s : ParserState) (type : TokenType) :
    Run.Sim tolerated (Parser.Related T S) (p.handle s type) (p'.handle s type) := by
  cases s with
  | expectValue => exact handleValue_sim hsim h type
  | expectObjectKey =>
    cases type with
    | tkCloseBrace => exact consume_sim hsim h
    | tkString => exact consume_push_sim hsim h _
    | _ => exact .returns h.invalidate
  | expectObjectColon =>
    cases type with
    | tkColon => exact consume_push_sim hsim h _
    | _ => exact .returns h.invalidate
  | expectObjectValue => exact handleValue_sim hsim (h.push _) type
  | expectObjectComma => exact handleObjectComma_sim hsim htype h type
  | expectArrayValue =>
    by_cases hclose : type = .tkCloseBracket
    · subst hclose
      exact consume_sim hsim h
    · simp only [handle, handleArrayValue, beq_iff_eq, hclose, if_false]
      exact handleValue_sim hsim (h.push _) type
  | expectArrayComma => exact handleArrayComma_sim hsim htype h type

/-! ## The loop -/

private theorem parseBody_sim (h : p.Related T S p') :
    Run.Sim tolerated (Run.StepRel (Parser.Related T S)) p.parseBody p'.parseBody := by
  unfold parseBody
  rw [← h.stack, ← h.isValid]
  split
  · rename_i s stack _ _
    have hpopped : { p with stack }.Related T S { p' with stack } := ⟨h.tok, h.isValid, rfl⟩
    have hiterate : Run.Sim tolerated (Parser.Related T S) (p.iterate s stack)
        (p'.iterate s stack) := by
      apply (peekType_sim hsim htype hpopped).bind
      rintro ⟨type, q⟩ ⟨type', q'⟩ ⟨rfl, hq⟩
      dsimp only
      split
      · exact .returns hq.invalidate
      · exact handle_sim hsim htype hq s type
    apply hiterate.bind
    intro q q' hq
    exact .returns (.yield hq)
  · exact .returns (.done h)

/-- When a source simulates another one, so does `parse` over it, which may have less fuel. -/
theorem parse_sim (hnone : T Tokenizer.noToken Tokenizer.noToken) {s : σ} {t : τ} (h : S s t)
    {fuel fuel' : Nat} (hfuel : fuel ≤ fuel') :
    Run.Sim tolerated (Parser.Related T S) ((Parser.new (Tokenizer.new s)).parse fuel)
      ((Parser.new (Tokenizer.new t)).parse fuel') := by
  have hnew : (Parser.new (Tokenizer.new s)).Related T S (Parser.new (Tokenizer.new t)) :=
    ⟨⟨h, rfl, hnone⟩, rfl, rfl⟩
  apply (Run.Sim.loop (fun _ _ => parseBody_sim hsim htype) hfuel (hnew.push .expectValue)).bind
  intro q q' hq
  rw [← hq.isValid]
  split
  · -- after the value one token is looked at
    apply (peekType_sim hsim htype hq).bind
    rintro ⟨type, r⟩ ⟨type', r'⟩ ⟨rfl, hr⟩
    dsimp only
    split
    · exact .returns hr.invalidate
    · exact .returns hr
  · exact .returns hq

end Handlers

end Parser

end Simulation

/-- The runs of the parser over sources that simulate each other have the same result, as far as
    it is the same for related parsers. -/
theorem Parser.parse_map_eq {o : Type} {T : Token → Token → Prop} {S : σ → τ → Prop}
    {f : Parser σ → o} {g : Parser τ → o} (hsim : SourceSim (fun _ => False) T S)
    (hsim' : SourceSim (fun _ => False) (fun b a => T a b) (fun t s => S s t))
    (htype : ∀ a b, T a b → a.type = b.type) (hnone : T Tokenizer.noToken Tokenizer.noToken)
    (hobserved : ∀ p q, p.Related T S q → f p = g q) {s : σ} {t : τ} (h : S s t) (fuel : Nat) :
    ((Parser.new (Tokenizer.new s)).parse fuel >>= fun p => return f p) =
      ((Parser.new (Tokenizer.new t)).parse fuel >>= fun q => return g q) := by
  apply Run.Sim.map_eq
  · exact (parse_sim hsim htype hnone h (Nat.le_refl fuel)).mono hobserved
  · have hforth := parse_sim hsim' (fun b a hab => (htype a b hab).symm) hnone h (Nat.le_refl fuel)
    exact hforth.mono fun q p hqp => (hobserved p q hqp.symm).symm

/-! ## A record of the calls -/

/-- A source of tokens with a record of the calls of `next_token` that have returned: the source
    that the call has been made on, and its token. -/
structure Recorder (σ : Type) where
  source : σ
  calls : List (σ × Token)

instance : TokenSource (Recorder σ) where
  nextToken r := do
    let (token, source) ← TokenSource.nextToken r.source
    return (token, { source, calls := r.calls ++ [(r.source, token)] })

def Recorder.new (source : σ) : Recorder σ := { source, calls := [] }

/-- The calls that lead from one source to another. -/
inductive Called (start : σ) : List (σ × Token) → σ → Prop where
  | nil : Called start [] start
  | snoc {calls : List (σ × Token)} {s s' : σ} {token : Token} (h : Called start calls s)
      (hnext : TokenSource.nextToken s = .returns (token, s')) :
      Called start (calls ++ [(s, token)]) s'

/-- The parser without the record. -/
def Parser.erase (p : Parser (Recorder σ)) : Parser σ where
  tok := { source := p.tok.source.source, current := p.tok.current, hasCurrent := p.tok.hasCurrent }
  isValid := p.isValid
  stack := p.stack

theorem sourceSim_recorder :
    SourceSim (fun _ => False) Eq (fun (r : Recorder σ) (s : σ) => r.source = s) := by
  intro r s h
  subst h
  exact Run.Sim.map_left _ fun _ => ⟨rfl, rfl⟩

theorem sourceSim_recorded :
    SourceSim (fun _ => False) (fun b a => a = b)
      (fun (s : σ) (r : Recorder σ) => r.source = s) := by
  intro s r h
  subst h
  exact Run.Sim.map_right _ fun _ => ⟨rfl, rfl⟩

omit [TokenSource σ] in
theorem Parser.erase_eq {p : Parser (Recorder σ)} {q : Parser σ}
    (h : p.Related Eq (fun r s => r.source = s) q) : p.erase = q := by
  obtain ⟨⟨hsource, hcurrent, htoken⟩, hvalid, hstack⟩ := h
  rw [Parser.erase, hsource, hcurrent, htoken, hvalid, hstack]

/-- The record is kept beside the run of the parser and does not take part in it. -/
theorem Parser.parse_recorder (s : σ) (fuel : Nat) :
    ((Parser.new (Tokenizer.new (Recorder.new s))).parse fuel >>= fun p => return p.erase) =
      (Parser.new (Tokenizer.new s)).parse fuel := by
  have heq := parse_map_eq (g := fun q => q) sourceSim_recorder sourceSim_recorded
    (fun _ _ => congrArg Token.type) rfl (fun _ _ => erase_eq)
    (show (Recorder.new s).source = s from rfl) fuel
  refine heq.trans ?_
  cases (Parser.new (Tokenizer.new s)).parse fuel <;> rfl

end CcJson
