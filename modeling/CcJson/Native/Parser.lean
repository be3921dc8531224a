import CcJson.Native.Tokenizer

/-!
# The parser

`parser/parser.cpp`: a validator with an explicit stack of states. The back of
`stack_` is the head of the list here.
-/

namespace CcJson

/-- `ParserState`. -/
inductive ParserState where
  | expectValue
  | expectObjectKey
  | expectObjectColon
  | expectObjectValue
  | expectObjectComma
  | expectArrayValue
  | expectArrayComma
  deriving DecidableEq, Repr

/-- `Parser`. -/
structure Parser (σ : Type) where
  tok : Tokenizer σ
  isValid : Bool
  stack : List ParserState

namespace Parser

variable {σ : Type} [TokenSource σ]

/-- The constructor. -/
def new (tok : Tokenizer σ) : Parser σ := { tok, isValid := true, stack := [] }

def ok (p : Parser σ) : Bool := p.isValid

/-- `stack_.push_back(state)` -/
def push (p : Parser σ) (state : ParserState) : Parser σ := { p with stack := state :: p.stack }

/-- `is_valid_ = false` -/
def invalidate (p : Parser σ) : Parser σ := { p with isValid := false }

/-- `tok_.consume()`, the token being discarded. -/
def consume (p : Parser σ) : Run Exception (Parser σ) := do
  let (_, tok) ← p.tok.consume
  return { p with tok }

def peekType (p : Parser σ) : Run Exception (TokenType × Parser σ) := do
  let (token, tok) ← p.tok.peek
  let p := { p with tok }
  return (token.type, if token.type == .tkError then p.invalidate else p)

def handleValue (p : Parser σ) (type : TokenType) : Run Exception (Parser σ) :=
  match type with
  | .tkString | .tkNumber | .tkTrue | .tkFalse | .tkNull => p.consume
  | .tkOpenBrace => do
    let p ← p.consume
    return p.push .expectObjectKey
  | .tkOpenBracket => do
    let p ← p.consume
    return p.push .expectArrayValue
  | _ => return p.invalidate

def handleObjectKey (p : Parser σ) (type : TokenType) : Run Exception (Parser σ) := do
  if type == .tkCloseBrace then p.consume
  else if type == .tkString then
    let p ← p.consume
    return p.push .expectObjectColon
  else return p.invalidate

def handleObjectColon (p : Parser σ) (type : TokenType) : Run Exception (Parser σ) := do
  if type == .tkColon then
    let p ← p.consume
    return p.push .expectObjectValue
  else return p.invalidate

def handleObjectComma (p : Parser σ) (type : TokenType) : Run Exception (Parser σ) := do
  if type == .tkCloseBrace then p.consume
  else if type == .tkComma then
    let p ← p.consume
    let (next, p) ← p.peekType
    if next == .tkString then return p.push .expectObjectKey
    else return p.invalidate  -- No trailing comma
  else return p.invalidate

def handleArrayValue (p : Parser σ) (type : TokenType) : Run Exception (Parser σ) := do
  if type == .tkCloseBracket then p.consume
  -- `EXPECT_ARRAY_COMMA` is pushed before the value, so that it is below what the value pushes
  else (p.push .expectArrayComma).handleValue type

def handleArrayComma (p : Parser σ) (type : TokenType) : Run Exception (Parser σ) := do
  if type == .tkCloseBracket then p.consume
  else if type == .tkComma then
    let p ← p.consume
    let (next, p) ← p.peekType
    if next == .tkCloseBracket || next == .endOfInput then
      return p.invalidate  -- No trailing comma
    else return p.push .expectArrayValue
  else return p.invalidate

/-- The `switch` of the loop of `parse`. -/
def handle (p : Parser σ) (currentState : ParserState) (type : TokenType) :
    Run Exception (Parser σ) :=
  match currentState with
  | .expectValue => p.handleValue type
  | .expectObjectKey => p.handleObjectKey type
  | .expectObjectColon => p.handleObjectColon type
  | .expectObjectValue => (p.push .expectObjectComma).handleValue type
  | .expectObjectComma => p.handleObjectComma type
  | .expectArrayValue => p.handleArrayValue type
  | .expectArrayComma => p.handleArrayComma type

/-- One iteration of the loop of `parse`, from a stack with `currentState` at its back. -/
def iterate (p : Parser σ) (currentState : ParserState) (stack : List ParserState) :
    Run Exception (Parser σ) := do
  let (type, p) ← { p with stack }.peekType
  if type == .tkError then return p.invalidate
  p.handle currentState type

/-- The body of the loop of `parse`, with the loop condition. -/
def parseBody (p : Parser σ) : Run Exception (ForInStep (Parser σ)) :=
  match p.stack, p.isValid with
  | currentState :: stack, true => do
    let p ← p.iterate currentState stack
    return .yield p
  | _, _ => return .done p

/-- `Parser::parse`, with a loop of at most `fuel` iterations. -/
def parse (fuel : Nat) (p : Parser σ) : Run Exception (Parser σ) := do
  -- after the value only the end of the input may follow
  let p ← Run.loop parseBody fuel (p.push .expectValue)
  if p.isValid then
    let (type, p) ← p.peekType
    return if type != .endOfInput then p.invalidate else p
  return p

end Parser

end CcJson
