import CcJson.Native.Utf8File

/-!
# The tokenizer

`tokenizer/tokenizer.cpp`: a state machine over the code points of the file that
produces one token per call of `next_token`. The handlers receive each code point
re-encoded as a UTF-8 string and, for literals, the raw bytes of the token so far.
-/

namespace CcJson

/-- `TokenType`. -/
inductive TokenType where
  | tkString
  | tkNumber
  | tkTrue
  | tkFalse
  | tkNull
  | tkOpenBrace
  | tkCloseBrace
  | tkOpenBracket
  | tkCloseBracket
  | tkColon
  | tkComma
  | endOfInput
  | tkError
  deriving DecidableEq, Repr

/-- `Token`. -/
structure Token where
  lexeme : Bytes
  lineNumber : Nat
  characterNumber : Nat
  type : TokenType
  deriving DecidableEq, Repr

/-- `detail::State`. -/
inductive State where
  | start
  -- Literals
  | inTrue
  | inFalse
  | inNull
  -- Stops
  | dead
  | completed
  -- Strings
  | inString
  | stringEscapeSequence
  | stringUnicodeEscapeSequence
  | hexOne
  | hexTwo
  | hexThree
  -- Numbers
  | numberSignStart
  | zeroStart
  | significantStart
  | decimalStart
  | decimalDigit
  | exponentStart
  | exponentSign
  | exponentDigit
  deriving DecidableEq, Repr

/-- `detail::Position`. -/
structure Position where
  line : Nat
  column : Nat
  deriving DecidableEq, Repr

/-! ## Character classes -/

/-- The single byte of a one-byte string satisfies `p`. -/
def isSingle (p : UInt8 → Bool) (utf8Codepoint : Bytes) : Bool :=
  utf8Codepoint.length == 1 && p (utf8Codepoint.headD 0)

def isHexDigit (utf8Codepoint : Bytes) : Bool :=
  isSingle (fun b => ('0'.toUInt8 ≤ b && b ≤ '9'.toUInt8) ||
    ('a'.toUInt8 ≤ b && b ≤ 'f'.toUInt8) || ('A'.toUInt8 ≤ b && b ≤ 'F'.toUInt8)) utf8Codepoint

/-- `JSON_MAX_UNESPACED_CONTROL` -/
def jsonMaxUnescapedControl : UInt32 := 0x001F

def isControlChar (codepoint : UInt32) : Bool := codepoint ≤ jsonMaxUnescapedControl

def jsonTab : UInt32 := 0x0009
def jsonLineFeed : UInt32 := 0x000A
def jsonCarriageReturn : UInt32 := 0x000D
def jsonSpace : UInt32 := 0x0020

def isInsignificantWhitespace (codepoint : UInt32) : Bool :=
  codepoint == jsonTab || codepoint == jsonLineFeed || codepoint == jsonCarriageReturn ||
    codepoint == jsonSpace

def isDone (state : State) : Bool := state == .dead || state == .completed

/-- `is_digit`: a minus sign counts, as it can start a number. -/
def isDigit (utf8Codepoint : Bytes) : Bool :=
  isSingle (fun b => b == '-'.toUInt8 || ('0'.toUInt8 ≤ b && b ≤ '9'.toUInt8)) utf8Codepoint

def isDecimalDigit (codepoint : Bytes) : Bool :=
  isSingle (fun b => '0'.toUInt8 ≤ b && b ≤ '9'.toUInt8) codepoint

/-! ## Error messages -/

/-- `format_error(prefix, line, col)` -/
def formatError (pfx : Bytes) (line col : Nat) : Bytes :=
  pfx ++ lit " at line " ++ lit (toString line) ++ lit " and character " ++ lit (toString col)

/-- `format_error(prefix, line, col, suffix)` -/
def formatErrorWith (pfx : Bytes) (line col : Nat) (suffix : Bytes) : Bytes :=
  formatError pfx line col ++ suffix

/-! ## The start state -/

def determineNumberStart (utf8Codepoint : Bytes) : State :=
  if utf8Codepoint == lit "-" then .numberSignStart
  else if utf8Codepoint == lit "0" then .zeroStart
  else .significantStart

/-- `START_TRANSITIONS` -/
def startTransitions : List (Bytes × State × TokenType) := [
  (lit "[", .completed, .tkOpenBracket),
  (lit "]", .completed, .tkCloseBracket),
  (lit "\x7b", .completed, .tkOpenBrace),
  (lit "\x7d", .completed, .tkCloseBrace),
  (lit ":", .completed, .tkColon),
  (lit ",", .completed, .tkComma),
  (lit "t", .inTrue, .endOfInput),
  (lit "f", .inFalse, .endOfInput),
  (lit "n", .inNull, .endOfInput),
  (lit "\"", .inString, .endOfInput)]

def handleStart (utf8Codepoint : Bytes) : State × TokenType :=
  match startTransitions.find? (fun entry => entry.1 == utf8Codepoint) with
  | some entry => entry.2
  | none =>
    if isDigit utf8Codepoint then (determineNumberStart utf8Codepoint, .endOfInput)
    else (.dead, .endOfInput)

/-! ## Literals -/

/-- `handle_deterministic`: 1 for the whole comparator, 0 for a proper prefix of it. -/
def handleDeterministic (lexeme comparator : Bytes) : Int :=
  if lexeme.length > comparator.length then -1
  else if comparator == lexeme then 1
  else if startsWith comparator lexeme then 0
  else -1

/-- `LiteralResult` and `StringTransitionResult`, which have the same fields. -/
structure TransitionResult where
  state : State
  tokenType : TokenType
  errorMessage : Bytes
  deriving DecidableEq, Repr

def handleLiteral (lexeme comparator : Bytes) (completedType : TokenType)
    (utf8Codepoint : Bytes) (lineNum charNum : Nat) :
    Except Exception (Option TransitionResult) := do
  let ret := handleDeterministic lexeme comparator
  if ret == 1 then
    return some { state := .completed, tokenType := completedType, errorMessage := [] }
  -- the character expected is the one at the place of the last byte read
  if ret == -1 then
    let expected ← at_ comparator (sizeSub (min lexeme.length comparator.length) 1)
    return some {
      state := .dead
      tokenType := .endOfInput
      errorMessage := formatErrorWith (lit "Unexpected character: " ++ utf8Codepoint)
        lineNum charNum
        (lit " expected character: " ++ [expected] ++ lit " but got " ++ utf8Codepoint) }
  return none

def handleLiteralState (current : State) (lexeme utf8Codepoint : Bytes)
    (lineNum charNum : Nat) : Except Exception (Option TransitionResult) :=
  match current with
  | .inTrue => handleLiteral lexeme (lit "true") .tkTrue utf8Codepoint lineNum charNum
  | .inFalse => handleLiteral lexeme (lit "false") .tkFalse utf8Codepoint lineNum charNum
  | .inNull => handleLiteral lexeme (lit "null") .tkNull utf8Codepoint lineNum charNum
  | _ => .ok none

/-! ## Strings -/

/-- A transition inside a token, without a message. -/
def TransitionResult.go (next : State) : TransitionResult :=
  { state := next, tokenType := .endOfInput, errorMessage := [] }

/-- A transition to the dead state. -/
def TransitionResult.die (message : Bytes) : TransitionResult :=
  { state := .dead, tokenType := .endOfInput, errorMessage := message }

/-- The inner `switch` of the hex states. -/
def nextHexState : State → State
  | .stringUnicodeEscapeSequence => .hexOne
  | .hexOne => .hexTwo
  | .hexTwo => .hexThree
  | .hexThree => .inString
  | _ => .dead

def handleStringState (current : State) (codepoint : UInt32) (utf8Codepoint : Bytes)
    (line col : Nat) : TransitionResult :=
  match current with
  | .inString =>
    if utf8Codepoint == lit "\"" then
      { state := .completed, tokenType := .tkString, errorMessage := [] }
    else if utf8Codepoint == lit "\\" then .go .stringEscapeSequence
    else if isControlChar codepoint then
      .die (formatError (lit "Unescaped control character in string") line col)
    else .go .inString
  | .stringEscapeSequence =>
    if utf8Codepoint == lit "\"" || utf8Codepoint == lit "\\" || utf8Codepoint == lit "/" ||
        utf8Codepoint == lit "b" || utf8Codepoint == lit "f" || utf8Codepoint == lit "n" ||
        utf8Codepoint == lit "r" || utf8Codepoint == lit "t" then .go .inString
    else if utf8Codepoint == lit "u" then .go .stringUnicodeEscapeSequence
    else .die (formatError (lit "Invalid escape sequence in string") line col)
  | .stringUnicodeEscapeSequence | .hexOne | .hexTwo | .hexThree =>
    if isHexDigit utf8Codepoint then .go (nextHexState current)
    else .die (formatError (lit "Invalid hex digit in unicode escape sequence") line col)
  | _ => .go current

/-! ## Numbers -/

/-- `NumberTransitionResult` and `StateStepResult`, which have the same fields. -/
structure StepResult where
  errorMessage : Bytes
  nextState : State
  tokenType : TokenType
  putBack : Bool
  deriving DecidableEq, Repr

/-- `number_ok(next)`. No caller passes `put_back`. -/
def numberOk (next : State) : StepResult :=
  { errorMessage := [], nextState := next, tokenType := .endOfInput, putBack := false }

def numberError (next : State) (codepoint : Bytes) (line col : Nat) (expected : Bytes) :
    StepResult :=
  { errorMessage := formatErrorWith (lit "Unexpected number: " ++ codepoint) line col expected
    nextState := next
    tokenType := .endOfInput
    putBack := false }

/-- The result with which a number state completes the token before `codepoint`. -/
def numberCompleted : StepResult :=
  { errorMessage := [], nextState := .completed, tokenType := .tkNumber, putBack := true }

def handleNumberSignStart (codepoint : Bytes) (line col : Nat) : StepResult :=
  if codepoint == lit "0" then numberOk .zeroStart
  else if isSingle (fun b => '1'.toUInt8 ≤ b && b ≤ '9'.toUInt8) codepoint then
    numberOk .significantStart
  else numberError .dead codepoint line col (lit " expected number: [0-9]")

def handleZeroStart (codepoint : Bytes) : StepResult :=
  if codepoint == lit "." then numberOk .decimalStart
  else if codepoint == lit "e" || codepoint == lit "E" then numberOk .exponentStart
  else numberCompleted

def handleSignificantStart (codepoint : Bytes) : StepResult :=
  if isDecimalDigit codepoint then numberOk .significantStart
  else if codepoint == lit "." then numberOk .decimalStart
  else if codepoint == lit "e" || codepoint == lit "E" then numberOk .exponentStart
  else numberCompleted

def handleDecimalStart (codepoint : Bytes) (line col : Nat) : StepResult :=
  if isDecimalDigit codepoint then numberOk .decimalDigit
  else numberError .dead codepoint line col (lit " expected at least one decimal digit")

def handleDecimalDigit (codepoint : Bytes) : StepResult :=
  if isDecimalDigit codepoint then numberOk .decimalDigit
  else if codepoint == lit "e" || codepoint == lit "E" then numberOk .exponentStart
  else numberCompleted

def handleExponentStart (codepoint : Bytes) (line col : Nat) : StepResult :=
  if codepoint == lit "+" || codepoint == lit "-" then numberOk .exponentSign
  else if isDecimalDigit codepoint then numberOk .exponentDigit
  else numberError .dead codepoint line col (lit " expected exponent sign or digit")

def handleExponentSign (codepoint : Bytes) (line col : Nat) : StepResult :=
  if isDecimalDigit codepoint then numberOk .exponentDigit
  else numberError .dead codepoint line col (lit " expected exponent digit [0-9]")

def handleExponentDigit (codepoint : Bytes) : StepResult :=
  if isDecimalDigit codepoint then numberOk .exponentDigit else numberCompleted

def handleNumberState (current : State) (utf8Codepoint : Bytes) (line col : Nat) : StepResult :=
  match current with
  | .numberSignStart => handleNumberSignStart utf8Codepoint line col
  | .zeroStart => handleZeroStart utf8Codepoint
  | .significantStart => handleSignificantStart utf8Codepoint
  | .decimalStart => handleDecimalStart utf8Codepoint line col
  | .decimalDigit => handleDecimalDigit utf8Codepoint
  | .exponentStart => handleExponentStart utf8Codepoint line col
  | .exponentSign => handleExponentSign utf8Codepoint line col
  | .exponentDigit => handleExponentDigit utf8Codepoint
  | _ => numberOk current

/-! ## One step of the state machine -/

/-- A transition without put-back. -/
def TransitionResult.toStep (res : TransitionResult) : StepResult :=
  { errorMessage := res.errorMessage
    nextState := res.state
    tokenType := res.tokenType
    putBack := false }

def processStateStep (currentState : State) (codepoint : UInt32) (utf8Codepoint lexeme : Bytes)
    (lineNumber characterNumber : Nat) : Except Exception StepResult :=
  match currentState with
  | .start =>
    let (newState, newTokenType) := handleStart utf8Codepoint
    let err :=
      if newState == .dead then
        formatError (lit "Unknown character: " ++ utf8Codepoint) lineNumber characterNumber
      else []
    .ok { errorMessage := err, nextState := newState, tokenType := newTokenType, putBack := false }
  | .inTrue | .inFalse | .inNull => do
    match ← handleLiteralState currentState lexeme utf8Codepoint lineNumber characterNumber with
    | none => return (TransitionResult.go currentState).toStep
    | some res => return res.toStep
  | .inString | .stringEscapeSequence | .stringUnicodeEscapeSequence | .hexOne | .hexTwo
  | .hexThree =>
    .ok (handleStringState currentState codepoint utf8Codepoint lineNumber characterNumber).toStep
  | .numberSignStart | .zeroStart | .significantStart | .decimalStart | .decimalDigit
  | .exponentStart | .exponentSign | .exponentDigit =>
    .ok (handleNumberState currentState utf8Codepoint lineNumber characterNumber)
  | .dead | .completed => .ok (TransitionResult.go currentState).toStep

def isNumberState (state : State) : Bool :=
  state == .zeroStart || state == .significantStart || state == .decimalDigit ||
    state == .exponentDigit

/-! ## The loops

A loop over the file runs for at most `file.size() + 1` iterations. That this is
enough, so that the bound is never reached, is proved in `Spec.NextToken`. -/

/-- The body of the loop of `advance_past_dead_chars`. -/
def advancePastDeadCharsBody (s : Utf8File × Position) :
    Run Exception (ForInStep (Utf8File × Position)) := do
  let (file, pos) := s
  -- `state` is initialised to DEAD and never assigned
  let state := State.dead
  if file.atEnd || isDone state then return .done s
  match ← Run.ofExcept file.peekCodepoint with
  | none => return .done s
  | some codepoint =>
    let utf8Codepoint ← Run.ofExcept (codepointToUtf8 codepoint)
    let (newState, _) := handleStart utf8Codepoint
    if newState != .dead then return .done s
    let (r, file) := file.advance
    let _ ← Run.ofExcept r
    if utf8Codepoint == lit "\n" then
      return .yield (file, { line := pos.line + 1, column := 1 })
    else return .yield (file, { pos with column := pos.column + 1 })

def advancePastDeadChars (file : Utf8File) (pos : Position) :
    Run Exception (Utf8File × Position) :=
  Run.loop advancePastDeadCharsBody (file.size + 1) (file, pos)

/-- The members of `Tokenizer` that `next_token` works on, with the messages that
    have been written to `std::cerr`. The lookahead buffer is in `Tokenizer`. -/
structure Scanner where
  file : Utf8File
  lineNumber : Nat
  characterNumber : Nat
  cerr : List Bytes
  deriving DecidableEq, Repr

/-- `Tokenizer::update_position`. -/
def Scanner.updatePosition (s : Scanner) (codepoint : UInt32) : Scanner :=
  if codepoint == jsonLineFeed then
    { s with lineNumber := s.lineNumber + 1, characterNumber := 1 }
  else { s with characterNumber := s.characterNumber + 1 }

/-- The local variables of `next_token` beside the members. -/
structure TokenLoop where
  scanner : Scanner
  currentState : State
  tokenType : TokenType
  errorMessage : Bytes
  tokenStartOffset : Nat
  tokenStarted : Bool
  deriving DecidableEq, Repr

/-- The local variables on entry to the loop of `next_token`. -/
def TokenLoop.init (s : Scanner) : TokenLoop :=
  { scanner := s
    currentState := .start
    tokenType := .endOfInput
    errorMessage := []
    tokenStartOffset := 0
    tokenStarted := false }

/-- The body of the loop of `next_token`; `fullFileView` is the view over the file. -/
def nextTokenBody (fullFileView : Bytes) (l : TokenLoop) :
    Run Exception (ForInStep TokenLoop) := do
  -- the condition of the `while`
  if l.scanner.file.atEnd || isDone l.currentState then return .done l
  let currentPos := l.scanner.file.currentOffset
  let (r, file) := l.scanner.file.nextCodepoint
  let scanner := { l.scanner with file }
  match ← Run.ofExcept r with
  -- `if (!codepoint_opt) break;`
  | none => return .done { l with scanner }
  | some codepoint =>
    let scanner := scanner.updatePosition codepoint
    -- whitespace counts in the position and not in the token
    if l.currentState == .start && isInsignificantWhitespace codepoint then
      return .yield { l with scanner }
    let tokenStartOffset := if l.tokenStarted then l.tokenStartOffset else currentPos
    let currentLexeme ← Run.ofExcept (substr fullFileView tokenStartOffset
      (sizeSub scanner.file.currentOffset tokenStartOffset))
    let utf8Codepoint ← Run.ofExcept (codepointToUtf8 codepoint)
    let result ← Run.ofExcept (processStateStep l.currentState codepoint utf8Codepoint
      currentLexeme scanner.lineNumber scanner.characterNumber)
    let l := {
      scanner
      currentState := result.nextState
      tokenType := result.tokenType
      -- a step without a message keeps the one before it
      errorMessage := if result.errorMessage.isEmpty then l.errorMessage else result.errorMessage
      tokenStartOffset
      tokenStarted := true }
    if result.putBack then
      -- only the cursor goes back: the position still counts the code point
      let (r, file) := scanner.file.revert
      let _ ← Run.ofExcept r
      return .yield { l with scanner := { scanner with file } }
    return .yield l

/-- The final lexeme view, constructed after the loop. -/
def TokenLoop.finalLexeme (fullFileView : Bytes) (l : TokenLoop) : Except Exception Bytes :=
  let currentOffset := l.scanner.file.currentOffset
  if l.tokenStarted && currentOffset ≥ l.tokenStartOffset then
    substr fullFileView l.tokenStartOffset (sizeSub currentOffset l.tokenStartOffset)
  else .ok []

/-- `Tokenizer::next_token`. -/
def Scanner.nextToken (s : Scanner) : Run Exception (Token × Scanner) := do
  let fullFileView := s.file.data.take s.file.size
  let l ← Run.loop (nextTokenBody fullFileView) (s.file.size + 1) (TokenLoop.init s)
  let lexeme ← Run.ofExcept (l.finalLexeme fullFileView)
  let scanner := l.scanner
  -- The lexeme is taken before the dead characters are skipped; the position is that
  -- after them.
  if l.currentState == .dead then
    let (file, pos) ← advancePastDeadChars scanner.file
      { line := scanner.lineNumber, column := scanner.characterNumber }
    let cerr := if l.errorMessage.isEmpty then scanner.cerr else scanner.cerr ++ [l.errorMessage]
    let token := Token.mk lexeme pos.line pos.column .tkError
    return (token, { file, lineNumber := pos.line, characterNumber := pos.column, cerr })
  let type :=
    -- a number at the end of the file has no character after it that completes it
    if isNumberState l.currentState && scanner.file.atEnd then .tkNumber else l.tokenType
  let token := Token.mk lexeme scanner.lineNumber scanner.characterNumber type
  return (token, scanner)

/-! ## Lookahead -/

/-- Where a `Tokenizer` takes its tokens from: `next_token` is its only private
    method with an effect, and the lookahead buffer does not depend on more. -/
class TokenSource (σ : Type) where
  nextToken : σ → Run Exception (Token × σ)

instance : TokenSource Scanner where
  nextToken := Scanner.nextToken

/-- `Tokenizer`: a source of tokens with a buffer of one token. -/
structure Tokenizer (σ : Type) where
  source : σ
  current : Token
  hasCurrent : Bool

namespace Tokenizer

variable {σ : Type} [TokenSource σ]

/-- `current{}`: value initialisation, which makes the type the first enumerator. -/
def noToken : Token := { lexeme := [], lineNumber := 0, characterNumber := 0, type := .tkString }

/-- The constructor. -/
def new (source : σ) : Tokenizer σ :=
  { source, current := noToken, hasCurrent := false }

/-- `Tokenizer::peek`. -/
def peek (t : Tokenizer σ) : Run Exception (Token × Tokenizer σ) := do
  if !t.hasCurrent then
    let (current, source) ← TokenSource.nextToken t.source
    return (current, { source, current, hasCurrent := true })
  return (t.current, t)

/-- `Tokenizer::consume`. -/
def consume (t : Tokenizer σ) : Run Exception (Token × Tokenizer σ) := do
  if !t.hasCurrent then
    let (current, source) ← TokenSource.nextToken t.source
    return (current, { source, current, hasCurrent := false })
  return (t.current, { t with hasCurrent := false })

end Tokenizer

/-- The scanner of a newly constructed `Tokenizer`. -/
def Scanner.new (file : Utf8File) : Scanner :=
  { file, lineNumber := 0, characterNumber := 0, cerr := [] }

end CcJson
