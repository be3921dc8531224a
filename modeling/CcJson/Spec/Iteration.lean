import CcJson.Native.Tokenizer

/-!
# One iteration of `next_token`

An iteration of the loop reads a code point and, unless it skips it, calls
`process_state_step` with two views of what it has read: the slice of the file
from the start of the token on, and the code point encoded again. `stepInput` are
the arguments of that call as a function of the loop's local variables, and
`nextTokenBody_eq` is the iteration in terms of them.
-/

namespace CcJson

/-- The arguments of a call of `process_state_step`. -/
structure StepInput where
  currentState : State
  codepoint : UInt32
  utf8Codepoint : Bytes
  lexeme : Bytes
  lineNumber : Nat
  characterNumber : Nat
  deriving DecidableEq, Repr

/-- The call of `process_state_step`. -/
def StepInput.step (i : StepInput) : Except Exception StepResult :=
  processStateStep i.currentState i.codepoint i.utf8Codepoint i.lexeme i.lineNumber
    i.characterNumber

/-- The view over the file that `next_token` creates. -/
def Scanner.fullFileView (s : Scanner) : Bytes := s.file.data.take s.file.size

namespace TokenLoop

/-- The members after an iteration has read its code point and counted it. -/
def readScanner (l : TokenLoop) : Scanner :=
  let scanner := { l.scanner with file := l.scanner.file.nextCodepoint.2 }
  match l.scanner.file.nextCodepoint.1 with
  | .ok (some codepoint) => scanner.updatePosition codepoint
  | _ => scanner

/-- The start of the token in the iteration from `l`. -/
def startOffset (l : TokenLoop) : Nat :=
  if l.tokenStarted then l.tokenStartOffset else l.scanner.file.currentOffset

/-- The arguments with which the iteration from `l` calls `process_state_step`, or `none` when it
    does not come to the call. -/
def stepInput (fullFileView : Bytes) (l : TokenLoop) : Except Exception (Option StepInput) := do
  if l.scanner.file.atEnd || isDone l.currentState then return none
  match ← l.scanner.file.nextCodepoint.1 with
  | none => return none
  | some codepoint =>
    if l.currentState == .start && isInsignificantWhitespace codepoint then return none
    let lexeme ← substr fullFileView l.startOffset
      (sizeSub l.readScanner.file.currentOffset l.startOffset)
    let utf8Codepoint ← codepointToUtf8 codepoint
    return some {
      currentState := l.currentState
      codepoint, utf8Codepoint, lexeme
      lineNumber := l.readScanner.lineNumber
      characterNumber := l.readScanner.characterNumber }

/-- What an iteration makes of `l` that does not call `process_state_step`: the last one, or one
    over whitespace before the token. -/
def afterNoStep (l : TokenLoop) : ForInStep TokenLoop :=
  if l.scanner.file.atEnd || isDone l.currentState then .done l
  else
    match l.scanner.file.nextCodepoint.1 with
    | .ok (some _) => .yield { l with scanner := l.readScanner }
    | _ => .done { l with scanner := l.readScanner }

/-- What an iteration makes of the result of `process_state_step`. -/
def afterStep (l : TokenLoop) (result : StepResult) : Run Exception (ForInStep TokenLoop) := do
  let l := {
    scanner := l.readScanner
    currentState := result.nextState
    tokenType := result.tokenType
    errorMessage := if result.errorMessage.isEmpty then l.errorMessage else result.errorMessage
    tokenStartOffset := l.startOffset
    tokenStarted := true }
  if result.putBack then
    let (r, file) := l.scanner.file.revert
    let _ ← Run.ofExcept r
    return .yield { l with scanner := { l.scanner with file } }
  return .yield l

end TokenLoop

/-- An iteration of `next_token` is a call of `process_state_step` with the arguments
    `stepInput`, if it comes to one. -/
theorem nextTokenBody_eq (view : Bytes) (l : TokenLoop) :
    nextTokenBody view l = (do
      match ← Run.ofExcept (l.stepInput view) with
      | none => return l.afterNoStep
      | some i =>
        let result ← Run.ofExcept i.step
        l.afterStep result) := by
  unfold nextTokenBody TokenLoop.stepInput TokenLoop.afterNoStep
  by_cases hend : (l.scanner.file.atEnd || isDone l.currentState) = true
  · simp only [hend, ↓reduceIte]
    rfl
  · simp only [hend, Bool.false_eq_true, ↓reduceIte]
    obtain ⟨⟨r, file⟩, hnext⟩ : ∃ out, l.scanner.file.nextCodepoint = out := ⟨_, rfl⟩
    cases r with
    | error e =>
      simp only [hnext]
      rfl
    | ok o =>
      cases o with
      | none =>
        have hread : l.readScanner = { l.scanner with file } := by
          simp only [TokenLoop.readScanner, hnext]
        simp only [hnext, hread]
        rfl
      | some codepoint =>
        have hread : l.readScanner = Scanner.updatePosition { l.scanner with file } codepoint := by
          simp only [TokenLoop.readScanner, hnext]
        simp only [hnext, Run.ofExcept_bind, Run.ofExcept_ok, Run.returns_bind]
        by_cases hskip : (l.currentState == .start && isInsignificantWhitespace codepoint) = true
        · simp only [hskip, ↓reduceIte, Run.ofExcept_pure, Run.returns_bind, hread]
        · simp only [hskip, Bool.false_eq_true, ↓reduceIte, Run.ofExcept_bind, Run.bind_assoc,
            Run.ofExcept_pure, Run.returns_bind]
          rw [← hread]
          rfl

/-- An iteration that calls `process_state_step` has read a code point in a state in which the
    token goes on. -/
theorem TokenLoop.reads_of_stepInput {view : Bytes} {l : TokenLoop} {i : StepInput}
    (h : l.stepInput view = .ok (some i)) : isDone l.currentState = false ∧
      ∃ codepoint, l.scanner.file.nextCodepoint.1 = .ok (some codepoint) := by
  unfold stepInput at h
  by_cases hend : (l.scanner.file.atEnd || isDone l.currentState) = true
  · rw [if_pos hend] at h
    exact nomatch Except.ok.inj h
  · rw [if_neg hend] at h
    rw [Bool.not_eq_true, Bool.or_eq_false_iff] at hend
    refine ⟨hend.2, ?_⟩
    cases hnext : l.scanner.file.nextCodepoint.1 with
    | error e =>
      rw [hnext] at h
      exact nomatch h
    | ok o =>
      cases o with
      | none =>
        rw [hnext] at h
        exact nomatch Except.ok.inj h
      | some codepoint => exact ⟨codepoint, rfl⟩

/-- A call of `process_state_step` is given the state of the loop, the code point that has been
    read, encoded again, and the position behind it. -/
theorem TokenLoop.fields_of_stepInput {view : Bytes} {l : TokenLoop} {i : StepInput}
    (h : l.stepInput view = .ok (some i)) :
    i.currentState = l.currentState ∧ codepointToUtf8 i.codepoint = .ok i.utf8Codepoint ∧
      i.lineNumber = l.readScanner.lineNumber ∧
      i.characterNumber = l.readScanner.characterNumber := by
  obtain ⟨hdone, codepoint, hnext⟩ := reads_of_stepInput h
  unfold stepInput at h
  split at h
  · exact nomatch Except.ok.inj h
  · rw [hnext] at h
    dsimp only [bind, Except.bind] at h
    split at h
    · exact nomatch Except.ok.inj h
    · split at h
      · exact nomatch h
      · split at h
        · exact nomatch h
        · rename_i hencodes
          obtain rfl := Option.some.inj (Except.ok.inj h)
          exact ⟨rfl, hencodes, rfl, rfl⟩

end CcJson
