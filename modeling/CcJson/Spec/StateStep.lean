import CcJson.Spec.Automaton
import CcJson.Spec.Utf8CppCorrect

/-!
# The state handlers

`process_state_step` works on re-encoded code points and on raw slices of the
file. On the encoding of a character it makes the transition of the automaton
(`processStateStep_matches`), and it never throws.
-/

namespace CcJson

open Munch

/-! ## Comparisons of encoded characters -/

theorem codepointToUtf8_val (c : Char) : codepointToUtf8 c.val = .ok (String.utf8EncodeChar c) :=
  Utf8Cpp.append_val c

/-- Comparing an encoded character with a one-character literal. -/
theorem beq_lit {s : String} {x : Char} (hs : s.toList = [x]) (c : Char) :
    (String.utf8EncodeChar c == lit s) = decide (c = x) := by
  rw [lit, hs, ← Utf8.encode_singleton c, Bool.eq_iff_iff, beq_iff_eq, decide_eq_true_eq,
    Utf8.encode_inj, List.cons.injEq, and_iff_left rfl]

/-- A predicate on the single byte of an encoded character. -/
private theorem isSingle_encode (p : UInt8 → Bool) (c : Char) :
    isSingle p (String.utf8EncodeChar c) = (decide (c.val < 0x80) && p c.val.toUInt8) := by
  have hseq := Utf8Cpp.isSequence_utf8EncodeChar c
  have hge : 0x80 ≤ c.val.toNat → decide (c.val < 0x80) = false := by
    intro h
    rw [decide_eq_false_iff_not, UInt32.lt_iff_toNat_lt]
    simp only [UInt32.reduceToNat]
    omega
  -- A one-byte sequence is an ASCII character; the longer ones have another length and a
  -- value of at least 0x80.
  cases h : String.utf8EncodeChar c with
  | nil => exact absurd h String.utf8EncodeChar_ne_nil
  | cons b bs =>
    rw [h] at hseq
    cases hseq with
    | one _ hn hlt =>
      have hb : b = c.val.toUInt8 := by
        rw [← UInt8.toNat_inj, UInt32.toNat_toUInt8]
        omega
      have hc : c.val < 0x80 := by
        rw [UInt32.lt_iff_toNat_lt]
        exact hlt
      simp [isSingle, hb, hc]
    | two _ b₁ hlo hhi ht hn hcp => simp [isSingle, hge (by omega)]
    | three _ b₁ b₂ hlo hhi ht₁ ht₂ hn hcp => simp [isSingle, hge (by omega)]
    | four _ b₁ b₂ b₃ hlo hhi ht₁ ht₂ ht₃ hn hcp => simp [isSingle, hge (by omega)]

/-- A predicate that holds of ASCII bytes only, as a predicate on code points. -/
private theorem isSingle_eq {p : UInt8 → Bool} {q : Char → Bool} (c : Char)
    (h : c.val.toNat < 128 → p c.val.toUInt8 = q c) (hq : 128 ≤ c.val.toNat → q c = false) :
    isSingle p (String.utf8EncodeChar c) = q c := by
  rw [isSingle_encode]
  by_cases hc : c.val.toNat < 128
  · rw [h hc, decide_eq_true (UInt32.lt_iff_toNat_lt.mpr hc), Bool.true_and]
  · rw [hq (by omega), decide_eq_false (fun hlt => hc (UInt32.lt_iff_toNat_lt.mp hlt)),
      Bool.false_and]

theorem isDecimalDigit_encode (c : Char) :
    isDecimalDigit (String.utf8EncodeChar c) = c.isDigit := by
  apply isSingle_eq
  · intro hc
    rw [Bool.eq_iff_iff]
    simp only [Char.isDigit, Bool.and_eq_true, decide_eq_true_eq,
      UInt8.le_iff_toNat_le, UInt32.le_iff_toNat_le, UInt32.toNat_toUInt8, ge_iff_le]
    rw [Nat.mod_eq_of_lt (by omega)]
    rfl
  · intro hc
    simp only [Bool.eq_false_iff, Char.isDigit, ne_eq, Bool.and_eq_true, decide_eq_true_eq,
      UInt32.le_iff_toNat_le, ge_iff_le]
    have : '9'.val.toNat = 57 := rfl
    omega

theorem isHexDigit_encode (c : Char) : isHexDigit (String.utf8EncodeChar c) = isHex c := by
  apply isSingle_eq
  · intro hc
    rw [Bool.eq_iff_iff]
    simp only [isHex, Char.isDigit, Bool.and_eq_true, Bool.or_eq_true,
      decide_eq_true_eq, UInt8.le_iff_toNat_le, UInt32.le_iff_toNat_le, UInt32.toNat_toUInt8,
      ge_iff_le, Char.le_def]
    rw [Nat.mod_eq_of_lt (by omega)]
    rfl
  · intro hc
    simp only [Bool.eq_false_iff, isHex, Char.isDigit, ne_eq, Bool.and_eq_true, Bool.or_eq_true,
      decide_eq_true_eq, UInt32.le_iff_toNat_le, ge_iff_le, Char.le_def]
    have h9 : '9'.val.toNat = 57 := rfl
    have hf : 'f'.val.toNat = 102 := rfl
    have hF : 'F'.val.toNat = 70 := rfl
    omega

/-- A non-zero digit. -/
theorem isSignificant_encode (c : Char) :
    isSingle (fun b => '1'.toUInt8 ≤ b && b ≤ '9'.toUInt8) (String.utf8EncodeChar c) =
      (c.isDigit && c != '0') := by
  apply isSingle_eq (q := fun c => c.isDigit && c != '0')
  · intro hc
    rw [Bool.eq_iff_iff]
    simp only [Char.isDigit, Bool.and_eq_true, decide_eq_true_eq, bne_iff_ne,
      UInt8.le_iff_toNat_le, UInt32.le_iff_toNat_le, UInt32.toNat_toUInt8, ge_iff_le, ne_eq,
      Char.ext_iff, ← UInt32.toNat_inj]
    rw [Nat.mod_eq_of_lt (by omega)]
    have h0 : '0'.val.toNat = 48 := rfl
    have h1 : '1'.toUInt8.toNat = 49 := rfl
    have h9 : '9'.toUInt8.toNat = 57 := rfl
    have h9' : '9'.val.toNat = 57 := rfl
    omega
  · intro hc
    simp only [Bool.eq_false_iff, Char.isDigit, ne_eq, Bool.and_eq_true, decide_eq_true_eq,
      UInt32.le_iff_toNat_le, ge_iff_le]
    have : '9'.val.toNat = 57 := rfl
    omega

/-- `is_digit` counts a minus sign as a digit. -/
theorem isDigit_encode (c : Char) :
    isDigit (String.utf8EncodeChar c) = (c == '-' || c.isDigit) := by
  apply isSingle_eq (q := fun c => c == '-' || c.isDigit)
  · intro hc
    rw [Bool.eq_iff_iff]
    simp only [Char.isDigit, Bool.and_eq_true, Bool.or_eq_true,
      decide_eq_true_eq, beq_iff_eq, UInt8.le_iff_toNat_le, UInt32.le_iff_toNat_le,
      UInt32.toNat_toUInt8, ge_iff_le, Char.ext_iff, ← UInt32.toNat_inj, ← UInt8.toNat_inj]
    rw [Nat.mod_eq_of_lt (by omega)]
    rfl
  · intro hc
    simp only [Bool.eq_false_iff, Char.isDigit, ne_eq, Bool.and_eq_true, Bool.or_eq_true,
      decide_eq_true_eq, beq_iff_eq, UInt32.le_iff_toNat_le, ge_iff_le, Char.ext_iff,
      ← UInt32.toNat_inj]
    have h9 : '9'.val.toNat = 57 := rfl
    have hm : '-'.val.toNat = 45 := rfl
    omega

theorem isInsignificantWhitespace_val (c : Char) :
    isInsignificantWhitespace c.val = isBlank c := by
  rw [Bool.eq_iff_iff]
  simp only [isInsignificantWhitespace, isBlank, Bool.or_eq_true, beq_iff_eq, Char.ext_iff]
  exact Iff.rfl

/-! ## One step -/

/-- The result of a step makes a transition of the automaton. -/
def StepResult.Makes (r : StepResult) : Move State TokenType → Prop
  | .shift s =>
    r.nextState = s ∧ isDone s = false ∧ r.tokenType = .endOfInput ∧ r.putBack = false
  | .accept kind => r.nextState = .completed ∧ r.tokenType = kind ∧ r.putBack = false
  | .putBack kind => r.nextState = .completed ∧ r.tokenType = kind ∧ r.putBack = true
  | .reject => r.nextState = .dead ∧ r.putBack = false

/-- The state and token type to which a transition of the start state leads. -/
def startTarget : Move State TokenType → State × TokenType
  | .shift s => (s, .endOfInput)
  | .accept kind => (.completed, kind)
  | _ => (.dead, .endOfInput)

/-- `handle_start` on the encoding of a character. -/
theorem handleStart_encode (c : Char) :
    handleStart (String.utf8EncodeChar c) = startTarget (startMove c) := by
  unfold startMove
  split
  iterate 12
    · rfl
  · rename_i hobr hcbr hobrace hcbrace hcolon hcomma ht hf hn hquote hminus hzero
    -- no entry of the table and no sign: a number starts with a digit or the character is dead
    have hfind :
        startTransitions.find? (fun entry => entry.1 == String.utf8EncodeChar c) = none := by
      rw [List.find?_eq_none]
      simp only [startTransitions, List.mem_cons, List.not_mem_nil, or_false]
      -- `c` differs from the character of every entry.
      have key : ∀ {s : String} {x : Char}, s.toList = [x] → (c = x → False) →
          ¬ (lit s == String.utf8EncodeChar c) = true := by
        intro s x hs hx
        rw [BEq.comm, beq_lit hs, decide_eq_true_eq]
        exact hx
      rintro entry (rfl | rfl | rfl | rfl | rfl | rfl | rfl | rfl | rfl | rfl)
      · exact key rfl hobr
      · exact key rfl hcbr
      · exact key rfl hobrace
      · exact key rfl hcbrace
      · exact key rfl hcolon
      · exact key rfl hcomma
      · exact key rfl ht
      · exact key rfl hf
      · exact key rfl hn
      · exact key rfl hquote
    have hminus' : (c == '-') = false := beq_eq_false_iff_ne.mpr hminus
    simp only [handleStart, hfind, isDigit_encode, hminus', Bool.false_or, determineNumberStart,
      beq_lit (s := "-") (x := '-') rfl, beq_lit (s := "0") (x := '0') rfl, decide_eq_true_eq]
    split
    · rfl
    · rfl

/-- The comparison of a literal state, on encoded characters. -/
theorem handleDeterministic_encode (w word : List Char) :
    handleDeterministic (Utf8.encode w) (Utf8.encode word) =
      if w = word then 1 else if w <+: word then 0 else -1 := by
  unfold handleDeterministic
  split
  · rename_i hlen
    -- A longer slice is no prefix of the comparator.
    have hpre : ¬ w <+: word := by
      intro hpre
      have := (Utf8.encode_prefix_encode.mpr hpre).length_le
      omega
    have hne : w ≠ word := by
      rintro rfl
      exact hpre List.prefix_rfl
    rw [if_neg hne, if_neg hpre]
  · simp only [startsWith, List.isPrefixOf_iff_prefix, Utf8.encode_prefix_encode, beq_iff_eq,
      Utf8.encode_inj, @eq_comm _ word]

/-- A literal state makes its transition, and the expected character exists. -/
private theorem handleLiteral_makes {word : List Char} (hword : word ≠ []) {s : State}
    (hs : isDone s = false) (kind : TokenType) (read : List Char) (c : Char)
    (utf8Codepoint : Bytes) (line col : Nat) :
    ∃ o, handleLiteral (Utf8.encode (read ++ [c])) (Utf8.encode word) kind utf8Codepoint line col
        = .ok o ∧
      (o.getD (TransitionResult.go s)).toStep.Makes (literalMove word s kind read c) := by
  unfold handleLiteral literalMove
  rw [handleDeterministic_encode]
  split
  · exact ⟨_, rfl, rfl, rfl, rfl⟩
  · split
    · exact ⟨_, rfl, rfl, hs, rfl, rfl⟩
    · -- the literal is dead: the index of the expected character is within the comparator
      have hlen : ∀ {v : List Char}, v ≠ [] → 0 < (Utf8.encode v).length := by
        intro v hv
        exact List.length_pos_of_ne_nil (fun h => hv (Utf8.encode_eq_nil.mp h))
      have hw := hlen hword
      have hl := hlen (show read ++ [c] ≠ [] by simp)
      have hidx : sizeSub (min (Utf8.encode (read ++ [c])).length (Utf8.encode word).length) 1 <
          (Utf8.encode word).length := by
        rw [sizeSub_eq (by omega)]
        omega
      have hat : ∃ b, at_ (Utf8.encode word)
          (sizeSub (min (Utf8.encode (read ++ [c])).length (Utf8.encode word).length) 1) =
            .ok b := by
        rw [at_, List.getElem?_eq_getElem hidx]
        exact ⟨_, rfl⟩
      obtain ⟨b, hb⟩ := hat
      simp only [hb, bind, Except.bind, pure, Except.pure]
      exact ⟨_, rfl, rfl, rfl⟩

/-- Two conditionals with equivalent conditions. -/
private theorem makes_ite {p q : Prop} [Decidable p] [Decidable q] {r r' : StepResult}
    {m m' : Move State TokenType} (hpq : p ↔ q) (hthen : q → r.Makes m)
    (helse : ¬ q → r'.Makes m') : (if p then r else r').Makes (if q then m else m') := by
  by_cases hq : q
  · rw [if_pos (hpq.mpr hq), if_pos hq]
    exact hthen hq
  · rw [if_neg (fun hp => hq (hpq.mp hp)), if_neg hq]
    exact helse hq

private theorem go_makes {s : State} (hs : isDone s = false) :
    (TransitionResult.go s).toStep.Makes (.shift s) := ⟨rfl, hs, rfl, rfl⟩

private theorem die_makes (message : Bytes) :
    (TransitionResult.die message).toStep.Makes .reject := ⟨rfl, rfl⟩

private theorem lit_iff {s : String} {x : Char} (hs : s.toList = [x]) (c : Char) :
    (String.utf8EncodeChar c == lit s) = true ↔ c = x := by
  rw [beq_lit hs, decide_eq_true_eq]

/-- The hex states make their transitions. -/
private theorem hexState_makes {s : State} (hs : s = .stringUnicodeEscapeSequence ∨ s = .hexOne ∨
      s = .hexTwo ∨ s = .hexThree) (c : Char) (line col : Nat) :
    (handleStringState s c.val (String.utf8EncodeChar c) line col).toStep.Makes
      (hexMove (nextHexState s) c) := by
  have hstep : handleStringState s c.val (String.utf8EncodeChar c) line col =
      if isHexDigit (String.utf8EncodeChar c) then .go (nextHexState s)
      else .die (formatError (lit "Invalid hex digit in unicode escape sequence") line col) := by
    rcases hs with rfl | rfl | rfl | rfl <;> rfl
  have hnext : isDone (nextHexState s) = false := by
    rcases hs with rfl | rfl | rfl | rfl <;> rfl
  rw [hstep, isHexDigit_encode, apply_ite TransitionResult.toStep]
  exact makes_ite Iff.rfl (fun _ => go_makes hnext) (fun _ => die_makes _)

private theorem inString_makes (c : Char) (line col : Nat) :
    (handleStringState .inString c.val (String.utf8EncodeChar c) line col).toStep.Makes
      (stringMove c) := by
  unfold handleStringState stringMove
  rw [apply_ite TransitionResult.toStep, apply_ite TransitionResult.toStep,
    apply_ite TransitionResult.toStep]
  apply makes_ite (lit_iff rfl c)
  · intro _
    exact ⟨rfl, rfl, rfl⟩
  · intro _
    apply makes_ite (lit_iff rfl c) (fun _ => go_makes rfl)
    intro _
    exact makes_ite Iff.rfl (fun _ => die_makes _) (fun _ => go_makes rfl)

private theorem escape_makes (c : Char) (line col : Nat) :
    (handleStringState .stringEscapeSequence c.val (String.utf8EncodeChar c) line col).toStep.Makes
      (escapeMove c) := by
  have hescape : ∀ b, b = String.utf8EncodeChar c →
      ((b == lit "\"" || b == lit "\\" || b == lit "/" || b == lit "b" || b == lit "f" ||
        b == lit "n" || b == lit "r" || b == lit "t") = true ↔ isEscape c = true) := by
    rintro b rfl
    simp only [isEscape, Bool.or_eq_true, beq_iff_eq (a := c), lit_iff (s := "\"") (x := '"') rfl,
      lit_iff (s := "\\") (x := '\\') rfl, lit_iff (s := "/") (x := '/') rfl,
      lit_iff (s := "b") (x := 'b') rfl, lit_iff (s := "f") (x := 'f') rfl,
      lit_iff (s := "n") (x := 'n') rfl, lit_iff (s := "r") (x := 'r') rfl,
      lit_iff (s := "t") (x := 't') rfl]
  unfold handleStringState escapeMove
  rw [apply_ite TransitionResult.toStep, apply_ite TransitionResult.toStep]
  apply makes_ite (hescape _ rfl) (fun _ => go_makes rfl)
  intro _
  exact makes_ite (lit_iff rfl c) (fun _ => go_makes rfl) (fun _ => die_makes _)

private theorem numberOk_makes {s : State} (hs : isDone s = false) :
    (numberOk s).Makes (.shift s) := ⟨rfl, hs, rfl, rfl⟩

private theorem numberCompleted_makes : numberCompleted.Makes (.putBack .tkNumber) :=
  ⟨rfl, rfl, rfl⟩

private theorem numberError_makes (codepoint : Bytes) (line col : Nat) (expected : Bytes) :
    (numberError .dead codepoint line col expected).Makes .reject := ⟨rfl, rfl⟩

private theorem digit_iff (c : Char) :
    isDecimalDigit (String.utf8EncodeChar c) = true ↔ c.isDigit = true := by
  rw [isDecimalDigit_encode]

/-- The last two branches of the states in which a number is complete. -/
private theorem exponent_makes (c : Char) :
    (if String.utf8EncodeChar c == lit "e" || String.utf8EncodeChar c == lit "E" then
      numberOk .exponentStart else numberCompleted).Makes (exponentMove c) := by
  refine makes_ite ?_ (fun _ => numberOk_makes rfl) (fun _ => numberCompleted_makes)
  rw [Bool.or_eq_true, lit_iff (s := "e") (x := 'e') rfl, lit_iff (s := "E") (x := 'E') rfl]

/-- The number states make their transitions. -/
private theorem handleNumberState_makes {s : State}
    (hs : s = .numberSignStart ∨ s = .zeroStart ∨ s = .significantStart ∨ s = .decimalStart ∨
      s = .decimalDigit ∨ s = .exponentStart ∨ s = .exponentSign ∨ s = .exponentDigit)
    (read : List Char) (c : Char) (line col : Nat) :
    (handleNumberState s (String.utf8EncodeChar c) line col).Makes (move s read c) := by
  rcases hs with rfl | rfl | rfl | rfl | rfl | rfl | rfl | rfl
  · apply makes_ite (lit_iff rfl c) (fun _ => numberOk_makes rfl)
    intro h0
    refine makes_ite ?_ (fun _ => numberOk_makes rfl) (fun _ => numberError_makes _ _ _ _)
    rw [isSignificant_encode, Bool.and_eq_true, bne_iff_ne, and_iff_left h0]
  · exact makes_ite (lit_iff rfl c) (fun _ => numberOk_makes rfl) (fun _ => exponent_makes c)
  · apply makes_ite (digit_iff c) (fun _ => numberOk_makes rfl)
    intro _
    exact makes_ite (lit_iff rfl c) (fun _ => numberOk_makes rfl) (fun _ => exponent_makes c)
  · exact makes_ite (digit_iff c) (fun _ => numberOk_makes rfl)
      (fun _ => numberError_makes _ _ _ _)
  · exact makes_ite (digit_iff c) (fun _ => numberOk_makes rfl) (fun _ => exponent_makes c)
  · refine makes_ite ?_ (fun _ => numberOk_makes rfl) (fun _ => ?_)
    · rw [Bool.or_eq_true, lit_iff (s := "+") (x := '+') rfl, lit_iff (s := "-") (x := '-') rfl]
    · exact makes_ite (digit_iff c) (fun _ => numberOk_makes rfl)
        (fun _ => numberError_makes _ _ _ _)
  · exact makes_ite (digit_iff c) (fun _ => numberOk_makes rfl)
      (fun _ => numberError_makes _ _ _ _)
  · exact makes_ite (digit_iff c) (fun _ => numberOk_makes rfl)
      (fun _ => numberCompleted_makes)

/-- The start state makes its transition. -/
private theorem handleStart_makes (c : Char) (message : Bytes) :
    StepResult.Makes { errorMessage := message
                       nextState := (handleStart (String.utf8EncodeChar c)).1
                       tokenType := (handleStart (String.utf8EncodeChar c)).2
                       putBack := false } (startMove c) := by
  rw [handleStart_encode]
  unfold startMove
  split
  iterate 6
    · exact ⟨rfl, rfl, rfl⟩
  iterate 6
    · exact ⟨rfl, rfl, rfl, rfl⟩
  · split
    · exact ⟨rfl, rfl, rfl, rfl⟩
    · exact ⟨rfl, rfl⟩

private theorem handleLiteralState_makes {s : State}
    (hs : s = .inTrue ∨ s = .inFalse ∨ s = .inNull) (read : List Char) (c : Char)
    (utf8Codepoint : Bytes) (line col : Nat) :
    ∃ o, handleLiteralState s (Utf8.encode (read ++ [c])) utf8Codepoint line col = .ok o ∧
      (o.getD (TransitionResult.go s)).toStep.Makes (move s read c) := by
  rcases hs with rfl | rfl | rfl
  · exact handleLiteral_makes (by simp) rfl _ _ _ _ _ _
  · exact handleLiteral_makes (by simp) rfl _ _ _ _ _ _
  · exact handleLiteral_makes (by simp) rfl _ _ _ _ _ _

private theorem literal_makes {s : State} (hs : s = .inTrue ∨ s = .inFalse ∨ s = .inNull)
    (read : List Char) (c : Char) (line col : Nat) :
    ∃ r, processStateStep s c.val (String.utf8EncodeChar c) (Utf8.encode (read ++ [c])) line col =
        .ok r ∧ r.Makes (move s read c) := by
  obtain ⟨o, ho, hmakes⟩ := handleLiteralState_makes hs read c (String.utf8EncodeChar c) line col
  have hstep : processStateStep s c.val (String.utf8EncodeChar c) (Utf8.encode (read ++ [c]))
      line col = .ok (o.getD (TransitionResult.go s)).toStep := by
    rcases hs with rfl | rfl | rfl
    all_goals
      simp only [processStateStep, ho, bind, Except.bind]
      cases o <;> rfl
  exact ⟨_, hstep, hmakes⟩

/-- On the encoding of a character, `process_state_step` makes the transition of the
    automaton. `read` are the characters of the token before it. -/
theorem processStateStep_makes {s : State} (hs : isDone s = false) (read : List Char) (c : Char)
    (line col : Nat) :
    ∃ r, processStateStep s c.val (String.utf8EncodeChar c) (Utf8.encode (read ++ [c])) line col =
        .ok r ∧ r.Makes (move s read c) := by
  cases s with
  | start => exact ⟨_, rfl, handleStart_makes c _⟩
  | inTrue | inFalse | inNull =>
    exact literal_makes (by simp) read c line col
  | inString => exact ⟨_, rfl, inString_makes c line col⟩
  | stringEscapeSequence => exact ⟨_, rfl, escape_makes c line col⟩
  | stringUnicodeEscapeSequence | hexOne | hexTwo | hexThree =>
    exact ⟨_, rfl, hexState_makes (by simp) c line col⟩
  | dead | completed => exact nomatch hs
  | _ => exact ⟨_, rfl, handleNumberState_makes (by simp) read c line col⟩

/-- A token is a number iff it is ended by the character after it, and the start
    state is not entered again. -/
theorem kind_of_move {s : State} {read : List Char} {c : Char} {k : TokenType} :
    (move s read c = .accept k → k ≠ .tkNumber) ∧
    (move s read c = .putBack k → k = .tkNumber) ∧
    move s read c ≠ .shift .start := by
  cases s <;> simp only [move, startMove, literalMove, stringMove, escapeMove, hexMove, digitMove,
    exponentMove] <;> grind

end CcJson
