import CcJson.Spec.TokenViews

/-!
# The diagnosis of a broken literal

When a code point does not continue a literal, `handle_literal` reports the character
that it expected there. It finds that character by the length of the slice in bytes,
which is the place of the mismatch only for a code point of one byte or at the end of
the literal.

## Key results

- `expectedIndex_lt`: the character is one of the literal
- `diagnoses_iff`: when the reported character is the expected one
-/

namespace CcJson

/-! ## The report -/

/-- The comparator that `handle_literal_state` chooses. -/
def comparatorOf : State → Option Bytes
  | .inTrue => some (lit "true")
  | .inFalse => some (lit "false")
  | .inNull => some (lit "null")
  | _ => none

/-- The index at which `handle_literal` reads the comparator. -/
def expectedIndex (lexeme comparator : Bytes) : Nat :=
  sizeSub (min lexeme.length comparator.length) 1

namespace StepInput

/-- How many bytes of the token come before the code point of the step. -/
def matched (i : StepInput) : Nat := i.lexeme.length - i.utf8Codepoint.length

/-- The code point does not continue the literal. -/
def Breaks (i : StepInput) (comparator : Bytes) : Prop :=
  comparator[i.matched]?.map UInt8.toUInt32 ≠ some i.codepoint

instance (i : StepInput) (comparator : Bytes) : Decidable (i.Breaks comparator) :=
  inferInstanceAs (Decidable (_ ≠ _))

/-- The result of a step that breaks a literal where `expected` stood. -/
def broken (i : StepInput) (expected : UInt8) : StepResult :=
  { errorMessage := formatErrorWith (lit "Unexpected character: " ++ i.utf8Codepoint)
      i.lineNumber i.characterNumber
      (lit " expected character: " ++ [expected] ++ lit " but got " ++ i.utf8Codepoint)
    nextState := .dead
    tokenType := .endOfInput
    putBack := false }

/-- The step breaks a literal and reports the character of the comparator that stands where the
    code point does not match: the characters before are those of the comparator, the index of
    `at` is in range, and the character there is the one after those matched. -/
structure Diagnoses (i : StepInput) (comparator : Bytes) : Prop where
  matched : i.lexeme = comparator.take i.matched ++ i.utf8Codepoint
  missing : i.matched < comparator.length
  inRange : expectedIndex i.lexeme comparator < comparator.length
  expected : comparator[expectedIndex i.lexeme comparator]? = comparator[i.matched]?
  reported : ∃ b, comparator[i.matched]? = some b ∧ i.step = .ok (i.broken b)

/-- A step that breaks a literal reads the comparator at `expectedIndex`. -/
theorem step_of_mismatch {i : StepInput} {comparator : Bytes}
    (hcomparator : comparatorOf i.currentState = some comparator)
    (h : handleDeterministic i.lexeme comparator = -1) :
    i.step = (at_ comparator (expectedIndex i.lexeme comparator)).map i.broken := by
  have hliteral : ∀ kind, handleLiteral i.lexeme comparator kind i.utf8Codepoint i.lineNumber
      i.characterNumber = (at_ comparator (expectedIndex i.lexeme comparator)).map fun b =>
        some ⟨.dead, .endOfInput, (i.broken b).errorMessage⟩ := by
    intro kind
    simp only [handleLiteral, h]
    rfl
  -- the three states of `handle_literal_state` differ in their comparators only
  cases hs : i.currentState with
  | inTrue | inFalse | inNull =>
    rw [hs] at hcomparator
    obtain rfl := Option.some.inj hcomparator
    simp only [step, processStateStep, hs, handleLiteralState, hliteral]
    cases at_ _ (expectedIndex i.lexeme _) with
    | error e => rfl
    | ok b => rfl
  | _ =>
    rw [hs] at hcomparator
    simp only [comparatorOf, reduceCtorEq] at hcomparator

end StepInput

/-! ## The place of the mismatch -/

/-- In a state of a literal a beginning of it has been read. -/
private theorem begins_of_live {s : State} {comparator : Bytes} {read : List Char}
    (hcomparator : comparatorOf s = some comparator) (hlive : Live s read) :
    ∃ word, comparator = Utf8.encode word ∧ (∀ c ∈ word, c.utf8Size = 1) ∧ Begins word read := by
  cases s with
  | inTrue | inFalse | inNull =>
    obtain rfl := Option.some.inj hcomparator
    exact ⟨_, rfl, by simp [Char.utf8Size], hlive⟩
  | _ => simp only [comparatorOf, reduceCtorEq] at hcomparator

/-- The literals repeat a character at their end only, as `null` does. -/
private theorem repeated_of_comparatorOf {s : State} {comparator : Bytes}
    (hcomparator : comparatorOf s = some comparator) :
    ∀ j < comparator.length, ∀ m < j, comparator[j]? = comparator[m]? →
      j = m + 1 ∧ j + 1 = comparator.length := by
  cases s with
  | inTrue | inFalse | inNull =>
    obtain rfl := Option.some.inj hcomparator
    decide
  | _ => simp only [comparatorOf, reduceCtorEq] at hcomparator

/-- The character at the index that `handle_literal` uses, for `k` bytes read in place of the
    character at `m`: it is another one unless the index is clamped or the literal repeats it. -/
private theorem getElem_expectedIndex_iff {s : State} {comparator : Bytes}
    (hcomparator : comparatorOf s = some comparator) {m k : Nat} (hm : m < comparator.length)
    (hk : 0 < k) :
    comparator[min (m + k) comparator.length - 1]? = comparator[m]? ↔
      k = 1 ∨ m + 1 = comparator.length ∨ comparator[m + 1]? = comparator[m]? := by
  have hrepeated := repeated_of_comparatorOf hcomparator
  obtain ⟨j, hj⟩ : ∃ j, min (m + k) comparator.length - 1 = j := ⟨_, rfl⟩
  rw [hj]
  by_cases hjm : j = m
  · -- the index is that of the mismatch
    subst hjm
    have : k = 1 ∨ j + 1 = comparator.length := by omega
    exact iff_of_true rfl (this.imp_right .inl)
  · constructor
    · intro h
      obtain ⟨rfl, -⟩ := hrepeated j (by omega) m (by omega) h
      exact .inr (.inr h)
    · intro h
      have hrepeat : comparator[m + 1]? = comparator[m]? := by
        obtain h | h | h := h
        · omega
        · omega
        · exact h
      -- a repeated character is the last one, to which the index is clamped
      obtain ⟨-, hlast⟩ := hrepeated (m + 1) (by omega) m (by omega) hrepeat
      obtain rfl : j = m + 1 := by omega
      exact hrepeat

section Broken

variable {p : Place} {s : State} {read w : List Char} {c d : Char} {comparator : Bytes}

/-- What has been matched are the bytes before the code point of the step. -/
private theorem matched_stepInput (p : Place) (s : State) (read : List Char) (c : Char) :
    (p.stepInput s read c).matched = (Utf8.encode read).length := by
  simp [StepInput.matched, Place.stepInput]

/-- The character of a literal after a beginning of it. -/
private theorem getElem_encode (read w : List Char) (hd : d.utf8Size = 1) :
    (Utf8.encode (read ++ d :: w))[(Utf8.encode read).length]? = some d.val.toUInt8 := by
  rw [Utf8.encode_append, List.getElem?_append_right (Nat.le_refl _), Nat.sub_self,
    Utf8.encode_cons, String.utf8EncodeChar_eq_singleton hd]
  rfl

private theorem toUInt32_toUInt8_val (hd : d.utf8Size = 1) : d.val.toUInt8.toUInt32 = d.val := by
  have hle := UInt32.le_iff_toNat_le.mp (Char.utf8Size_eq_one_iff.mp hd)
  have h127 : (127 : UInt32).toNat = 127 := rfl
  have h256 : (256 : UInt32).toNat = 256 := rfl
  rw [UInt32.toUInt32_toUInt8, ← UInt32.toNat_inj, UInt32.toNat_mod]
  exact Nat.mod_eq_of_lt (by omega)

/-- A code point that does not continue a literal makes its comparison fail. -/
private theorem handleDeterministic_of_ne (hcd : c ≠ d) :
    handleDeterministic (Utf8.encode (read ++ [c])) (Utf8.encode (read ++ d :: w)) = -1 := by
  have hpre : ¬ read ++ [c] <+: read ++ d :: w := by
    rw [List.prefix_append_right_inj, List.cons_prefix_cons]
    exact fun h => hcd h.1
  have hne : read ++ [c] ≠ read ++ d :: w := by
    intro heq
    rw [heq] at hpre
    exact hpre List.prefix_rfl
  rw [handleDeterministic_encode, if_neg hne, if_neg hpre]

/-- The index that `handle_literal` uses, by what has been matched and the length of the code
    point that does not match. -/
private theorem expectedIndex_stepInput (p : Place) (s : State) (read : List Char) (c : Char)
    (hcomparator : comparator ≠ []) :
    expectedIndex (p.stepInput s read c).lexeme comparator =
      min ((p.stepInput s read c).matched + c.utf8Size) comparator.length - 1 := by
  have hpos := List.length_pos_of_ne_nil hcomparator
  have hsize := c.utf8Size_pos
  have hlexeme : (p.stepInput s read c).lexeme.length =
      (p.stepInput s read c).matched + c.utf8Size := by
    rw [matched_stepInput]
    simp [Place.stepInput]
  rw [expectedIndex, hlexeme, sizeSub_eq (by omega)]

/-- A step that breaks a literal has a beginning of it behind, reads the comparator within its
    range and reports the character there. -/
private theorem breaks_stepInput (hcomparator : comparatorOf s = some comparator)
    (hlive : Live s read) (hbreaks : (p.stepInput s read c).Breaks comparator) :
    let i := p.stepInput s read c
    i.lexeme = comparator.take i.matched ++ i.utf8Codepoint ∧
    i.matched < comparator.length ∧
    expectedIndex i.lexeme comparator =
      min (i.matched + c.utf8Size) comparator.length - 1 ∧
    i.step = (at_ comparator (expectedIndex i.lexeme comparator)).map i.broken := by
  obtain ⟨word, rfl, hascii, d, w, rfl⟩ := begins_of_live hcomparator hlive
  have hd := hascii d (by simp)
  have hmatched := matched_stepInput p s read c
  have hget := getElem_encode read w hd
  rw [← hmatched] at hget
  have hcd : c ≠ d := by
    intro hcd
    apply hbreaks
    rw [hget, Option.map_some, toUInt32_toUInt8_val hd, hcd]
    rfl
  have hlt := (List.getElem?_eq_some_iff.mp hget).1
  intro i
  constructor
  · rw [hmatched, Utf8.encode_append, List.take_left]
    show Utf8.encode (read ++ [c]) = Utf8.encode read ++ String.utf8EncodeChar c
    rw [Utf8.encode_append, Utf8.encode_singleton]
  · refine ⟨hlt, ?_, StepInput.step_of_mismatch hcomparator (handleDeterministic_of_ne hcd)⟩
    apply expectedIndex_stepInput
    intro hnil
    rw [hnil] at hlt
    exact nomatch hlt

end Broken

/-! ## Every step of `next_token` -/

section Reachable

variable {loadType : FileLoadType} {content : Bytes} {s : Scanner} {l : TokenLoop} {i : StepInput}
  {comparator : Bytes}

/-- A step of `next_token` in a state of a literal is one at a place, with a beginning of the
    literal behind. -/
private theorem exists_place_of_step
    (hs : Scanner.Reachable (Scanner.new (Utf8File.ofContent loadType content)) s)
    (hl : Run.Heads (nextTokenBody s.fullFileView) (TokenLoop.init s) l)
    (hi : l.stepInput s.fullFileView = .ok (some i)) :
    ∃ (p : Place) (read : List Char) (c : Char),
      i = p.stepInput l.currentState read c ∧ Live l.currentState read := by
  obtain ⟨parts, hparts⟩ := exists_hands_iff.mpr hl
  obtain ⟨hgoes, -⟩ := TokenLoop.reads_of_stepInput hi
  obtain ⟨p, read, right, h, -⟩ := hs.inside hparts hgoes
  rw [hs.fullFileView_eq] at hi
  obtain ⟨c, right, rfl, rfl⟩ := h.stepInput_eq hi
  exact ⟨p, read, c, rfl, h.live⟩

/-- A step that breaks a literal reads the comparator within its range. -/
theorem expectedIndex_lt
    (hs : Scanner.Reachable (Scanner.new (Utf8File.ofContent loadType content)) s)
    (hl : Run.Heads (nextTokenBody s.fullFileView) (TokenLoop.init s) l)
    (hi : l.stepInput s.fullFileView = .ok (some i))
    (hcomparator : comparatorOf i.currentState = some comparator)
    (hbreaks : i.Breaks comparator) : expectedIndex i.lexeme comparator < comparator.length := by
  obtain ⟨p, read, c, rfl, hlive⟩ := exists_place_of_step hs hl hi
  replace hcomparator : comparatorOf l.currentState = some comparator := hcomparator
  obtain ⟨-, hlt, hindex, -⟩ := breaks_stepInput hcomparator hlive hbreaks
  rw [hindex]
  omega

/-- In every reachable state, a step of `next_token` that breaks a literal reports the character
    that the literal has there iff the code point has one byte, or stands in place of the last
    character of the literal or of one that the literal repeats. -/
theorem diagnoses_iff
    (hs : Scanner.Reachable (Scanner.new (Utf8File.ofContent loadType content)) s)
    (hl : Run.Heads (nextTokenBody s.fullFileView) (TokenLoop.init s) l)
    (hi : l.stepInput s.fullFileView = .ok (some i))
    (hcomparator : comparatorOf i.currentState = some comparator)
    (hbreaks : i.Breaks comparator) :
    i.Diagnoses comparator ↔ i.codepoint ≤ 0x7f ∨ i.matched + 1 = comparator.length ∨
      comparator[i.matched + 1]? = comparator[i.matched]? := by
  have hrange := expectedIndex_lt hs hl hi hcomparator hbreaks
  obtain ⟨p, read, c, rfl, hlive⟩ := exists_place_of_step hs hl hi
  replace hcomparator : comparatorOf l.currentState = some comparator := hcomparator
  obtain ⟨hmatched, hlt, hindex, hstep⟩ := breaks_stepInput hcomparator hlive hbreaks
  have hselects := getElem_expectedIndex_iff hcomparator hlt c.utf8Size_pos
  rw [← hindex, Char.utf8Size_eq_one_iff] at hselects
  have hcodepoint : (p.stepInput l.currentState read c).codepoint = c.val := rfl
  rw [hcodepoint, ← hselects]
  constructor
  · intro h
    exact h.expected
  · intro hexpected
    have hget := List.getElem?_eq_getElem hlt
    constructor
    case matched => exact hmatched
    case missing => exact hlt
    case inRange => exact hrange
    case expected => exact hexpected
    case reported =>
      refine ⟨_, hget, ?_⟩
      rw [hstep, at_, hexpected, hget]
      rfl

end Reachable

/-- After a `t`, an `x` is reported with the `r` that was expected. -/
theorem diagnoses_ascii :
    let i : StepInput := ⟨.inTrue, 'x'.val, lit "x", lit "tx", 0, 2⟩
    i.Diagnoses (lit "true") := by
  intro i
  have hstart : Scanner.Reachable _
    (Scanner.new (Utf8File.ofContent .fullMemory (lit "tx"))) := .start
  have hhead : Run.Heads (nextTokenBody (lit "tx"))
    (TokenLoop.init (Scanner.new (Utf8File.ofContent .fullMemory (lit "tx")))) _ :=
    .next .start rfl
  have hbreaks : i.Breaks (lit "true") := by decide
  exact (diagnoses_iff hstart hhead rfl rfl hbreaks).mpr (.inl (by decide))

/-- After a `t`, an `é` is reported with the `u` of `true`, where `r` was expected. -/
theorem diagnoses_two_bytes :
    let s := Scanner.new (Utf8File.ofContent .fullMemory (lit "té"))
    let i : StepInput := ⟨.inTrue, 'é'.val, lit "é", lit "té", 0, 2⟩
    Scanner.Reachable s s ∧
    (∃ l, Run.Heads (nextTokenBody s.fullFileView) (TokenLoop.init s) l ∧
      l.stepInput s.fullFileView = .ok (some i)) ∧
    i.Breaks (lit "true") ∧ i.step = .ok (i.broken 'u'.toUInt8) ∧ ¬ i.Diagnoses (lit "true") := by
  intro s i
  refine ⟨.start, ⟨_, .next .start rfl, rfl⟩, by decide, rfl, ?_⟩
  intro h
  exact absurd h.expected (by decide)

end CcJson
