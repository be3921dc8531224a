import CcJson.Native.Tokenizer
import CcJson.ForStd.Munch

/-!
# The token languages

The tokens of `docs/SOLUTION.md` as sets of texts, one predicate for each of its
productions. For each predicate there are lemmas saying what is left to be read
after one more character, which is how the states of the tokenizer use them.

## Key results

- `IsToken`: the texts of each token type
- `decimalExponent_dot`, `stringContent_cons`, `hexThen_cons`, …: the productions by first character
-/

namespace CcJson

/-- Insignificant whitespace: tab, line feed, carriage return and space. -/
def isBlank (c : Char) : Bool := c == '\t' || c == '\n' || c == '\r' || c == ' '

/-- A text of insignificant whitespace only. -/
def Blanks (w : List Char) : Prop := ∀ c ∈ w, isBlank c = true

instance (w : List Char) : Decidable (Blanks w) := decidable_of_iff _ List.all_eq_true

@[simp] theorem blanks_nil : Blanks [] := by simp [Blanks]

@[simp] theorem blanks_cons {c : Char} {w : List Char} :
    Blanks (c :: w) ↔ isBlank c = true ∧ Blanks w := by simp [Blanks]

@[simp] theorem blanks_append {v w : List Char} : Blanks (v ++ w) ↔ Blanks v ∧ Blanks w := by
  simp only [Blanks, List.mem_append]
  constructor
  · intro h
    exact ⟨fun c hc => h c (.inl hc), fun c hc => h c (.inr hc)⟩
  · rintro ⟨hv, hw⟩ c (hc | hc)
    · exact hv c hc
    · exact hw c hc

/-! ## Digits -/

/-- `[0-9]*` -/
def Digits (ds : List Char) : Prop := ∀ d ∈ ds, d.isDigit = true

@[simp] theorem digits_nil : Digits [] := by simp [Digits]

@[simp] theorem digits_cons {d : Char} {ds : List Char} :
    Digits (d :: ds) ↔ d.isDigit = true ∧ Digits ds := by simp [Digits]

/-- `[0-9]+` -/
def Digits1 (ds : List Char) : Prop := ds ≠ [] ∧ Digits ds

@[simp] theorem not_digits1_nil : ¬ Digits1 [] := by simp [Digits1]

@[simp] theorem digits1_cons {d : Char} {ds : List Char} :
    Digits1 (d :: ds) ↔ d.isDigit = true ∧ Digits ds := by simp [Digits1]

/-- Digits followed by a text of `tail`. -/
def DigitsThen (tail : List Char → Prop) (v : List Char) : Prop :=
  ∃ ds b, v = ds ++ b ∧ Digits ds ∧ tail b

theorem digitsThen_nil {tail : List Char → Prop} : DigitsThen tail [] ↔ tail [] := by
  constructor
  · intro h
    obtain ⟨ds, b, heq, -, hb⟩ := h
    obtain ⟨rfl, rfl⟩ := List.append_eq_nil_iff.mp heq.symm
    exact hb
  · intro h
    exact ⟨[], [], rfl, digits_nil, h⟩

theorem digitsThen_cons {tail : List Char → Prop} {c : Char} {v : List Char} :
    DigitsThen tail (c :: v) ↔ (c.isDigit = true ∧ DigitsThen tail v) ∨ tail (c :: v) := by
  constructor
  · intro h
    obtain ⟨ds, b, heq, hds, hb⟩ := h
    cases ds with
    | nil =>
      rw [List.nil_append] at heq
      exact .inr (heq ▸ hb)
    | cons d ds =>
      obtain ⟨rfl, rfl⟩ := List.cons.inj heq
      rw [digits_cons] at hds
      exact .inl ⟨hds.1, ds, b, rfl, hds.2, hb⟩
  · intro h
    obtain ⟨hc, ds, b, rfl, hds, hb⟩ | h := h
    · exact ⟨c :: ds, b, rfl, digits_cons.mpr ⟨hc, hds⟩, hb⟩
    · exact ⟨[], c :: v, rfl, digits_nil, h⟩

/-! ## Numbers -/

/-- `FTK_START_PATTERN ::= 0 | [1-9](0-9)*` -/
inductive StartPattern : List Char → Prop where
  | zero : StartPattern ['0']
  | significant {d : Char} {ds : List Char} (hd : d.isDigit = true) (h0 : d ≠ '0')
      (hds : Digits ds) : StartPattern (d :: ds)

/-- `FTK_DECIMAL ::= .[0-9]+` -/
inductive Decimal : List Char → Prop where
  | dot {ds : List Char} (hds : Digits1 ds) : Decimal ('.' :: ds)

/-- `[+-]?[0-9]+` -/
inductive SignedDigits : List Char → Prop where
  | unsigned {ds : List Char} (hds : Digits1 ds) : SignedDigits ds
  | plus {ds : List Char} (hds : Digits1 ds) : SignedDigits ('+' :: ds)
  | minus {ds : List Char} (hds : Digits1 ds) : SignedDigits ('-' :: ds)

/-- `FTK_EXPONENT ::= [eE][+-]?[0-9]+` -/
inductive Exponent : List Char → Prop where
  | lower {v : List Char} (hv : SignedDigits v) : Exponent ('e' :: v)
  | upper {v : List Char} (hv : SignedDigits v) : Exponent ('E' :: v)

/-- `FTK_DECIMAL_EXPONENT ::= FTK_DECIMAL | FTK_EXPONENT | FTK_DECIMAL FTK_EXPONENT` -/
inductive DecimalExponent : List Char → Prop where
  | decimal {v : List Char} (hv : Decimal v) : DecimalExponent v
  | exponent {v : List Char} (hv : Exponent v) : DecimalExponent v
  | both {v w : List Char} (hv : Decimal v) (hw : Exponent w) : DecimalExponent (v ++ w)

/-- `FTK_NUMERICAL ::= FTK_START_PATTERN FTK_DECIMAL_EXPONENT | FTK_START_PATTERN` -/
inductive Numerical : List Char → Prop where
  | start {v : List Char} (hv : StartPattern v) : Numerical v
  | fraction {v w : List Char} (hv : StartPattern v) (hw : DecimalExponent w) :
      Numerical (v ++ w)

/-- `TK_NUMBER ::= FTK_SIGN FTK_NUMERICAL | FTK_NUMERICAL` -/
inductive TkNumber : List Char → Prop where
  | signed {v : List Char} (hv : Numerical v) : TkNumber ('-' :: v)
  | unsigned {v : List Char} (hv : Numerical v) : TkNumber v

theorem signedDigits_cons {c : Char} {v : List Char} :
    SignedDigits (c :: v) ↔
      ((c = '+' ∨ c = '-') ∧ Digits1 v) ∨ (c.isDigit = true ∧ Digits v) := by
  constructor
  · intro h
    cases h with
    | unsigned hds => exact .inr (digits1_cons.mp hds)
    | plus hds => exact .inl ⟨.inl rfl, hds⟩
    | minus hds => exact .inl ⟨.inr rfl, hds⟩
  · intro h
    obtain ⟨rfl | rfl, hds⟩ | hds := h
    · exact .plus hds
    · exact .minus hds
    · exact .unsigned (digits1_cons.mpr hds)

@[simp] theorem not_signedDigits_nil : ¬ SignedDigits [] := by
  intro h
  cases h with
  | unsigned hds => exact not_digits1_nil hds

/-- What may follow the digits of a decimal. -/
def ExponentTail (v : List Char) : Prop := v = [] ∨ Exponent v

@[simp] theorem exponentTail_nil : ExponentTail [] := .inl rfl

theorem exponentTail_cons {c : Char} {v : List Char} :
    ExponentTail (c :: v) ↔ (c = 'e' ∨ c = 'E') ∧ SignedDigits v := by
  constructor
  · intro h
    obtain h | h := h
    · exact nomatch h
    · cases h with
      | lower hv => exact ⟨.inl rfl, hv⟩
      | upper hv => exact ⟨.inr rfl, hv⟩
  · intro h
    obtain ⟨rfl | rfl, hv⟩ := h
    · exact .inr (.lower hv)
    · exact .inr (.upper hv)

/-- What may follow the start pattern of a number. -/
def FractionTail (v : List Char) : Prop := v = [] ∨ DecimalExponent v

@[simp] theorem fractionTail_nil : FractionTail [] := .inl rfl

/-- A decimal with what may follow it. -/
theorem decimalExponent_iff {v : List Char} :
    DecimalExponent v ↔ (∃ a b, v = a ++ b ∧ Decimal a ∧ ExponentTail b) ∨ Exponent v := by
  constructor
  · intro h
    cases h with
    | decimal hv => exact .inl ⟨v, [], by simp, hv, exponentTail_nil⟩
    | exponent hv => exact .inr hv
    | both hv hw => exact .inl ⟨_, _, rfl, hv, .inr hw⟩
  · intro h
    obtain ⟨a, b, rfl, ha, rfl | hb⟩ | h := h
    · rw [List.append_nil]
      exact .decimal ha
    · exact .both ha hb
    · exact .exponent h

/-- After the decimal point: at least one digit. -/
def DecimalRest (v : List Char) : Prop :=
  ∃ d v', v = d :: v' ∧ d.isDigit = true ∧ DigitsThen ExponentTail v'

@[simp] theorem not_decimalRest_nil : ¬ DecimalRest [] := by simp [DecimalRest]

theorem decimalRest_cons {c : Char} {v : List Char} :
    DecimalRest (c :: v) ↔ c.isDigit = true ∧ DigitsThen ExponentTail v := by
  constructor
  · intro h
    obtain ⟨d, v', heq, h⟩ := h
    obtain ⟨rfl, rfl⟩ := List.cons.inj heq
    exact h
  · intro h
    exact ⟨c, v, rfl, h⟩

theorem decimalExponent_dot {v : List Char} : DecimalExponent ('.' :: v) ↔ DecimalRest v := by
  rw [decimalExponent_iff]
  constructor
  · -- A decimal starts with the point, an exponent does not.
    intro h
    obtain ⟨a, b, heq, ⟨hds⟩, hb⟩ | h := h
    · rename_i ds
      obtain rfl := (List.cons.inj heq).2
      cases ds with
      | nil => exact absurd hds not_digits1_nil
      | cons d ds =>
        rw [digits1_cons] at hds
        exact ⟨d, ds ++ b, rfl, hds.1, ds, b, rfl, hds.2, hb⟩
    · exact nomatch h
  · intro h
    obtain ⟨d, v', rfl, hd, ds, b, rfl, hds, hb⟩ := h
    exact .inl ⟨'.' :: d :: ds, b, rfl, .dot (digits1_cons.mpr ⟨hd, hds⟩), hb⟩

theorem fractionTail_cons {c : Char} {v : List Char} :
    FractionTail (c :: v) ↔
      (c = '.' ∧ DecimalRest v) ∨ ((c = 'e' ∨ c = 'E') ∧ SignedDigits v) := by
  -- Only a decimal starts with a point, so that each case has one alternative.
  by_cases hc : c = '.'
  · subst hc
    simp [FractionTail, decimalExponent_dot]
  · have hdec : ¬ ∃ a b, c :: v = a ++ b ∧ Decimal a ∧ ExponentTail b := by
      intro h
      obtain ⟨a, b, heq, ⟨hds⟩, -⟩ := h
      exact hc (List.cons.inj heq).1
    rw [FractionTail, decimalExponent_iff, ← exponentTail_cons, or_iff_right hdec,
      or_iff_right (show ¬ (c = '.' ∧ DecimalRest v) from fun h => hc h.1)]
    exact Iff.rfl

theorem numerical_iff {v : List Char} :
    Numerical v ↔ ∃ a b, v = a ++ b ∧ StartPattern a ∧ FractionTail b := by
  constructor
  · intro h
    cases h with
    | start hv => exact ⟨v, [], by simp, hv, fractionTail_nil⟩
    | fraction hv hw => exact ⟨_, _, rfl, hv, .inr hw⟩
  · intro h
    obtain ⟨a, b, rfl, ha, rfl | hb⟩ := h
    · rw [List.append_nil]
      exact .start ha
    · exact .fraction ha hb

@[simp] theorem not_numerical_nil : ¬ Numerical [] := by
  rw [numerical_iff]
  intro h
  obtain ⟨a, b, heq, ha, -⟩ := h
  obtain ⟨rfl, -⟩ := List.append_eq_nil_iff.mp heq.symm
  exact nomatch ha

theorem numerical_cons {c : Char} {v : List Char} :
    Numerical (c :: v) ↔
      (c = '0' ∧ FractionTail v) ∨ (c.isDigit = true ∧ c ≠ '0' ∧ DigitsThen FractionTail v) := by
  rw [numerical_iff]
  constructor
  · intro h
    obtain ⟨a, b, heq, ha, hb⟩ := h
    cases ha with
    | zero =>
      obtain ⟨rfl, rfl⟩ := List.cons.inj heq
      exact .inl ⟨rfl, hb⟩
    | significant hd h0 hds =>
      obtain ⟨rfl, rfl⟩ := List.cons.inj heq
      exact .inr ⟨hd, h0, _, b, rfl, hds, hb⟩
  · intro h
    obtain ⟨rfl, hv⟩ | ⟨hd, h0, ds, b, rfl, hds, hb⟩ := h
    · exact ⟨['0'], v, rfl, .zero, hv⟩
    · exact ⟨c :: ds, b, rfl, .significant hd h0 hds, hb⟩

theorem tkNumber_cons {c : Char} {v : List Char} :
    TkNumber (c :: v) ↔ (c = '-' ∧ Numerical v) ∨ Numerical (c :: v) := by
  constructor
  · intro h
    cases h with
    | signed hv => exact .inl ⟨rfl, hv⟩
    | unsigned hv => exact .inr hv
  · intro h
    obtain ⟨rfl, hv⟩ | hv := h
    · exact .signed hv
    · exact .unsigned hv

@[simp] theorem not_tkNumber_nil : ¬ TkNumber [] := by
  intro h
  cases h with
  | unsigned hv => exact not_numerical_nil hv

/-! ## Strings -/

/-- `[0-9A-Fa-f]` -/
def isHex (c : Char) : Bool :=
  c.isDigit || ('a' ≤ c && c ≤ 'f') || ('A' ≤ c && c ≤ 'F')

/-- A control character: a code point up to U+001F. -/
def isControl (c : Char) : Bool := c.val ≤ 0x1f

/-- The one-character escapes. -/
def isEscape (c : Char) : Bool :=
  c == '"' || c == '\\' || c == '/' || c == 'b' || c == 'f' || c == 'n' || c == 'r' || c == 't'

/-- `FTK_SLASH_CONTENT ::= " | \ | / | b | f | n | r | t | u([0-9A-Fa-f]{4})` -/
inductive SlashContent : List Char → Prop where
  | escape {c : Char} (hc : isEscape c = true) : SlashContent [c]
  | unicode {hs : List Char} (hlen : hs.length = 4) (hhex : ∀ h ∈ hs, isHex h = true) :
      SlashContent ('u' :: hs)

/-- `FTK_STRING_CONTENT`: characters and escapes up to the closing quote. -/
inductive StringContent : List Char → Prop where
  | char {c : Char} {v : List Char} (hslash : c ≠ '\\') (hquote : c ≠ '"')
      (hcontrol : isControl c = false) (hv : StringContent v) : StringContent (c :: v)
  | slash {e v : List Char} (he : SlashContent e) (hv : StringContent v) :
      StringContent ('\\' :: (e ++ v))
  | quote : StringContent ['"']

/-- `TK_STRING ::= FTK_DOUBLE_QUOTE FTK_STRING_CONTENT` -/
inductive TkString : List Char → Prop where
  | quote {v : List Char} (hv : StringContent v) : TkString ('"' :: v)

@[simp] theorem not_stringContent_nil : ¬ StringContent [] := by
  intro h
  cases h

/-- After a backslash. -/
def EscapeRest (v : List Char) : Prop := ∃ e w, v = e ++ w ∧ SlashContent e ∧ StringContent w

/-- `n` hex digits followed by string content. -/
def HexThen (n : Nat) (v : List Char) : Prop :=
  ∃ hs w, v = hs ++ w ∧ hs.length = n ∧ (∀ h ∈ hs, isHex h = true) ∧ StringContent w

theorem hexThen_zero {v : List Char} : HexThen 0 v ↔ StringContent v := by
  constructor
  · intro h
    obtain ⟨hs, w, rfl, hlen, -, hw⟩ := h
    rw [List.length_eq_zero_iff.mp hlen]
    exact hw
  · intro h
    exact ⟨[], v, rfl, rfl, by simp, h⟩

@[simp] theorem not_hexThen_nil {n : Nat} : ¬ HexThen n [] := by
  intro h
  obtain ⟨hs, w, heq, -, -, hw⟩ := h
  obtain ⟨-, rfl⟩ := List.append_eq_nil_iff.mp heq.symm
  exact not_stringContent_nil hw

theorem hexThen_cons {n : Nat} {c : Char} {v : List Char} :
    HexThen (n + 1) (c :: v) ↔ isHex c = true ∧ HexThen n v := by
  constructor
  · intro h
    obtain ⟨hs, w, heq, hlen, hhex, hw⟩ := h
    cases hs with
    | nil => exact nomatch hlen
    | cons h hs =>
      obtain ⟨rfl, rfl⟩ := List.cons.inj heq
      exact ⟨hhex _ List.mem_cons_self, hs, w, rfl, Nat.succ.inj hlen,
        fun x hx => hhex x (List.mem_cons_of_mem _ hx), hw⟩
  · intro h
    obtain ⟨hc, hs, w, rfl, rfl, hhex, hw⟩ := h
    refine ⟨c :: hs, w, rfl, rfl, ?_, hw⟩
    intro x hx
    rcases List.mem_cons.mp hx with rfl | hx
    · exact hc
    · exact hhex x hx

@[simp] theorem not_escapeRest_nil : ¬ EscapeRest [] := by
  intro h
  obtain ⟨e, w, heq, -, hw⟩ := h
  obtain ⟨-, rfl⟩ := List.append_eq_nil_iff.mp heq.symm
  exact not_stringContent_nil hw

theorem escapeRest_cons {c : Char} {v : List Char} :
    EscapeRest (c :: v) ↔
      (isEscape c = true ∧ StringContent v) ∨ (c = 'u' ∧ HexThen 4 v) := by
  constructor
  · intro h
    obtain ⟨e, w, heq, he, hw⟩ := h
    cases he with
    | escape hc =>
      obtain ⟨rfl, rfl⟩ := List.cons.inj heq
      exact .inl ⟨hc, hw⟩
    | unicode hlen hhex =>
      obtain ⟨rfl, rfl⟩ := List.cons.inj heq
      exact .inr ⟨rfl, _, w, rfl, hlen, hhex, hw⟩
  · intro h
    obtain ⟨hc, hv⟩ | ⟨rfl, hs, w, rfl, hlen, hhex, hw⟩ := h
    · exact ⟨[c], v, rfl, .escape hc, hv⟩
    · exact ⟨'u' :: hs, w, rfl, .unicode hlen hhex, hw⟩

theorem stringContent_cons {c : Char} {v : List Char} :
    StringContent (c :: v) ↔
      (c = '"' ∧ v = []) ∨ (c = '\\' ∧ EscapeRest v) ∨
      (c ≠ '"' ∧ c ≠ '\\' ∧ isControl c = false ∧ StringContent v) := by
  constructor
  · intro h
    cases h with
    | char hslash hquote hcontrol hv => exact .inr (.inr ⟨hquote, hslash, hcontrol, hv⟩)
    | slash he hv => exact .inr (.inl ⟨rfl, _, _, rfl, he, hv⟩)
    | quote => exact .inl ⟨rfl, rfl⟩
  · intro h
    obtain ⟨rfl, rfl⟩ | ⟨rfl, e, w, rfl, he, hw⟩ | ⟨hquote, hslash, hcontrol, hv⟩ := h
    · exact .quote
    · exact .slash he hw
    · exact .char hslash hquote hcontrol hv

@[simp] theorem tkString_cons {c : Char} {v : List Char} :
    TkString (c :: v) ↔ c = '"' ∧ StringContent v := by
  constructor
  · intro h
    obtain ⟨hv⟩ := h
    exact ⟨rfl, hv⟩
  · intro h
    obtain ⟨rfl, hv⟩ := h
    exact .quote hv

@[simp] theorem not_tkString_nil : ¬ TkString [] := by
  intro h
  cases h

/-! ## Tokens -/

/-- The one text of a punctuation or literal token. -/
def fixedText : TokenType → Option (List Char)
  | .tkTrue => some ['t', 'r', 'u', 'e']
  | .tkFalse => some ['f', 'a', 'l', 's', 'e']
  | .tkNull => some ['n', 'u', 'l', 'l']
  | .tkOpenBrace => some ['{']
  | .tkCloseBrace => some ['}']
  | .tkOpenBracket => some ['[']
  | .tkCloseBracket => some [']']
  | .tkColon => some [':']
  | .tkComma => some [',']
  | _ => none

/-- The texts of each token type. `END_OF_INPUT` and `TK_ERROR` are no JSON tokens. -/
def IsToken (kind : TokenType) (w : List Char) : Prop :=
  match kind with
  | .tkString => TkString w
  | .tkNumber => TkNumber w
  | kind => fixedText kind = some w

/-- A token of the JSON grammar with its text. -/
@[ext]
structure Lexeme where
  kind : TokenType
  text : List Char
  valid : IsToken kind text

/-- `u` is the beginning of a token that is not itself a token. -/
def Unfinished (u : List Char) : Prop :=
  u ≠ [] ∧ Munch.ProperPrefix IsToken u ∧ ∀ kind, ¬ IsToken kind u

theorem tkNumber_one : TkNumber ['1'] :=
  tkNumber_cons.mpr (.inr (numerical_cons.mpr
    (.inr ⟨by decide, by decide, digitsThen_nil.mpr fractionTail_nil⟩)))

/-- A string that is not closed. -/
theorem unfinished_quote : Unfinished ['"', 'a'] := by
  refine ⟨by simp, ⟨.tkString, '"', [], ?_⟩, ?_⟩
  · exact .quote (.char (by decide) (by decide) rfl .quote)
  · intro kind
    cases kind <;> simp [IsToken, fixedText, stringContent_cons, tkNumber_cons, numerical_cons]

end CcJson
