import CcJson.Native.Parser
import CcJson.ForStd.Grammar

/-!
# The LL(1) grammar

The grammar over token types of `docs/SOLUTION.md`, and what each of its sentential
forms can start with. A state on the stack of the parser stands for the rest of a
production (`ParserState.form`), the whole stack for a sentential form.

## Key results

- `yields_value_cons`, …, `yields_valueListTail_cons`: the productions by first token
- `exists_yields`: the form of every stack derives some tokens
-/

namespace CcJson

open ContextFreeGrammar

/-- The nonterminals of the LL(1) grammar. -/
inductive NonTerminal where
  | program
  | value
  | object
  | objectBody
  | memberListTail
  | array
  | arrayBody
  | valueListTail
  deriving DecidableEq, Repr

/-- A symbol of the grammar. -/
abbrev Sym := Symbol TokenType NonTerminal

/-- A terminal of the grammar. -/
abbrev tk (type : TokenType) : Sym := .terminal type

/-- A nonterminal of the grammar. -/
abbrev nt (n : NonTerminal) : Sym := .nonterminal n

/-- The productions, in the order of the document. -/
def productions : List (ContextFreeRule TokenType NonTerminal) := [
  ⟨.program, [nt .value]⟩,
  ⟨.value, [tk .tkString]⟩,
  ⟨.value, [tk .tkNumber]⟩,
  ⟨.value, [tk .tkTrue]⟩,
  ⟨.value, [tk .tkFalse]⟩,
  ⟨.value, [tk .tkNull]⟩,
  ⟨.value, [nt .object]⟩,
  ⟨.value, [nt .array]⟩,
  ⟨.object, [tk .tkOpenBrace, nt .objectBody]⟩,
  ⟨.objectBody, [tk .tkCloseBrace]⟩,
  ⟨.objectBody, [tk .tkString, tk .tkColon, nt .value, nt .memberListTail, tk .tkCloseBrace]⟩,
  ⟨.memberListTail, [tk .tkComma, tk .tkString, tk .tkColon, nt .value, nt .memberListTail]⟩,
  ⟨.memberListTail, []⟩,
  ⟨.array, [tk .tkOpenBracket, nt .arrayBody]⟩,
  ⟨.arrayBody, [tk .tkCloseBracket]⟩,
  ⟨.arrayBody, [nt .value, nt .valueListTail, tk .tkCloseBracket]⟩,
  ⟨.valueListTail, [tk .tkComma, nt .value, nt .valueListTail]⟩,
  ⟨.valueListTail, []⟩]

/-- The LL(1) grammar. -/
abbrev grammar : ContextFreeGrammar TokenType where
  NT := NonTerminal
  initial := .program
  rules := productions.toFinset

/-- A sequence of token types that is derivable from `<value>`. -/
def IsValue (ts : List TokenType) : Prop :=
  grammar.Derives [.nonterminal .value] (ts.map .terminal)

/-- The words derived from a sentential form. -/
abbrev Yields (form : List Sym) (ts : List TokenType) : Prop := grammar.Yields form ts

theorem isValue_iff {ts : List TokenType} : IsValue ts ↔ Yields [nt .value] ts :=
  yields_iff_derives.symm

/-! ## Productions by first token -/

section Productions

variable {form : List Sym} {k : TokenType} {ts : List TokenType}

@[simp] theorem yields_form_nil : Yields [] ts ↔ ts = [] := yields_nil

@[simp] theorem not_yields_tk_nil {t : TokenType} : ¬ Yields (tk t :: form) [] :=
  not_yields_terminal_nil

@[simp] theorem yields_tk_cons {t : TokenType} :
    Yields (tk t :: form) (k :: ts) ↔ k = t ∧ Yields form ts := yields_terminal_cons

/-- A nonterminal is replaced by one of its productions. -/
private theorem yields_production {n : NonTerminal} :
    Yields (nt n :: form) ts ↔
      ∃ r ∈ productions, r.input = n ∧ Yields (r.output ++ form) ts := by
  rw [Yields, yields_nonterminal]
  simp only [List.mem_toFinset]

private theorem yields_object :
    Yields (nt .object :: form) ts ↔ Yields (tk .tkOpenBrace :: nt .objectBody :: form) ts := by
  rw [yields_production]
  simp [productions]

private theorem yields_array :
    Yields (nt .array :: form) ts ↔ Yields (tk .tkOpenBracket :: nt .arrayBody :: form) ts := by
  rw [yields_production]
  simp [productions]

private theorem yields_value :
    Yields (nt .value :: form) ts ↔
      Yields (tk .tkString :: form) ts ∨ Yields (tk .tkNumber :: form) ts ∨
      Yields (tk .tkTrue :: form) ts ∨ Yields (tk .tkFalse :: form) ts ∨
      Yields (tk .tkNull :: form) ts ∨ Yields (tk .tkOpenBrace :: nt .objectBody :: form) ts ∨
      Yields (tk .tkOpenBracket :: nt .arrayBody :: form) ts := by
  rw [yields_production]
  simp [productions, yields_object, yields_array]

private theorem yields_objectBody :
    Yields (nt .objectBody :: form) ts ↔
      Yields (tk .tkCloseBrace :: form) ts ∨
      Yields (tk .tkString :: tk .tkColon :: nt .value :: nt .memberListTail ::
        tk .tkCloseBrace :: form) ts := by
  rw [yields_production]
  simp [productions]

private theorem yields_memberListTail :
    Yields (nt .memberListTail :: form) ts ↔
      Yields (tk .tkComma :: tk .tkString :: tk .tkColon :: nt .value :: nt .memberListTail ::
        form) ts ∨ Yields form ts := by
  rw [yields_production]
  simp [productions]

private theorem yields_arrayBody :
    Yields (nt .arrayBody :: form) ts ↔
      Yields (tk .tkCloseBracket :: form) ts ∨
      Yields (nt .value :: nt .valueListTail :: tk .tkCloseBracket :: form) ts := by
  rw [yields_production]
  simp [productions]

private theorem yields_valueListTail :
    Yields (nt .valueListTail :: form) ts ↔
      Yields (tk .tkComma :: nt .value :: nt .valueListTail :: form) ts ∨ Yields form ts := by
  rw [yields_production]
  simp [productions]

/-- `<value>` starts with a scalar or an opening bracket. -/
theorem yields_value_cons :
    Yields (nt .value :: form) (k :: ts) ↔
      match k with
      | .tkString | .tkNumber | .tkTrue | .tkFalse | .tkNull => Yields form ts
      | .tkOpenBrace => Yields (nt .objectBody :: form) ts
      | .tkOpenBracket => Yields (nt .arrayBody :: form) ts
      | _ => False := by
  rw [yields_value]
  cases k <;> simp

theorem yields_objectBody_cons :
    Yields (nt .objectBody :: form) (k :: ts) ↔
      match k with
      | .tkCloseBrace => Yields form ts
      | .tkString =>
        Yields (tk .tkColon :: nt .value :: nt .memberListTail :: tk .tkCloseBrace :: form) ts
      | _ => False := by
  rw [yields_objectBody]
  cases k <;> simp

/-- After a member: another one, or the end of the object. -/
theorem yields_memberListTail_cons :
    Yields (nt .memberListTail :: tk .tkCloseBrace :: form) (k :: ts) ↔
      match k with
      | .tkCloseBrace => Yields form ts
      | .tkComma =>
        Yields (tk .tkString :: tk .tkColon :: nt .value :: nt .memberListTail ::
          tk .tkCloseBrace :: form) ts
      | _ => False := by
  rw [yields_memberListTail]
  cases k <;> simp

theorem yields_arrayBody_cons :
    Yields (nt .arrayBody :: form) (k :: ts) ↔
      match k with
      | .tkCloseBracket => Yields form ts
      | k => Yields (nt .value :: nt .valueListTail :: tk .tkCloseBracket :: form) (k :: ts) := by
  rw [yields_arrayBody]
  cases k <;> simp [yields_value_cons]

/-- The body of an array that is not empty. -/
theorem yields_arrayBody_of_value
    (h : Yields (nt .value :: nt .valueListTail :: tk .tkCloseBracket :: form) ts) :
    Yields (nt .arrayBody :: form) ts := yields_arrayBody.mpr (.inr h)

/-- After an element: another one, or the end of the array. -/
theorem yields_valueListTail_cons :
    Yields (nt .valueListTail :: tk .tkCloseBracket :: form) (k :: ts) ↔
      match k with
      | .tkCloseBracket => Yields form ts
      | .tkComma => Yields (nt .value :: nt .valueListTail :: tk .tkCloseBracket :: form) ts
      | _ => False := by
  rw [yields_valueListTail]
  cases k <;> simp

@[simp] theorem not_yields_value_nil : ¬ Yields (nt .value :: form) [] := by
  simp [yields_value]

@[simp] theorem not_yields_objectBody_nil : ¬ Yields (nt .objectBody :: form) [] := by
  simp [yields_objectBody]

@[simp] theorem not_yields_memberListTail_nil :
    ¬ Yields (nt .memberListTail :: tk .tkCloseBrace :: form) [] := by
  simp [yields_memberListTail]

@[simp] theorem not_yields_arrayBody_nil : ¬ Yields (nt .arrayBody :: form) [] := by
  simp [yields_arrayBody]

@[simp] theorem not_yields_valueListTail_nil :
    ¬ Yields (nt .valueListTail :: tk .tkCloseBracket :: form) [] := by
  simp [yields_valueListTail]

end Productions

/-! ## The stack as a sentential form -/

/-- What a state of the parser expects, as the rest of a production. -/
def ParserState.form : ParserState → List Sym
  | .expectValue => [nt .value]
  | .expectObjectKey => [nt .objectBody]
  | .expectObjectColon => [tk .tkColon, nt .value, nt .memberListTail, tk .tkCloseBrace]
  | .expectObjectValue => [nt .value, nt .memberListTail, tk .tkCloseBrace]
  | .expectObjectComma => [nt .memberListTail, tk .tkCloseBrace]
  | .expectArrayValue => [nt .arrayBody]
  | .expectArrayComma => [nt .valueListTail, tk .tkCloseBracket]

/-- What the states below the back of the stack expect together. -/
def stackForm (stack : List ParserState) : List Sym := stack.flatMap ParserState.form

@[simp] theorem stackForm_nil : stackForm [] = [] := rfl

@[simp] theorem stackForm_cons (s : ParserState) (stack : List ParserState) :
    stackForm (s :: stack) = s.form ++ stackForm stack := rfl

/-- What the state at the back of the stack expects, when `next` is the next token. After
    a comma the parser has looked at the next token, and an empty object or array is
    no longer possible. -/
inductive Expects (next : Option TokenType) : ParserState → List Sym → Prop where
  | form (s : ParserState) : Expects next s s.form
  | member (h : next = some .tkString) : Expects next .expectObjectKey
      [tk .tkString, tk .tkColon, nt .value, nt .memberListTail, tk .tkCloseBrace]
  | element (h : next ≠ some .tkCloseBracket) : Expects next .expectArrayValue
      [nt .value, nt .valueListTail, tk .tkCloseBracket]

/-- What the whole stack expects, when `next` is the next token. -/
inductive StackExpects (next : Option TokenType) : List ParserState → List Sym → Prop where
  | nil : StackExpects next [] []
  | cons {s : ParserState} {form : List Sym} (stack : List ParserState)
      (h : Expects next s form) : StackExpects next (s :: stack) (form ++ stackForm stack)

theorem stackExpects_stackForm (next : Option TokenType) (stack : List ParserState) :
    StackExpects next stack (stackForm stack) := by
  cases stack with
  | nil => exact .nil
  | cons s stack => exact .cons stack (.form s)

/-- No state expects nothing. -/
theorem not_yields_nil {next : Option TokenType} {s : ParserState} {form rest : List Sym}
    (h : Expects next s form) : ¬ Yields (form ++ rest) [] := by
  cases h with
  | form => cases s <;> simp [ParserState.form]
  | member _ => simp
  | element _ => simp

/-- Every sentential form of a stack derives some tokens. -/
theorem exists_yields {next : Option TokenType} {stack : List ParserState} {form : List Sym}
    (h : StackExpects next stack form) : ∃ ts, Yields form ts := by
  -- A shortest continuation for each state, and then for the whole stack.
  have hstate : ∀ s : ParserState, ∃ ts, Yields s.form ts := by
    intro s
    cases s with
    | expectValue => exact ⟨[.tkNull], by simp [ParserState.form, yields_value_cons]⟩
    | expectObjectKey => exact ⟨[.tkCloseBrace], by simp [ParserState.form, yields_objectBody_cons]⟩
    | expectObjectColon =>
      exact ⟨[.tkColon, .tkNull, .tkCloseBrace], by
        simp [ParserState.form, yields_value_cons, yields_memberListTail_cons]⟩
    | expectObjectValue =>
      exact ⟨[.tkNull, .tkCloseBrace], by
        simp [ParserState.form, yields_value_cons, yields_memberListTail_cons]⟩
    | expectObjectComma =>
      exact ⟨[.tkCloseBrace], by simp [ParserState.form, yields_memberListTail_cons]⟩
    | expectArrayValue =>
      exact ⟨[.tkCloseBracket], by simp [ParserState.form, yields_arrayBody_cons]⟩
    | expectArrayComma =>
      exact ⟨[.tkCloseBracket], by simp [ParserState.form, yields_valueListTail_cons]⟩
  have hstack : ∀ stack, ∃ ts, Yields (stackForm stack) ts := by
    intro stack
    induction stack with
    | nil => exact ⟨[], .nil⟩
    | cons s stack ih =>
      obtain ⟨ts, hts⟩ := hstate s
      obtain ⟨us, hus⟩ := ih
      exact ⟨ts ++ us, yields_append.mpr ⟨ts, us, rfl, hts, hus⟩⟩
  cases h with
  | nil => exact ⟨[], .nil⟩
  | cons stack hs =>
    obtain ⟨us, hus⟩ := hstack stack
    cases hs with
    | form => exact hstack (_ :: stack)
    -- after a comma: a member or an element has to come before the closing bracket
    | member _ =>
      obtain ⟨ts, hts⟩ := hstate .expectObjectColon
      refine ⟨.tkString :: (ts ++ us), yields_tk_cons.mpr ⟨rfl, ?_⟩⟩
      exact yields_append.mpr ⟨ts, us, rfl, hts, hus⟩
    | element _ =>
      obtain ⟨ts, hts⟩ := hstate .expectArrayComma
      refine ⟨.tkNull :: (ts ++ us), yields_value_cons.mpr ?_⟩
      exact yields_append.mpr ⟨ts, us, rfl, hts, hus⟩

end CcJson
