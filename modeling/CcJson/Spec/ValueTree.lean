import CcJson.Spec.Tokens
import CcJson.Spec.ParserCorrect
import Mathlib.Data.List.Chain

/-!
# Value trees

The trees that the grammar describes, with the spelling of every string and number.
The token sequences of the trees are those derived from `<value>`, and no token
sequence of a tree continues another one.

## Key results

- `isValue_iff_tree`: derivations of `<value>` are value trees
- `IsValue.eq_nil`: a value is not continued by a longer one
- `JsonValue.lexemes_isChain`: two numbers never stand next to each other
-/

namespace CcJson

open ContextFreeGrammar

/-! ## Tokens of one kind -/

/-- A text of the tokens of one kind. -/
structure Spelling (kind : TokenType) where
  text : List Char
  valid : IsToken kind text

/-- The token with a given spelling. -/
def Spelling.lexeme {kind : TokenType} (s : Spelling kind) : Lexeme := ⟨kind, s.text, s.valid⟩

theorem Lexeme.exists_spelling {l : Lexeme} {kind : TokenType} (h : l.kind = kind) :
    ∃ s : Spelling kind, s.lexeme = l := by
  subst h
  exact ⟨⟨l.text, l.valid⟩, rfl⟩

theorem isToken_of_fixedText {kind : TokenType} {w : List Char} (h : fixedText kind = some w) :
    IsToken kind w := by
  cases kind <;> first | exact h | exact nomatch h

theorem fixedText_of_isToken {kind : TokenType} {w : List Char} (hw : IsToken kind w)
    (h : (fixedText kind).isSome = true) : fixedText kind = some w := by
  cases kind <;> first | exact hw | exact nomatch h

/-- The token of a kind that has one text only. -/
def Lexeme.fixed (kind : TokenType) (h : (fixedText kind).isSome = true) : Lexeme :=
  ⟨kind, (fixedText kind).get h, isToken_of_fixedText (Option.some_get h).symm⟩

theorem Lexeme.eq_fixed {l : Lexeme} {kind : TokenType} (h : (fixedText kind).isSome = true)
    (hl : l.kind = kind) : l = .fixed kind h := by
  obtain ⟨kind', text, valid⟩ := l
  obtain rfl : kind' = kind := hl
  have htext : text = (fixedText kind').get h :=
    (Option.get_of_eq_some h (fixedText_of_isToken valid h)).symm
  subst htext
  rfl

/-! ## Trees -/

/-- A JSON value as it is written. -/
inductive JsonValue where
  | string (s : Spelling .tkString)
  | number (n : Spelling .tkNumber)
  | true
  | false
  | null
  | object (members : List (Spelling .tkString × JsonValue))
  | array (elements : List JsonValue)

mutual

/-- The tokens of a value. -/
def JsonValue.lexemes : JsonValue → List Lexeme
  | .string s => [s.lexeme]
  | .number n => [n.lexeme]
  | .true => [.fixed .tkTrue rfl]
  | .false => [.fixed .tkFalse rfl]
  | .null => [.fixed .tkNull rfl]
  | .object [] => [.fixed .tkOpenBrace rfl, .fixed .tkCloseBrace rfl]
  | .object ((key, v) :: members) =>
    .fixed .tkOpenBrace rfl :: key.lexeme :: .fixed .tkColon rfl ::
      (v.lexemes ++ memberLexemes members)
  | .array [] => [.fixed .tkOpenBracket rfl, .fixed .tkCloseBracket rfl]
  | .array (v :: elements) => .fixed .tkOpenBracket rfl :: (v.lexemes ++ elementLexemes elements)
termination_by structural v => v

/-- The tokens of further members, up to the closing brace. -/
def memberLexemes : List (Spelling .tkString × JsonValue) → List Lexeme
  | [] => [.fixed .tkCloseBrace rfl]
  | (key, v) :: members =>
    .fixed .tkComma rfl :: key.lexeme :: .fixed .tkColon rfl :: (v.lexemes ++ memberLexemes members)
termination_by structural members => members

/-- The tokens of further elements, up to the closing bracket. -/
def elementLexemes : List JsonValue → List Lexeme
  | [] => [.fixed .tkCloseBracket rfl]
  | v :: elements => .fixed .tkComma rfl :: (v.lexemes ++ elementLexemes elements)
termination_by structural elements => elements

end

/-- The token types of a token sequence. -/
def kinds (ls : List Lexeme) : List TokenType := ls.map Lexeme.kind

@[simp] theorem kinds_nil : kinds [] = [] := rfl

@[simp] theorem kinds_cons (l : Lexeme) (ls : List Lexeme) : kinds (l :: ls) = l.kind :: kinds ls :=
  rfl

@[simp] theorem kinds_append (ls ms : List Lexeme) : kinds (ls ++ ms) = kinds ls ++ kinds ms :=
  List.map_append

@[simp] theorem Lexeme.kind_fixed (kind : TokenType) (h : (fixedText kind).isSome = true) :
    (Lexeme.fixed kind h).kind = kind := rfl

@[simp] theorem Spelling.kind_lexeme {kind : TokenType} (s : Spelling kind) :
    s.lexeme.kind = kind := rfl

/-! ## Trees are derived -/

mutual

/-- A tree is derived from `<value>`, whatever comes after it. -/
theorem JsonValue.yields {form : List Sym} {ts : List TokenType} (h : Yields form ts) :
    ∀ v : JsonValue, Yields (nt .value :: form) (kinds v.lexemes ++ ts)
  | .string _ | .number _ | .true | .false | .null => yields_value_cons.mpr h
  | .object [] => yields_value_cons.mpr (yields_objectBody_cons.mpr h)
  | .object ((_, v) :: members) => by
    simp only [JsonValue.lexemes, kinds_cons, kinds_append, List.cons_append, List.append_assoc]
    refine yields_value_cons.mpr (yields_objectBody_cons.mpr (yields_tk_cons.mpr ⟨rfl, ?_⟩))
    exact JsonValue.yields (memberLexemes_yields h members) v
  | .array [] => yields_value_cons.mpr (yields_arrayBody_cons.mpr h)
  | .array (v :: elements) => by
    simp only [JsonValue.lexemes, kinds_cons, kinds_append, List.cons_append, List.append_assoc]
    refine yields_value_cons.mpr (yields_arrayBody_of_value ?_)
    exact JsonValue.yields (elementLexemes_yields h elements) v

theorem memberLexemes_yields {form : List Sym} {ts : List TokenType} (h : Yields form ts) :
    ∀ members : List (Spelling .tkString × JsonValue),
      Yields (nt .memberListTail :: tk .tkCloseBrace :: form) (kinds (memberLexemes members) ++ ts)
  | [] => yields_memberListTail_cons.mpr h
  | (_, v) :: members => by
    simp only [memberLexemes, kinds_cons, kinds_append, List.cons_append, List.append_assoc]
    refine yields_memberListTail_cons.mpr
      (yields_tk_cons.mpr ⟨rfl, yields_tk_cons.mpr ⟨rfl, ?_⟩⟩)
    exact JsonValue.yields (memberLexemes_yields h members) v

theorem elementLexemes_yields {form : List Sym} {ts : List TokenType} (h : Yields form ts) :
    ∀ elements : List JsonValue, Yields (nt .valueListTail :: tk .tkCloseBracket :: form)
      (kinds (elementLexemes elements) ++ ts)
  | [] => yields_valueListTail_cons.mpr h
  | v :: elements => by
    simp only [elementLexemes, kinds_cons, kinds_append, List.cons_append, List.append_assoc]
    exact yields_valueListTail_cons.mpr (JsonValue.yields (elementLexemes_yields h elements) v)

end

/-! ## Derivations are trees -/

/-- What a symbol of the grammar stands for. The tails of lists stand for further members
    and elements without the closing bracket. -/
def Denotes : Sym → List Lexeme → Prop
  | .terminal kind, ls => ∃ l : Lexeme, ls = [l] ∧ l.kind = kind
  | .nonterminal .program, ls => ∃ v : JsonValue, v.lexemes = ls
  | .nonterminal .value, ls => ∃ v : JsonValue, v.lexemes = ls
  | .nonterminal .object, ls => ∃ members, (JsonValue.object members).lexemes = ls
  | .nonterminal .objectBody, ls =>
    ∃ members, (JsonValue.object members).lexemes = .fixed .tkOpenBrace rfl :: ls
  | .nonterminal .memberListTail, ls =>
    ∃ members, memberLexemes members = ls ++ [.fixed .tkCloseBrace rfl]
  | .nonterminal .array, ls => ∃ elements, (JsonValue.array elements).lexemes = ls
  | .nonterminal .arrayBody, ls =>
    ∃ elements, (JsonValue.array elements).lexemes = .fixed .tkOpenBracket rfl :: ls
  | .nonterminal .valueListTail, ls =>
    ∃ elements, elementLexemes elements = ls ++ [.fixed .tkCloseBracket rfl]

/-- What a sentential form stands for. -/
abbrev FormDenotes (form : List Sym) (ls : List Lexeme) : Prop :=
  FormMeans (g := grammar) Denotes form ls

private theorem formDenotes_tk {kind : TokenType} {form : List Sym} {ls : List Lexeme}
    (h : FormDenotes (tk kind :: form) ls) :
    ∃ (s : Spelling kind) (vs : List Lexeme), ls = s.lexeme :: vs ∧ FormDenotes form vs := by
  obtain ⟨us, vs, rfl, ⟨l, rfl, hl⟩, hvs⟩ := h
  obtain ⟨s, rfl⟩ := Lexeme.exists_spelling hl
  exact ⟨s, vs, rfl, hvs⟩

private theorem formDenotes_fixed {kind : TokenType} (hkind : (fixedText kind).isSome = true)
    {form : List Sym} {ls : List Lexeme} (h : FormDenotes (tk kind :: form) ls) :
    ∃ vs, ls = .fixed kind hkind :: vs ∧ FormDenotes form vs := by
  obtain ⟨us, vs, rfl, ⟨l, rfl, hl⟩, hvs⟩ := h
  rw [Lexeme.eq_fixed hkind hl]
  exact ⟨vs, rfl, hvs⟩

private theorem formDenotes_last {x : Sym} {ls : List Lexeme} (h : FormDenotes [x] ls) :
    Denotes x ls := by
  obtain ⟨us, vs, rfl, hx, rfl⟩ := h
  rwa [List.append_nil]

/-- A member and further ones, in a form that goes on. -/
private theorem formDenotes_member {form : List Sym} {ls : List Lexeme}
    (h : FormDenotes (tk .tkString :: tk .tkColon :: nt .value :: nt .memberListTail :: form) ls) :
    ∃ (key : Spelling .tkString) (v : JsonValue) (members : _) (us vs : List Lexeme),
      ls = key.lexeme :: .fixed .tkColon rfl :: (v.lexemes ++ (us ++ vs)) ∧
      memberLexemes members = us ++ [.fixed .tkCloseBrace rfl] ∧ FormDenotes form vs := by
  obtain ⟨key, _, rfl, hcolon⟩ := formDenotes_tk h
  obtain ⟨_, rfl, hvalue⟩ := formDenotes_fixed rfl hcolon
  obtain ⟨_, _, rfl, ⟨v, rfl⟩, us, vs, rfl, ⟨members, hmembers⟩, hvs⟩ := hvalue
  exact ⟨key, v, members, us, vs, rfl, hmembers, hvs⟩

/-- An element and further ones, in a form that goes on. -/
private theorem formDenotes_element {form : List Sym} {ls : List Lexeme}
    (h : FormDenotes (nt .value :: nt .valueListTail :: form) ls) :
    ∃ (v : JsonValue) (elements : _) (us vs : List Lexeme), ls = v.lexemes ++ (us ++ vs) ∧
      elementLexemes elements = us ++ [.fixed .tkCloseBracket rfl] ∧ FormDenotes form vs := by
  obtain ⟨_, _, rfl, ⟨v, rfl⟩, us, vs, rfl, ⟨elements, helements⟩, hvs⟩ := h
  exact ⟨v, elements, us, vs, rfl, helements, hvs⟩

/-- Every production is true of what its symbols stand for. -/
private theorem denotes_of_production {r : ContextFreeRule TokenType NonTerminal}
    (hr : r ∈ productions) {ls : List Lexeme} (h : FormDenotes r.output ls) :
    Denotes (nt r.input) ls := by
  simp only [productions, List.mem_cons, List.not_mem_nil, or_false] at hr
  rcases hr with rfl | rfl | rfl | rfl | rfl | rfl | rfl | rfl | rfl | rfl | rfl | rfl | rfl |
    rfl | rfl | rfl | rfl | rfl
  · exact formDenotes_last h
  -- scalars
  · obtain ⟨s, _, rfl, rfl⟩ := formDenotes_tk h
    exact ⟨.string s, rfl⟩
  · obtain ⟨n, _, rfl, rfl⟩ := formDenotes_tk h
    exact ⟨.number n, rfl⟩
  · obtain ⟨_, rfl, rfl⟩ := formDenotes_fixed rfl h
    exact ⟨.true, rfl⟩
  · obtain ⟨_, rfl, rfl⟩ := formDenotes_fixed rfl h
    exact ⟨.false, rfl⟩
  · obtain ⟨_, rfl, rfl⟩ := formDenotes_fixed rfl h
    exact ⟨.null, rfl⟩
  · obtain ⟨members, hmembers⟩ := formDenotes_last h
    exact ⟨.object members, hmembers⟩
  · obtain ⟨elements, helements⟩ := formDenotes_last h
    exact ⟨.array elements, helements⟩
  -- objects
  · obtain ⟨_, rfl, hbody⟩ := formDenotes_fixed rfl h
    obtain ⟨body, hbody⟩ := formDenotes_last hbody
    exact ⟨body, hbody⟩
  · obtain ⟨_, rfl, rfl⟩ := formDenotes_fixed rfl h
    exact ⟨[], rfl⟩
  · obtain ⟨key, v, members, us, vs, rfl, hmembers, hclose⟩ := formDenotes_member h
    obtain ⟨_, rfl, rfl⟩ := formDenotes_fixed rfl hclose
    refine ⟨(key, v) :: members, ?_⟩
    rw [JsonValue.lexemes, hmembers]
  · obtain ⟨_, rfl, hmember⟩ := formDenotes_fixed rfl h
    obtain ⟨key, v, members, us, vs, rfl, hmembers, rfl⟩ := formDenotes_member hmember
    refine ⟨(key, v) :: members, ?_⟩
    simp [memberLexemes, hmembers]
  · obtain rfl := h
    exact ⟨[], rfl⟩
  -- arrays
  · obtain ⟨_, rfl, hbody⟩ := formDenotes_fixed rfl h
    obtain ⟨body, hbody⟩ := formDenotes_last hbody
    exact ⟨body, hbody⟩
  · obtain ⟨_, rfl, rfl⟩ := formDenotes_fixed rfl h
    exact ⟨[], rfl⟩
  · obtain ⟨v, elements, us, vs, rfl, helements, hclose⟩ := formDenotes_element h
    obtain ⟨_, rfl, rfl⟩ := formDenotes_fixed rfl hclose
    refine ⟨v :: elements, ?_⟩
    rw [JsonValue.lexemes, helements]
  · obtain ⟨_, rfl, helement⟩ := formDenotes_fixed rfl h
    obtain ⟨v, elements, us, vs, rfl, helements, rfl⟩ := formDenotes_element helement
    refine ⟨v :: elements, ?_⟩
    simp [elementLexemes, helements]
  · obtain rfl := h
    exact ⟨[], rfl⟩

/-- The token sequences derived from `<value>` are those of value trees. -/
theorem isValue_iff_tree {ls : List Lexeme} :
    IsValue (kinds ls) ↔ ∃ v : JsonValue, v.lexemes = ls := by
  rw [isValue_iff]
  constructor
  · intro h
    -- A form that is derived stands for what its symbols stand for, production by production.
    refine formDenotes_last (Yields.means (fun l => ⟨l, rfl, rfl⟩) (fun r hr ls => ?_) h)
    exact denotes_of_production (List.mem_toFinset.mp hr)
  · intro h
    obtain ⟨v, rfl⟩ := h
    have h := v.yields .nil
    rwa [List.append_nil] at h

/-! ## No value continues another one -/

/-- Neither errors nor the end of the input are part of a value. -/
theorem IsValue.not_mem {ts : List TokenType} (h : IsValue ts) {k : TokenType}
    (hk : k = .tkError ∨ k = .endOfInput) : k ∉ ts := by
  intro hmem
  rcases (isValue_iff.mp h).mem_terminal hmem with hform | ⟨r, hr, houtput⟩
  · simp at hform
  · have hproductions : ∀ r ∈ productions, tk k ∉ r.output := by
      rcases hk with rfl | rfl <;> decide
    exact hproductions r (List.mem_toFinset.mp hr) houtput

/-- A value is not continued by a longer one: the parser has emptied its stack. -/
theorem IsValue.eq_nil {ts us : List TokenType} (h : IsValue ts) (h' : IsValue (ts ++ us)) :
    us = [] := by
  -- Run the parser on `ts`: it empties its stack, after which its form derives nothing more.
  have hdelivers : Delivers (Script.mk ts) ts (.eof (Script.mk [])) :=
    delivers_script fun k hk hend => h.not_mem (.inr hend) hk
  have hends := Parser.loop_spec 0
    (p := (Parser.new (Tokenizer.new (Script.mk ts))).push .expectValue) rfl
    (.fresh rfl hdelivers) (stackExpects_stackForm ts.head? [.expectValue])
  rw [isValue_iff] at h h'
  generalize Run.loop Parser.parseBody (ts.length + 2 + 0)
    ((Parser.new (Tokenizer.new (Script.mk ts))).push .expectValue) = r at hends
  cases hends with
  | emptied done hts _ _ hform =>
    subst hts
    obtain rfl := (hform _).mp h
    rw [List.append_nil] at h'
    exact (hform us).mp h'
  | failed hfails =>
    cases hfails with
    | refused seen hts _ _ _ hrefused =>
      subst hts
      exact absurd h (hrefused _)
    | exhausted _ _ _ _ hincomplete => exact absurd h hincomplete
    | thrown hending => exact nomatch hending

/-! ## Neighbours -/

/-- Not both tokens are numbers. -/
def Apart (l m : Lexeme) : Prop := l.kind = .tkNumber → m.kind ≠ .tkNumber

private theorem isChain_cons {l : Lexeme} {ls : List Lexeme} (hl : l.kind ≠ .tkNumber)
    (h : ls.IsChain Apart) : (l :: ls).IsChain Apart :=
  List.isChain_cons.mpr ⟨fun _ _ hnumber => absurd hnumber hl, h⟩

private theorem head_memberLexemes (members : List (Spelling .tkString × JsonValue))
    (ls : List Lexeme) : ∀ m ∈ (memberLexemes members ++ ls).head?, m.kind ≠ .tkNumber := by
  cases members <;> rintro m ⟨⟩ <;> exact nofun

private theorem head_elementLexemes (elements : List JsonValue) (ls : List Lexeme) :
    ∀ m ∈ (elementLexemes elements ++ ls).head?, m.kind ≠ .tkNumber := by
  cases elements <;> rintro m ⟨⟩ <;> exact nofun

mutual

/-- A value keeps numbers apart, if it is not followed by a number. -/
theorem JsonValue.isChain {ls : List Lexeme} (h : ls.IsChain Apart)
    (hhead : ∀ m ∈ ls.head?, m.kind ≠ .tkNumber) :
    ∀ v : JsonValue, (v.lexemes ++ ls).IsChain Apart
  | .string _ | .true | .false | .null => isChain_cons nofun h
  | .number _ => List.isChain_cons.mpr ⟨fun m hm _ => hhead m hm, h⟩
  | .object [] => isChain_cons nofun (isChain_cons nofun h)
  | .object ((_, v) :: members) => by
    simp only [JsonValue.lexemes, List.cons_append, List.append_assoc]
    refine isChain_cons nofun (isChain_cons nofun (isChain_cons nofun ?_))
    exact JsonValue.isChain (memberLexemes_isChain h members) (head_memberLexemes members ls) v
  | .array [] => isChain_cons nofun (isChain_cons nofun h)
  | .array (v :: elements) => by
    simp only [JsonValue.lexemes, List.cons_append, List.append_assoc]
    refine isChain_cons nofun ?_
    exact JsonValue.isChain (elementLexemes_isChain h elements) (head_elementLexemes elements ls) v

theorem memberLexemes_isChain {ls : List Lexeme} (h : ls.IsChain Apart) :
    ∀ members : List (Spelling .tkString × JsonValue), (memberLexemes members ++ ls).IsChain Apart
  | [] => isChain_cons nofun h
  | (_, v) :: members => by
    simp only [memberLexemes, List.cons_append, List.append_assoc]
    refine isChain_cons nofun (isChain_cons nofun (isChain_cons nofun ?_))
    exact JsonValue.isChain (memberLexemes_isChain h members) (head_memberLexemes members ls) v

theorem elementLexemes_isChain {ls : List Lexeme} (h : ls.IsChain Apart) :
    ∀ elements : List JsonValue, (elementLexemes elements ++ ls).IsChain Apart
  | [] => isChain_cons nofun h
  | v :: elements => by
    simp only [elementLexemes, List.cons_append, List.append_assoc]
    refine isChain_cons nofun ?_
    exact JsonValue.isChain (elementLexemes_isChain h elements) (head_elementLexemes elements ls) v

end

/-- Two numbers never stand next to each other. -/
theorem JsonValue.lexemes_isChain (v : JsonValue) : v.lexemes.IsChain Apart := by
  have h := v.isChain .nil nofun
  rwa [List.append_nil] at h

/-- A value that is not a number does not start with one. -/
theorem JsonValue.lexemes_starts (v : JsonValue) :
    (∃ n, v = .number n) ∨ ∃ (l : Lexeme) (ls : _), v.lexemes = l :: ls ∧ l.kind ≠ .tkNumber := by
  cases v with
  | number n => exact .inl ⟨n, rfl⟩
  | string | true | false | null => exact .inr ⟨_, _, rfl, nofun⟩
  | object members => cases members <;> exact .inr ⟨_, _, rfl, nofun⟩
  | array elements => cases elements <;> exact .inr ⟨_, _, rfl, nofun⟩

private theorem suffix_cons {l : Lexeme} {us vs : List Lexeme} (h : us <:+ vs) : us <:+ l :: vs :=
  h.trans (List.suffix_cons l vs)

private theorem suffix_memberLexemes (members : List (Spelling .tkString × JsonValue)) :
    [Lexeme.fixed .tkCloseBrace rfl] <:+ memberLexemes members := by
  induction members with
  | nil => exact List.suffix_rfl
  | cons member members ih =>
    exact suffix_cons (suffix_cons (suffix_cons (ih.trans (List.suffix_append _ _))))

private theorem suffix_elementLexemes (elements : List JsonValue) :
    [Lexeme.fixed .tkCloseBracket rfl] <:+ elementLexemes elements := by
  induction elements with
  | nil => exact List.suffix_rfl
  | cons v elements ih => exact suffix_cons (ih.trans (List.suffix_append _ _))

/-- A value that is not a number does not end with one. -/
theorem JsonValue.lexemes_ends (v : JsonValue) :
    (∃ n, v = .number n) ∨ ∃ l : Lexeme, l.kind ≠ .tkNumber ∧ [l] <:+ v.lexemes := by
  cases v with
  | number n => exact .inl ⟨n, rfl⟩
  | string | true | false | null =>
    refine .inr ⟨_, ?_, List.suffix_rfl⟩
    exact nofun
  | object members =>
    refine .inr ⟨.fixed .tkCloseBrace rfl, nofun, ?_⟩
    cases members with
    | nil => exact suffix_cons List.suffix_rfl
    | cons member members =>
      have h := (suffix_memberLexemes members).trans (List.suffix_append member.2.lexemes _)
      exact suffix_cons (suffix_cons (suffix_cons h))
  | array elements =>
    refine .inr ⟨.fixed .tkCloseBracket rfl, nofun, ?_⟩
    cases elements with
    | nil => exact suffix_cons List.suffix_rfl
    | cons v elements =>
      exact suffix_cons ((suffix_elementLexemes elements).trans (List.suffix_append v.lexemes _))

end CcJson
