import CcJson.Spec.Validator

/-!
# Printing and reading back

Tokens that are printed with or without whitespace between them, numbers being kept
apart, are read back by the tokenizer as they were. So a JSON text is a way of writing
exactly one value tree, and the shortest one has no whitespace.

## Key results

- `lexes_of_writes`: the tokenizer reads back the tokens that have been written
- `JsonValue.lexemes_cancel`: the tokens of a value tree determine it
- `accepted_tree`: the one value tree of an accepted text, and its shortest text
-/

namespace CcJson

open Munch

/-! ## Writing without whitespace -/

/-- The texts of the tokens, without whitespace. -/
def compact (ls : List Lexeme) : List Char := (ls.map Lexeme.text).flatten

@[simp] theorem compact_nil : compact [] = [] := rfl

@[simp] theorem compact_cons (l : Lexeme) (ls : List Lexeme) :
    compact (l :: ls) = l.text ++ compact ls := rfl

theorem writes_compact (ls : List Lexeme) : Writes ls (compact ls) := by
  induction ls with
  | nil => exact .nil
  | cons l ls ih => exact .cons l blanks_nil ih

/-- Every way of writing the tokens is at least as long. -/
theorem Writes.length_compact_le {ls : List Lexeme} {ws : List Char} (h : Writes ls ws) :
    (compact ls).length ≤ ws.length := by
  induction h with
  | nil => exact Nat.le_refl _
  | cons l hb h ih =>
    rw [compact_cons]
    simp only [List.length_append]
    omega

/-- Texts of tokens one after the other are a text of all of them. -/
theorem Writes.append {ls ms : List Lexeme} {ws vs : List Char} (h : Writes ls ws)
    (hms : Writes ms vs) : Writes (ls ++ ms) (ws ++ vs) := by
  induction h with
  | nil => exact hms
  | cons l hb _ ih =>
    rw [List.append_assoc, List.append_assoc]
    exact .cons l hb ih

/-- Whitespace before the first token. -/
theorem Writes.blanks {l : Lexeme} {ls : List Lexeme} {b ws : List Char} (hb : Blanks b)
    (h : Writes (l :: ls) ws) : Writes (l :: ls) (b ++ ws) := by
  cases h with
  | cons _ hb' h =>
    rw [← List.append_assoc]
    exact .cons l (blanks_append.mpr ⟨hb, hb'⟩) h

/-! ## Reading back -/

/-- What is compared of a token: its type and its text. -/
def Token.spelled (t : Token) : TokenType × Bytes := (t.type, t.lexeme)

def Lexeme.spelled (l : Lexeme) : TokenType × Bytes := (l.kind, Utf8.encode l.text)

/-- A run of `next_token` over a text returns the tokens that are read from it. -/
theorem lexes_of_munches {p : Place} {right rest : List Char} {ls : List Lexeme}
    (h : Munches right ls rest) (htail : p.tail.exception = none) (hrest : Blanks rest) :
    ∃ tokens, (p.scanner right).Lexes tokens ∧
      tokens.map Token.spelled = ls.map Lexeme.spelled ++ [(.endOfInput, [])] := by
  induction h generalizing p with
  | nil cs =>
    obtain ⟨p', -, hreturns⟩ := nextToken_returns cs (.inl htail)
    rw [lex_of_blanks hrest] at hreturns
    exact ⟨_, .last hreturns rfl, rfl⟩
  | @cons l b cs rest ls hb hlong h ih =>
    obtain ⟨hkind, htext, hcs⟩ := lex_eq_of_longest hb hlong
    obtain ⟨p', hfollows, hreturns⟩ := nextToken_returns (b ++ (l.text ++ cs)) (.inl htail)
    obtain ⟨tokens, htokens, hspelled⟩ := ih (p := p') (by rw [hfollows.tail]; exact htail) hrest
    rw [hkind, htext, hcs] at hreturns
    refine ⟨_, .more hreturns ?_ htokens, ?_⟩
    · intro (hend : l.kind = .endOfInput)
      exact not_isToken_endOfInput (hend ▸ l.valid)
    · rw [List.map_cons, hspelled]
      rfl

/-- Tokens that are written with any whitespace between them, no two numbers next to each
    other, are returned by `next_token` as they were, and nothing else is. -/
theorem lexes_of_writes (loadType : FileLoadType) {ls : List Lexeme} {ws ws' : List Char}
    (h : Writes ls ws) (hws' : Blanks ws') (hapart : ls.IsChain Apart) :
    ∃ tokens, (Scanner.new (.ofContent loadType (Utf8.encode (ws ++ ws')))).Lexes tokens ∧
      tokens.map Token.spelled = ls.map Lexeme.spelled ++ [(.endOfInput, [])] := by
  rw [scannerNew_encode]
  exact lexes_of_munches (h.munches hws' hapart) rfl hws'

/-- A number, a comma and a number, without whitespace. -/
theorem lexes_of_writes_numbers :
    let one : Lexeme := ⟨.tkNumber, ['1'], tkNumber_one⟩
    let ls := [one, .fixed .tkComma rfl, one]
    ∃ tokens, (Scanner.new (.ofContent .fullMemory
        (Utf8.encode (compact ls ++ [])))).Lexes tokens ∧
      tokens.map Token.spelled = ls.map Lexeme.spelled ++ [(.endOfInput, [])] :=
  lexes_of_writes .fullMemory (writes_compact _) blanks_nil (by
    simp only [List.isChain_cons, Apart]
    exact ⟨by simp [Lexeme.fixed], by simp [Lexeme.fixed], by simp⟩)

/-! ## The tokens of a value tree -/

/-- The type of the first token of a value. -/
def JsonValue.firstKind : JsonValue → TokenType
  | .string _ => .tkString
  | .number _ => .tkNumber
  | .true => .tkTrue
  | .false => .tkFalse
  | .null => .tkNull
  | .object _ => .tkOpenBrace
  | .array _ => .tkOpenBracket

theorem JsonValue.head_lexemes (v : JsonValue) (x : List Lexeme) :
    (v.lexemes ++ x).head?.map Lexeme.kind = some v.firstKind := by
  cases v with
  | object members => cases members <;> rfl
  | array elements => cases elements <;> rfl
  | _ => rfl

private theorem head_kind {v v' : JsonValue} {x y : List Lexeme}
    (h : v.lexemes ++ x = v'.lexemes ++ y) : v.firstKind = v'.firstKind := by
  apply Option.some.inj
  rw [← v.head_lexemes x, h, v'.head_lexemes]

/-- No value begins with a closing bracket. -/
private theorem lexemes_ne_close {v : JsonValue} {x y : List Lexeme} :
    v.lexemes ++ x ≠ .fixed .tkCloseBracket rfl :: y := by
  intro h
  have hfirst : some TokenType.tkCloseBracket = some v.firstKind := by
    rw [← v.head_lexemes x, h]
    rfl
  cases v <;> exact nomatch hfirst

theorem Spelling.lexeme_inj {kind : TokenType} {s s' : Spelling kind}
    (h : s.lexeme = s'.lexeme) : s = s' := by
  obtain ⟨text, valid⟩ := s
  obtain ⟨text', valid'⟩ := s'
  obtain rfl : text = text' := congrArg Lexeme.text h
  rfl

private theorem fixed_ne {k k' : TokenType} {h h'} {us vs : List Lexeme} (hk : k ≠ k') :
    Lexeme.fixed k h :: us ≠ .fixed k' h' :: vs :=
  fun heq => hk (congrArg Lexeme.kind (List.cons.inj heq).1)

mutual

/-- Of two values at the beginning of a token sequence neither goes beyond the other one, and
    they are the same. -/
theorem JsonValue.lexemes_cancel {x y : List Lexeme} :
    ∀ v v' : JsonValue, v.lexemes ++ x = v'.lexemes ++ y → v = v' ∧ x = y
  | .string s, v', h => by
    have hkind := head_kind h
    cases v' with
    | string s' =>
      obtain ⟨hs, hxy⟩ := List.cons.inj h
      exact ⟨congrArg _ (Spelling.lexeme_inj hs), hxy⟩
    | _ => exact nomatch hkind
  | .number n, v', h => by
    have hkind := head_kind h
    cases v' with
    | number n' =>
      obtain ⟨hn, hxy⟩ := List.cons.inj h
      exact ⟨congrArg _ (Spelling.lexeme_inj hn), hxy⟩
    | _ => exact nomatch hkind
  | .true, v', h => by
    have hkind := head_kind h
    cases v' with
    | true => exact ⟨rfl, (List.cons.inj h).2⟩
    | _ => exact nomatch hkind
  | .false, v', h => by
    have hkind := head_kind h
    cases v' with
    | false => exact ⟨rfl, (List.cons.inj h).2⟩
    | _ => exact nomatch hkind
  | .null, v', h => by
    have hkind := head_kind h
    cases v' with
    | null => exact ⟨rfl, (List.cons.inj h).2⟩
    | _ => exact nomatch hkind
  | .object [], v', h => by
    have hkind := head_kind h
    cases v' with
    | object members =>
      cases members with
      | nil => exact ⟨rfl, (List.cons.inj (List.cons.inj h).2).2⟩
      | cons member members =>
        have hsecond := (List.cons.inj (List.cons.inj h).2).1
        exact nomatch congrArg Lexeme.kind hsecond
    | _ => exact nomatch hkind
  | .object ((key, v) :: members), v', h => by
    have hkind := head_kind h
    cases v' with
    | object members' =>
      cases members' with
      | nil =>
        have hsecond := (List.cons.inj (List.cons.inj h).2).1
        exact nomatch congrArg Lexeme.kind hsecond
      | cons member members' =>
        obtain ⟨key', v'⟩ := member
        simp only [JsonValue.lexemes, List.cons_append, List.append_assoc] at h
        obtain ⟨hkey, hrest⟩ := List.cons.inj (List.cons.inj h).2
        obtain ⟨rfl, hmembers⟩ := v.lexemes_cancel v' (List.cons.inj hrest).2
        obtain ⟨rfl, hxy⟩ := memberLexemes_cancel members members' hmembers
        rw [Spelling.lexeme_inj hkey]
        exact ⟨rfl, hxy⟩
    | _ => exact nomatch hkind
  | .array [], v', h => by
    have hkind := head_kind h
    cases v' with
    | array elements =>
      cases elements with
      | nil => exact ⟨rfl, (List.cons.inj (List.cons.inj h).2).2⟩
      | cons v elements =>
        simp only [JsonValue.lexemes, List.cons_append, List.append_assoc] at h
        exact absurd (List.cons.inj h).2.symm lexemes_ne_close
    | _ => exact nomatch hkind
  | .array (v :: elements), v', h => by
    have hkind := head_kind h
    cases v' with
    | array elements' =>
      cases elements' with
      | nil =>
        simp only [JsonValue.lexemes, List.cons_append, List.append_assoc] at h
        exact absurd (List.cons.inj h).2 lexemes_ne_close
      | cons v' elements' =>
        simp only [JsonValue.lexemes, List.cons_append, List.append_assoc] at h
        obtain ⟨rfl, helements⟩ := v.lexemes_cancel v' (List.cons.inj h).2
        obtain ⟨rfl, hxy⟩ := elementLexemes_cancel elements elements' helements
        exact ⟨rfl, hxy⟩
    | _ => exact nomatch hkind

theorem memberLexemes_cancel {x y : List Lexeme} :
    ∀ members members' : List (Spelling .tkString × JsonValue),
      memberLexemes members ++ x = memberLexemes members' ++ y → members = members' ∧ x = y
  | [], [], h => ⟨rfl, (List.cons.inj h).2⟩
  | [], _ :: _, h => absurd h (fixed_ne nofun)
  | _ :: _, [], h => absurd h (fixed_ne nofun)
  | (key, v) :: members, (key', v') :: members', h => by
    simp only [memberLexemes, List.cons_append, List.append_assoc] at h
    obtain ⟨hkey, hrest⟩ := List.cons.inj (List.cons.inj h).2
    obtain ⟨rfl, hmembers⟩ := v.lexemes_cancel v' (List.cons.inj hrest).2
    obtain ⟨rfl, hxy⟩ := memberLexemes_cancel members members' hmembers
    rw [Spelling.lexeme_inj hkey]
    exact ⟨rfl, hxy⟩

theorem elementLexemes_cancel {x y : List Lexeme} :
    ∀ elements elements' : List JsonValue,
      elementLexemes elements ++ x = elementLexemes elements' ++ y → elements = elements' ∧ x = y
  | [], [], h => ⟨rfl, (List.cons.inj h).2⟩
  | [], _ :: _, h => absurd h (fixed_ne nofun)
  | _ :: _, [], h => absurd h (fixed_ne nofun)
  | v :: elements, v' :: elements', h => by
    simp only [elementLexemes, List.cons_append, List.append_assoc] at h
    obtain ⟨rfl, helements⟩ := v.lexemes_cancel v' (List.cons.inj h).2
    obtain ⟨rfl, hxy⟩ := elementLexemes_cancel elements elements' helements
    exact ⟨rfl, hxy⟩

end

/-! ## The value tree of a text -/

/-- The text is a way of writing the value, with any whitespace around its tokens. -/
def JsonValue.Spells (v : JsonValue) (cs : List Char) : Prop :=
  ∃ ws ws', cs = ws ++ ws' ∧ Writes v.lexemes ws ∧ Blanks ws'

theorem JsonValue.spells_compact (v : JsonValue) : v.Spells (compact v.lexemes) :=
  ⟨_, [], (List.append_nil _).symm, writes_compact _, blanks_nil⟩

theorem JsonValue.Spells.length_compact_le {v : JsonValue} {cs : List Char} (h : v.Spells cs) :
    (compact v.lexemes).length ≤ cs.length := by
  obtain ⟨ws, ws', rfl, hws, -⟩ := h
  have := hws.length_compact_le
  rw [List.length_append]
  omega

/-- No text is a way of writing two values. -/
theorem JsonValue.Spells.unique {v v' : JsonValue} {cs : List Char} (h : v.Spells cs)
    (h' : v'.Spells cs) : v' = v := by
  obtain ⟨ws, rest, rfl, hws, hrest⟩ := h
  obtain ⟨ws', rest', heq, hws', hrest'⟩ := h'
  have hmunches := hws.munches hrest v.lexemes_isChain
  have hmunches' := hws'.munches hrest' v'.lexemes_isChain
  rw [← heq] at hmunches'
  -- the tokens of one value are the first ones of the other
  rcases hmunches.linear hmunches' with ⟨ms, hms, -⟩ | ⟨ms, hms, -⟩
  · exact (v'.lexemes_cancel v (x := []) (by rw [hms, List.append_nil])).1
  · exact (v.lexemes_cancel v' (x := []) (by rw [hms, List.append_nil])).1.symm

/-- A text that is accepted, and not because of an unfinished token at its end, is a way of
    writing exactly one value tree. The shortest way of writing this tree is its text without
    whitespace, which is accepted, too. -/
theorem accepted_tree {loadType : FileLoadType} {cs : List Char}
    (haccepts : Accepts loadType (Utf8.encode cs)) (hno : ¬ TrailingUnfinished cs)
    (loadType' : FileLoadType) :
    ∃ v : JsonValue, v.Spells cs ∧ (∀ v' : JsonValue, v'.Spells cs → v' = v) ∧
      v.Spells (compact v.lexemes) ∧ Accepts loadType' (Utf8.encode (compact v.lexemes)) ∧
      ∀ ds, v.Spells ds → (compact v.lexemes).length ≤ ds.length := by
  obtain ⟨v, hv⟩ : ∃ v : JsonValue, v.Spells cs :=
    (accepts_encode_iff.mp haccepts).resolve_right hno
  refine ⟨v, hv, fun _ hv' => hv.unique hv', v.spells_compact, ?_, ?_⟩
  · exact accepts_encode_iff.mpr (.inl ⟨v, v.spells_compact⟩)
  · exact fun _ hds => hds.length_compact_le

/-- A blank and the number `1`. -/
theorem accepted_tree_number :
    ∃ v : JsonValue, v.Spells [' ', '1'] ∧ (∀ v' : JsonValue, v'.Spells [' ', '1'] → v' = v) ∧
      v.Spells (compact v.lexemes) ∧ Accepts .memoryMapped (Utf8.encode (compact v.lexemes)) ∧
      ∀ ds, v.Spells ds → (compact v.lexemes).length ≤ ds.length :=
  have hone : Writes [⟨.tkNumber, ['1'], tkNumber_one⟩] ([' '] ++ (['1'] ++ [])) :=
    .cons ⟨.tkNumber, ['1'], tkNumber_one⟩ (by decide) .nil
  have hjson : JsonText [' ', '1'] :=
    ⟨.number ⟨['1'], tkNumber_one⟩, [' ', '1'], [], rfl, hone, blanks_nil⟩
  have haccepts : Accepts .fullMemory (Utf8.encode [' ', '1']) :=
    accepts_encode_iff.mpr (.inl hjson)
  accepted_tree haccepts (fun h => h.not_jsonText hjson) .memoryMapped

end CcJson
