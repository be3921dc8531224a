import CcJson.Spec.Recognition
import CcJson.Spec.ValueTree

/-!
# Texts and their tokens

A token sequence is written as a text with whitespace around the tokens (`Writes`),
and read from a text by taking the longest token again and again (`Munches`). A
tokenizer over a file delivers the tokens that are read from its text.

## Key results

- `Writes.munches`: what is written is read back, if numbers are kept apart
- `Munches.linear`: two readings of a text differ in their length only
- `delivers_of_munches`, `munches_of_delivers`: the tokenizer reads the tokens of the text
-/

namespace CcJson

open Munch

/-! ## Writing and reading -/

/-- A text of the tokens, with whitespace before each of them. -/
inductive Writes : List Lexeme → List Char → Prop where
  | nil : Writes [] []
  | cons (l : Lexeme) {b cs : List Char} {ls : List Lexeme} (hb : Blanks b) (h : Writes ls cs) :
      Writes (l :: ls) (b ++ (l.text ++ cs))

/-- A JSON text: whitespace, one value and whitespace. -/
def JsonText (cs : List Char) : Prop :=
  ∃ (v : JsonValue) (ws ws' : List Char), cs = ws ++ ws' ∧ Writes v.lexemes ws ∧ Blanks ws'

/-- Longest tokens are taken from a text, with the whitespace before each of them. -/
inductive Munches : List Char → List Lexeme → List Char → Prop where
  | nil (cs : List Char) : Munches cs [] cs
  | cons (l : Lexeme) {b cs rest : List Char} {ls : List Lexeme} (hb : Blanks b)
      (hlong : Longest IsToken l.kind l.text cs) (h : Munches cs ls rest) :
      Munches (b ++ (l.text ++ cs)) (l :: ls) rest

/-- What comes after a token in a text: whitespace or the next token. -/
private theorem Writes.head {ls : List Lexeme} {ws ws' : List Char} (h : Writes ls ws)
    (hws' : Blanks ws') {c : Char} {r : List Char} (heq : ws ++ ws' = c :: r) :
    isBlank c = true ∨ ∃ m ∈ ls.head?, ∃ w, m.text = c :: w := by
  cases h with
  | nil =>
    obtain rfl : ws' = c :: r := heq
    exact .inl (blanks_cons.mp hws').1
  | @cons l b cs ls hb h =>
    cases b with
    | cons d b =>
      obtain ⟨rfl, -⟩ := List.cons.inj heq
      exact .inl (blanks_cons.mp hb).1
    | nil =>
      cases htext : l.text with
      | nil => exact absurd htext l.valid.ne_nil
      | cons d w =>
        rw [htext] at heq
        obtain ⟨rfl, -⟩ := List.cons.inj heq
        exact .inr ⟨l, rfl, w, htext⟩

/-- The tokens of a text are read back from it, if no two numbers stand next to each other. -/
theorem Writes.munches {ls : List Lexeme} {ws ws' : List Char} (h : Writes ls ws)
    (hws' : Blanks ws') (hapart : ls.IsChain Apart) : Munches (ws ++ ws') ls ws' := by
  induction h with
  | nil => exact .nil ws'
  | @cons l b cs ls hb h ih =>
    obtain ⟨hhead, hapart⟩ := List.isChain_cons.mp hapart
    rw [List.append_assoc, List.append_assoc]
    refine .cons l hb ?_ (ih hapart)
    -- Only a number could be continued by what comes next, and that is no number.
    by_cases hnumber : l.kind = .tkNumber
    · have hvalid := l.valid
      rw [hnumber] at hvalid ⊢
      apply longest_number hvalid
      intro c r hr
      rcases h.head hws' hr with hblank | ⟨m, hm, w, hw⟩
      · exact isNumberChar_of_isBlank hblank
      · have hvalid' := m.valid
        rw [hw] at hvalid'
        exact isNumberChar_of_isToken hvalid' (hhead m hm hnumber)
    · exact longest_of_ne_number l.valid hnumber _

theorem Munches.writes {ls : List Lexeme} {cs rest : List Char} (h : Munches cs ls rest) :
    ∃ ws, cs = ws ++ rest ∧ Writes ls ws := by
  induction h with
  | nil cs => exact ⟨[], rfl, .nil⟩
  | cons l hb _ _ ih =>
    obtain ⟨ws, rfl, hws⟩ := ih
    exact ⟨_, by simp, .cons l hb hws⟩

/-- A JSON text is one from which a value is read, with only whitespace left. -/
theorem jsonText_iff {cs : List Char} :
    JsonText cs ↔
      ∃ (v : JsonValue) (rest : List Char), Munches cs v.lexemes rest ∧ Blanks rest := by
  constructor
  · intro h
    obtain ⟨v, ws, ws', rfl, hws, hws'⟩ := h
    exact ⟨v, ws', hws.munches hws' v.lexemes_isChain, hws'⟩
  · intro h
    obtain ⟨v, rest, h, hrest⟩ := h
    obtain ⟨ws, rfl, hws⟩ := h.writes
    exact ⟨v, ws, rest, rfl, hws, hrest⟩

/-! ## Readings of a text -/

/-- Two readings of a text differ in their length only. -/
theorem Munches.linear {cs rest rest' : List Char} {ls ls' : List Lexeme} (h : Munches cs ls rest)
    (h' : Munches cs ls' rest') :
    (∃ ms, ls' = ls ++ ms ∧ Munches rest ms rest') ∨
      ∃ ms, ls = ls' ++ ms ∧ Munches rest' ms rest := by
  induction h generalizing ls' with
  | nil cs => exact .inl ⟨ls', rfl, h'⟩
  | @cons l b cs rest ls hb hlong h ih =>
    -- Both readings take the next token that the tokenizer finds.
    generalize htext : b ++ (l.text ++ cs) = text at h'
    cases h' with
    | nil => exact .inr ⟨l :: ls, rfl, htext ▸ .cons l hb hlong h⟩
    | @cons l' b' cs' _ ls' hb' hlong' h' =>
      obtain ⟨hkind, hw, hrest⟩ := lex_eq_of_longest hb hlong
      obtain ⟨hkind', hw', hrest'⟩ := lex_eq_of_longest hb' hlong'
      rw [htext] at hkind hw hrest
      obtain rfl : l = l' := Lexeme.ext (hkind.symm.trans hkind') (hw.symm.trans hw')
      obtain rfl : cs = cs' := hrest.symm.trans hrest'
      rcases ih h' with ⟨ms, rfl, hms⟩ | ⟨ms, rfl, hms⟩
      · exact .inl ⟨ms, rfl, hms⟩
      · exact .inr ⟨ms, rfl, hms⟩

/-- Two readings of a value from a text are the same. -/
theorem Munches.unique {cs rest rest' : List Char} {v v' : JsonValue}
    (h : Munches cs v.lexemes rest) (h' : Munches cs v'.lexemes rest') : rest = rest' := by
  -- The longer reading continues a value by a value, hence by nothing.
  have key : ∀ {v v' : JsonValue} {rest rest' : List Char} {ms : List Lexeme},
      v'.lexemes = v.lexemes ++ ms → Munches rest ms rest' → rest = rest' := by
    intro v v' rest rest' ms hls hms
    have hv := isValue_iff_tree.mpr ⟨v, rfl⟩
    have hv' := isValue_iff_tree.mpr ⟨v', rfl⟩
    rw [hls, kinds_append] at hv'
    obtain rfl := List.map_eq_nil_iff.mp (hv.eq_nil hv')
    cases hms
    rfl
  rcases h.linear h' with ⟨ms, hls, hms⟩ | ⟨ms, hls, hms⟩
  · exact key hls hms
  · exact (key hls hms).symm

/-- A reading that does not end with a number is one of every longer text. -/
theorem Munches.append {cs rest : List Char} {ls : List Lexeme} (h : Munches cs ls rest)
    (hlast : ∀ l ∈ ls.getLast?, l.kind ≠ .tkNumber) (more : List Char) :
    Munches (cs ++ more) ls (rest ++ more) := by
  induction h with
  | nil cs => exact .nil _
  | @cons l b cs rest ls hb hlong h ih =>
    rw [List.append_assoc, List.append_assoc]
    cases h with
    | nil => exact .cons l hb (longest_of_ne_number l.valid (hlast l rfl) _) (.nil _)
    | @cons m b' cs' _ ls hb' hlong' h =>
      refine .cons l hb ?_ (ih fun l' hl' => hlast l' ?_)
      · -- something follows `l` already, and only its first character matters
        refine ⟨hlong.1, fun c r hr => ?_⟩
        obtain ⟨d, w, hd⟩ := List.exists_cons_of_ne_nil
          (show b' ++ (m.text ++ cs') ≠ [] by simp [m.valid.ne_nil])
        rw [hd] at hr hlong
        obtain ⟨rfl, -⟩ := List.cons.inj hr
        exact hlong.2 d w rfl
      · rwa [List.getLast?_cons_cons]

/-- A text that starts with a number has a number as its first token. -/
theorem Munches.kind_eq_number {cs b w more rest : List Char} {l : Lexeme} {ls : List Lexeme}
    (h : Munches cs (l :: ls) rest) (hcs : cs = b ++ (w ++ more)) (hb : Blanks b)
    (hw : TkNumber w) : l.kind = .tkNumber := by
  by_contra hk
  have htoken : IsToken .tkNumber w := hw
  cases h with
  | @cons _ b' cs' _ _ hb' hlong _ =>
    -- After the whitespace both start with the same character, one of a number.
    have hdrop := congrArg (List.dropWhile isBlank) hcs
    rw [dropWhile_blanks hb' l.valid.ne_nil (tokenPrefix_of_lang l.valid),
      dropWhile_blanks hb htoken.ne_nil (tokenPrefix_of_lang htoken)] at hdrop
    have hvalid := l.valid
    obtain ⟨c, text, htext⟩ := List.exists_cons_of_ne_nil hvalid.ne_nil
    obtain ⟨d, digits, rfl⟩ := List.exists_cons_of_ne_nil htoken.ne_nil
    rw [htext] at hdrop hvalid
    obtain ⟨rfl, -⟩ := List.cons.inj hdrop
    have hchar := isNumberChar_of_isToken hvalid hk
    rw [hw.numberChars c List.mem_cons_self] at hchar
    exact nomatch hchar

/-! ## What a tokenizer delivers -/

/-- How the tokens of the file of `p` end: behind the last character, or with the exception
    of the malformed sequence there. -/
def Place.EndsWith (p : Place) : Ending Scanner → Prop
  | .eof last => p.tail.exception = none ∧ ∃ q : Place, q.tail = p.tail ∧ last = q.scanner []
  | .throws e => p.tail.exception = some e

theorem Place.Follows.endsWith {p p' : Place} {cs : List Char} (h : p.Follows p' cs)
    {ending : Ending Scanner} (hp' : p'.EndsWith ending) : p.EndsWith ending := by
  unfold Place.EndsWith at hp' ⊢
  rwa [h.tail] at hp'

/-- A scanner delivers tokens until the input ends, not more of them than there are
    characters. -/
theorem Place.exists_delivers (p : Place) (right : List Char) :
    ∃ ts ending, Delivers (p.scanner right) ts ending ∧ p.EndsWith ending ∧
      ts.length ≤ right.length := by
  by_cases h : p.tail.exception = none ∨ ¬ Ended (lex right)
  · obtain ⟨p', hfollows, hreturns⟩ := nextToken_returns right h
    -- The end of the input is the last token; any other one shortens the text.
    by_cases htype : tokenTypeOf (lex right) = .endOfInput
    · have hended := (tokenTypeOf_eq_endOfInput.mp htype).1
      rw [restOf_eq_nil hended] at hreturns
      refine ⟨[], _, .eof hreturns htype, ⟨h.resolve_right (not_not_intro hended), ?_⟩, by simp⟩
      exact ⟨p', hfollows.tail, rfl⟩
    · obtain ⟨ts, ending, hdelivers, hends, hlen⟩ := p'.exists_delivers (restOf (lex right))
      have hlt := length_restOf_lt htype
      refine ⟨_, ending, .cons hreturns htype hdelivers, hfollows.endsWith hends, ?_⟩
      rw [List.length_cons]
      omega
  · obtain ⟨htail, hended⟩ := not_or.mp h
    obtain ⟨e, he⟩ := Option.ne_none_iff_exists'.mp htail
    exact ⟨[], _, .throws (nextToken_throws_iff.mpr ⟨he, not_not.mp hended⟩), he, by simp⟩
termination_by right.length
decreasing_by exact length_restOf_lt htype

/-- The tokens that are read from well-formed content up to its end are delivered. -/
theorem delivers_of_munches {p : Place} {right rest : List Char} {ls : List Lexeme}
    (h : Munches right ls rest) (htail : p.tail.exception = none)
    (hrest : tokenTypeOf (lex rest) = .endOfInput) :
    ∃ last, Delivers (p.scanner right) (kinds ls) (.eof last) := by
  induction h generalizing p with
  | nil cs =>
    obtain ⟨p', -, hreturns⟩ := nextToken_returns cs (.inl htail)
    exact ⟨_, .eof hreturns hrest⟩
  | @cons l b cs rest ls hb hlong h ih =>
    obtain ⟨hkind, -, hcs⟩ := lex_eq_of_longest hb hlong
    obtain ⟨p', hfollows, hreturns⟩ := nextToken_returns (b ++ (l.text ++ cs)) (.inl htail)
    obtain ⟨last, hlast⟩ := ih (p := p') (by rw [hfollows.tail]; exact htail) hrest
    rw [hkind, hcs] at hreturns
    refine ⟨last, .cons hreturns ?_ hlast⟩
    intro (hend : l.kind = .endOfInput)
    exact not_isToken_endOfInput (hend ▸ l.valid)

/-- What is delivered without an error is read from the text, and what is left is the end
    of the input. -/
theorem munches_of_delivers {p : Place} {right : List Char} {ts : List TokenType}
    {ending : Ending Scanner} (h : Delivers (p.scanner right) ts ending) (herror : .tkError ∉ ts) :
    ∃ ls rest, Munches right ls rest ∧ kinds ls = ts ∧ Ended (lex rest) ∧
      (∀ last, ending = .eof last → tokenTypeOf (lex rest) = .endOfInput) := by
  generalize hs : p.scanner right = s at h
  induction h generalizing p right with
  | @eof s s' token hnext htype =>
    subst hs
    obtain ⟨-, p', -, rfl, -⟩ := nextToken_eq_returns hnext
    exact ⟨[], right, .nil right, rfl, (tokenTypeOf_eq_endOfInput.mp htype).1, fun _ _ => htype⟩
  | @throws s e hnext =>
    subst hs
    exact ⟨[], right, .nil right, rfl, (nextToken_throws_iff.mp hnext).2, nofun⟩
  | @cons s s' token ts ending hnext htype _ ih =>
    subst hs
    obtain ⟨-, p', -, rfl, rfl⟩ := nextToken_eq_returns hnext
    rw [List.mem_cons, not_or] at herror
    obtain ⟨hne, herror⟩ := herror
    obtain ⟨ls, rest, hmunches, rfl, hrest⟩ := ih herror rfl
    -- No error and not the end: the token is a longest one.
    have hlong := longest_lex (Ne.symm hne) htype
    have h := Munches.cons ⟨_, _, hlong.1⟩ (blanks_leadingBlanks right) hlong hmunches
    rw [lex_split] at h
    exact ⟨_, rest, h, rfl, hrest⟩

/-- Before a malformed sequence no more tokens are delivered than can be read up to it. -/
theorem prefix_of_delivers {p : Place} {right rest : List Char} {ls : List Lexeme}
    {ts : List TokenType} {e e' : Exception} (h : Munches right ls rest)
    (hended : Ended (lex rest)) (htail : p.tail.exception = some e)
    (hdelivers : Delivers (p.scanner right) ts (.throws e')) : ts <+: kinds ls := by
  induction h generalizing p ts with
  | nil cs =>
    have hthrows := nextToken_throws_iff.mpr ⟨htail, hended⟩
    cases hdelivers with
    | throws => exact List.nil_prefix
    | cons hnext => exact nomatch hthrows.symm.trans hnext
  | @cons l b cs rest ls hb hlong h ih =>
    cases hdelivers with
    | throws => exact List.nil_prefix
    | cons hnext htype hdelivers =>
      obtain ⟨-, p', hfollows, rfl, rfl⟩ := nextToken_eq_returns hnext
      obtain ⟨hkind, -, hcs⟩ := lex_eq_of_longest hb hlong
      rw [hcs] at hdelivers
      have hpre := ih hended (by rw [hfollows.tail]; exact htail) hdelivers
      exact List.cons_prefix_cons.mpr ⟨hkind, hpre⟩

end CcJson
