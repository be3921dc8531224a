import CcJson.Spec.Locality
import CcJson.Spec.Printing

/-!
# Wrong texts and incomplete ones

When the parser stops, the token in its buffer says what is the matter with the text: it is
`END_OF_INPUT` exactly if the text can be completed to a JSON text by writing more behind
it, and any other token if it cannot, whatever is written.

## Key results

- `kinds_prefix`: the tokens of a text are those of a longer JSON text
- `completable_iff`: the token at which the parser stops
-/

namespace CcJson

open Munch

/-! ## Longer texts -/

/-- The text of a token is not whitespace. -/
theorem Lexeme.not_blanks {l : Lexeme} {b cs : List Char} : ¬ Blanks (b ++ (l.text ++ cs)) := by
  intro h
  obtain ⟨c, w, hw⟩ := List.exists_cons_of_ne_nil l.valid.ne_nil
  have hpre := tokenPrefix_of_lang l.valid
  rw [hw] at h hpre
  have hc := (blanks_cons.mp (blanks_append.mp h).2).1
  rw [isBlank_of_tokenPrefix hpre] at hc
  exact nomatch hc

theorem Munches.eq_of_nil {cs rest : List Char} (h : Munches cs [] rest) : rest = cs := by
  cases h
  rfl

theorem Munches.exists_of_cons {cs rest : List Char} {m : Lexeme} {ms : List Lexeme}
    (h : Munches cs (m :: ms) rest) : ∃ b cs', cs = b ++ (m.text ++ cs') ∧ Blanks b ∧
      Longest IsToken m.kind m.text cs' ∧ Munches cs' ms rest := by
  cases h with
  | cons _ hb hlong h => exact ⟨_, _, rfl, hb, hlong, h⟩

theorem Munches.eq_nil_of_blanks {cs rest : List Char} {ls : List Lexeme}
    (h : Munches cs ls rest) (hcs : Blanks cs) : ls = [] ∧ rest = cs := by
  cases h with
  | nil => exact ⟨rfl, rfl⟩
  | cons => exact absurd hcs Lexeme.not_blanks

/-- A reading up to the whitespace at the end of a text takes the longest token first. -/
theorem Munches.exists_of_longest {l : Lexeme} {b cs rest : List Char} {ms : List Lexeme}
    (h : Munches (b ++ (l.text ++ cs)) ms rest) (hrest : Blanks rest) (hb : Blanks b)
    (hlong : Longest IsToken l.kind l.text cs) :
    ∃ ms', ms = l :: ms' ∧ Munches cs ms' rest := by
  rcases (Munches.cons l hb hlong (.nil cs)).linear h with ⟨ms', hms, h'⟩ | ⟨ms', hms, h'⟩
  · exact ⟨ms', hms, h'⟩
  · -- nothing is read from the whitespace at the end
    obtain ⟨rfl, rfl⟩ := h'.eq_nil_of_blanks hrest
    rw [List.append_nil] at hms
    exact ⟨[], hms.symm, .nil _⟩

/-- The tokens that are read from a text begin those of a longer text that is read to its end:
    only a number at the end of the text can be a longer number there. -/
theorem Munches.kinds_prefix {cs rest more rest' : List Char} {ls ms : List Lexeme}
    (h : Munches cs ls rest) (h' : Munches (cs ++ more) ms rest') (hrest' : Blanks rest') :
    kinds ls <+: kinds ms := by
  induction h generalizing ms with
  | nil => exact List.nil_prefix
  | @cons l b cs rest ls hb hlong h ih =>
    rw [List.append_assoc, List.append_assoc] at h'
    by_cases hlast : cs = [] ∧ l.kind = .tkNumber
    · -- a number that ends the text: the longer text has a number there, too
      obtain ⟨rfl, hnumber⟩ := hlast
      obtain ⟨rfl, -⟩ := h.eq_nil_of_blanks blanks_nil
      cases ms with
      | nil =>
        rw [h'.eq_of_nil] at hrest'
        exact absurd hrest' Lexeme.not_blanks
      | cons m ms =>
        have hvalid := l.valid
        rw [hnumber] at hvalid
        have hkind := h'.kind_eq_number rfl hb hvalid
        exact ⟨kinds ms, by simp [kinds, hnumber, hkind]⟩
    · have hlong' : Longest IsToken l.kind l.text (cs ++ more) := by
        by_cases hcs : cs = []
        · exact longest_of_ne_number l.valid (fun hnumber => hlast ⟨hcs, hnumber⟩) _
        · exact hlong.append hcs more
      obtain ⟨ms', rfl, hmore⟩ := h'.exists_of_longest hrest' hb hlong'
      exact List.cons_prefix_cons.mpr ⟨rfl, ih hmore⟩

/-- A text with an error after its tokens is the beginning of no text that is read to its end. -/
theorem Munches.not_append_of_error {cs rest more rest' : List Char} {ls ms : List Lexeme}
    (h : Munches cs ls rest) (herror : tokenTypeOf (lex rest) = .tkError)
    (h' : Munches (cs ++ more) ms rest') : ¬ Blanks rest' := by
  intro hrest'
  have herror' : ∀ more, tokenTypeOf (lex (rest ++ more)) = .tkError := by
    intro more
    have hsplit := lex_split rest
    obtain ⟨hkind, -, -⟩ := lex_of_rest_of_number (restOf (lex rest) ++ more)
      (by rw [herror]; decide) (by rw [herror]; exact nofun)
    rwa [← List.append_assoc, ← List.append_assoc, List.append_assoc (leadingBlanks rest),
      hsplit, herror] at hkind
  induction h generalizing ms with
  | nil cs =>
    cases ms with
    | nil =>
      have hend := herror' more
      rw [← h'.eq_of_nil, lex_of_blanks hrest'] at hend
      exact nomatch hend
    | cons m ms =>
      obtain ⟨b, cs', hcs, hb, hlong, -⟩ := h'.exists_of_cons
      have hkind := (lex_eq_of_longest hb hlong).1
      rw [← hcs, herror' more] at hkind
      have hvalid := m.valid
      rw [← hkind] at hvalid
      exact nomatch hvalid
  | @cons l b cs rest ls hb hlong h ih =>
    rw [List.append_assoc, List.append_assoc] at h'
    -- something comes after `l` in the text already
    have hcs : cs ≠ [] := by
      rintro rfl
      obtain ⟨-, rfl⟩ := h.eq_nil_of_blanks blanks_nil
      exact nomatch herror
    obtain ⟨ms', rfl, hmore⟩ := h'.exists_of_longest hrest' hb (hlong.append hcs more)
    exact ih herror hmore herror'

/-! ## Completions -/

/-- Every type of a JSON token has a text. -/
theorem exists_lexemes {ts : List TokenType} (h : ∀ k, k = .tkError ∨ k = .endOfInput → k ∉ ts) :
    ∃ ls : List Lexeme, kinds ls = ts := by
  induction ts with
  | nil => exact ⟨[], rfl⟩
  | cons k ts ih =>
    obtain ⟨ls, rfl⟩ := ih fun k' hk' hmem => h k' hk' (List.mem_cons_of_mem k hmem)
    have hone : ∃ l : Lexeme, l.kind = k := by
      cases hk : k with
      | tkString => exact ⟨⟨.tkString, ['"', '"'], .quote .quote⟩, rfl⟩
      | tkNumber => exact ⟨⟨.tkNumber, ['1'], tkNumber_one⟩, rfl⟩
      | tkError => exact absurd List.mem_cons_self (h k (.inl hk))
      | endOfInput => exact absurd List.mem_cons_self (h k (.inr hk))
      | _ => exact ⟨.fixed _ rfl, rfl⟩
    obtain ⟨l, rfl⟩ := hone
    exact ⟨l :: ls, rfl⟩

/-- The text ends inside a token, after whole tokens and whitespace. -/
def EndsInToken (cs : List Char) : Prop :=
  ∃ ls b u, Munches cs ls (b ++ u) ∧ Blanks b ∧ Unfinished u

/-- A text that is read to its end does not end inside a token. -/
theorem Munches.not_endsInToken {cs rest : List Char} {ls : List Lexeme} (h : Munches cs ls rest)
    (hrest : Blanks rest) : ¬ EndsInToken cs := by
  intro hends
  obtain ⟨ls', b, u, h', hb, hu⟩ := hends
  rcases h.linear h' with ⟨ms, -, hms⟩ | ⟨ms, -, hms⟩
  · obtain ⟨-, heq⟩ := hms.eq_nil_of_blanks hrest
    rw [← heq] at hrest
    exact hu.not_blanks hrest
  · cases ms with
    | nil =>
      rw [hms.eq_of_nil] at hrest
      exact hu.not_blanks hrest
    | cons m ms =>
      -- a token would have to be read from the unfinished one
      obtain ⟨b', cs', hcs, hb', hlong, -⟩ := hms.exists_of_cons
      have hkind := (lex_eq_of_longest hb' hlong).1
      rw [← hcs, tokenTypeOf_lex_eq_endOfInput.mpr (.inr ⟨b, u, rfl, hb, hu⟩)] at hkind
      exact not_isToken_endOfInput (hkind ▸ m.valid)

/-- A text with the tokens of the beginning of a value is the beginning of a JSON text. -/
theorem exists_jsonText {cs rest : List Char} {ls : List Lexeme} (h : Munches cs ls rest)
    (hrest : Blanks rest) {us : List TokenType} (hvalue : IsValue (kinds ls ++ us)) :
    ∃ more, JsonText (cs ++ more) := by
  obtain ⟨ms, rfl⟩ := exists_lexemes fun k hk hmem =>
    hvalue.not_mem hk (List.mem_append_right (kinds ls) hmem)
  rw [← kinds_append] at hvalue
  obtain ⟨v, hv⟩ := isValue_iff_tree.mp hvalue
  obtain ⟨ws, rfl, hws⟩ := h.writes
  cases ms with
  | nil =>
    rw [List.append_nil] at hv
    exact ⟨[], v, ws, rest, by simp, hv ▸ hws, hrest⟩
  | cons m ms =>
    -- the whitespace at the end is now before the next token
    have hmore := (writes_compact (m :: ms)).blanks hrest
    refine ⟨compact (m :: ms), v, ws ++ (rest ++ compact (m :: ms)), [], by simp, ?_, blanks_nil⟩
    rw [hv]
    exact hws.append hmore

/-- Before an error only tokens are read. -/
theorem munches_of_tkError {p : Place} {right : List Char} {ts : List TokenType}
    {ending : Ending Scanner} (h : Delivers (p.scanner right) ts ending) (herror : .tkError ∈ ts) :
    ∃ ls rest, Munches right ls rest ∧ tokenTypeOf (lex rest) = .tkError := by
  generalize hs : p.scanner right = s at h
  induction h generalizing p right with
  | eof => exact absurd herror List.not_mem_nil
  | throws => exact absurd herror List.not_mem_nil
  | @cons s s' token ts ending hnext htype _ ih =>
    subst hs
    obtain ⟨-, p', -, rfl, rfl⟩ := nextToken_eq_returns hnext
    by_cases hfirst : tokenTypeOf (lex right) = .tkError
    · exact ⟨[], right, .nil right, hfirst⟩
    · have hmem : .tkError ∈ ts :=
        (List.mem_cons.mp herror).resolve_left fun heq => hfirst heq.symm
      obtain ⟨ls, rest, hmunches, hrest⟩ := ih hmem rfl
      have hlong := longest_lex hfirst htype
      have h := Munches.cons ⟨_, _, hlong.1⟩ (blanks_leadingBlanks right) hlong hmunches
      rw [lex_split] at h
      exact ⟨_, rest, h, hrest⟩

/-- The tokens of a text begin a value exactly if the text is the beginning of a JSON text. -/
theorem viable_iff {p : Place} {cs : List Char} {ts : List TokenType} {last : Scanner}
    (hdelivers : Delivers (p.scanner cs) ts (.eof last)) (hno : ¬ EndsInToken cs) :
    (∃ us, IsValue (ts ++ us)) ↔ ∃ more, JsonText (cs ++ more) := by
  by_cases herror : .tkError ∈ ts
  · obtain ⟨ls, rest, hmunches, hrest⟩ := munches_of_tkError hdelivers herror
    refine iff_of_false ?_ ?_
    · intro h
      obtain ⟨us, hus⟩ := h
      exact hus.not_mem (.inl rfl) (List.mem_append_left us herror)
    · intro h
      obtain ⟨more, hjson⟩ := h
      obtain ⟨v, rest', hmunches', hrest'⟩ := jsonText_iff.mp hjson
      exact hmunches.not_append_of_error hrest hmunches' hrest'
  · obtain ⟨ls, rest, hmunches, rfl, -, hend⟩ := munches_of_delivers hdelivers herror
    have hblanks : Blanks rest := by
      rcases tokenTypeOf_lex_eq_endOfInput.mp (hend last rfl) with hblanks | ⟨b, u, rfl, hb, hu⟩
      · exact hblanks
      · exact absurd ⟨ls, b, u, hmunches, hb, hu⟩ hno
    constructor
    · intro h
      obtain ⟨us, hus⟩ := h
      exact exists_jsonText hmunches hblanks hus
    · intro h
      obtain ⟨more, hjson⟩ := h
      obtain ⟨v, rest', hmunches', hrest'⟩ := jsonText_iff.mp hjson
      obtain ⟨us, hus⟩ := hmunches.kinds_prefix hmunches' hrest'
      exact ⟨us, hus ▸ isValue_iff_tree.mpr ⟨v, rfl⟩⟩

/-- The parser stops at the end of the input iff all tokens begin a value. -/
theorem current_endOfInput_iff {place : Place} {right : List Char} {fuel : Nat}
    {p : Parser Scanner} {ts : List TokenType} {last : Scanner}
    (hparse : (Parser.new (Tokenizer.new (place.scanner right))).parse fuel = .returns p)
    (hdelivers : Delivers (place.scanner right) ts (.eof last)) :
    p.tok.current.type = .endOfInput ↔ ∃ us, IsValue (ts ++ us) := by
  obtain ⟨tokens, token, hreads, -, htype, haccepted, hrejected⟩ := exists_trace hparse
  rw [htype]
  -- what has been read before the last token begins a value, so it has no end of the input in it
  have hviable : ∃ us, IsValue (types tokens ++ us) := by
    cases hok : p.ok with
    | true => exact ⟨[], by rw [List.append_nil]; exact (haccepted hok).1⟩
    | false => exact (hrejected hok).viable
  have hmem : .endOfInput ∉ types tokens := by
    obtain ⟨us, hus⟩ := hviable
    exact fun hmem => hus.not_mem (.inr rfl) (List.mem_append_left us hmem)
  constructor
  · intro hend
    obtain ⟨s, hs, hnext⟩ := hreads.exists_of_snoc
    obtain ⟨ts', rfl, hrest⟩ := hs.prefix_of_delivers hmem hdelivers
    cases hrest with
    | eof => simpa using hviable
    | cons hnext' htype' =>
      obtain ⟨rfl, -⟩ := Prod.mk.inj (Run.returns.inj (hnext.symm.trans hnext'))
      exact absurd hend htype'
  · intro h
    obtain ⟨us, hus⟩ := h
    by_contra hne
    have hok : p.ok = false := by
      cases hok : p.ok with
      | false => rfl
      | true => exact absurd (haccepted hok).2 hne
    obtain ⟨ts', rfl, -⟩ := hreads.prefix_of_delivers
      (by simp [types, hmem, Ne.symm hne]) hdelivers
    refine (hrejected hok).refused hne ⟨ts' ++ us, ?_⟩
    simpa [types] using hus

/-- A well-formed text that does not end inside a token can be completed to a JSON text exactly
    if the parser, when it stops, has come to the end of the input. -/
theorem completable_iff {loadType : FileLoadType} {cs : List Char} (hno : ¬ EndsInToken cs)
    {fuel : Nat} {p : Parser Scanner}
    (hparse : (Parser.ofFile (.ofContent loadType (Utf8.encode cs))).parse fuel = .returns p) :
    p.tok.current.type = .endOfInput ↔ ∃ more, JsonText (cs ++ more) := by
  rw [Parser.ofFile, scannerNew_encode] at hparse
  obtain ⟨ts, last, -, hdelivers, -, -⟩ := exists_verdict_encode loadType cs
  rw [current_endOfInput_iff hparse hdelivers]
  exact viable_iff hdelivers hno

/-- The beginning of an array. -/
theorem completable_bracket :
    ∃ p, (Parser.ofFile (.ofContent .fullMemory (Utf8.encode ['[']))).parse 3 = .returns p ∧
      (p.tok.current.type = .endOfInput ↔ ∃ more, JsonText (['['] ++ more)) := by
  have hlong : Longest IsToken .tkOpenBracket ['['] [] := ⟨rfl, nofun⟩
  have hbracket : Munches ([] ++ (['['] ++ [])) [.fixed .tkOpenBracket rfl] [] :=
    .cons (.fixed .tkOpenBracket rfl) blanks_nil hlong (.nil [])
  have hno : ¬ EndsInToken ['['] := hbracket.not_endsInToken blanks_nil
  have hparse : ∃ p, (Parser.ofFile (.ofContent .fullMemory (Utf8.encode ['[']))).parse 3 =
      .returns p := ⟨_, rfl⟩
  obtain ⟨p, hreturns⟩ := hparse
  exact ⟨p, hreturns, completable_iff hno hreturns⟩

end CcJson
