import CcJson.Native.Main
import CcJson.Spec.JsonText
import CcJson.Spec.ParserStep

/-!
# The validator

What the whole program decides: which contents are accepted, that every run ends,
and with which exit code.

## Key results

- `accepts_iff`: the contents that are accepted
- `accepts_jsonText_iff`, `parse_of_writes`: soundness and completeness
- `malformed_not_accepted`, `truncated_not_accepted`: malformed and truncated contents
- `run_terminates`: every run ends
- `exitsByVerdict_iff`: when the exit code is that of the verdict
-/

namespace CcJson

open Munch

/-- The parser ends normally on a file with this content, with `ok()` true. -/
def Accepts (loadType : FileLoadType) (content : Bytes) : Prop :=
  ∃ fuel p, (Parser.ofFile (Utf8File.ofContent loadType content)).parse fuel = .returns p ∧
    p.ok = true

/-! ## Verdicts -/

/-- The run of the parser over a file: it delivers tokens up to the end of its decodable
    characters, and has the verdict for those. -/
theorem exists_verdict (loadType : FileLoadType) (cs : List Char) (tail : Tail) :
    ∃ ts ending r, Delivers ((Place.start loadType tail).scanner cs) ts ending ∧
      (Place.start loadType tail).EndsWith ending ∧ Verdict ts ending r ∧
      ∀ fuel, (Utf8.encode cs ++ tail.bytes).length + 2 ≤ fuel →
        (Parser.ofFile (Utf8File.ofContent loadType (Utf8.encode cs ++ tail.bytes))).parse fuel =
          r := by
  obtain ⟨ts, ending, hdelivers, hends, hlen⟩ := (Place.start loadType tail).exists_delivers cs
  obtain ⟨r, hverdict, hparse⟩ := Parser.parse_spec hdelivers
  refine ⟨ts, ending, r, hdelivers, hends, hverdict, fun fuel hfuel => ?_⟩
  rw [Parser.ofFile, scannerNew_eq]
  apply hparse fuel
  have hle := Utf8.length_le_length_encode cs
  rw [List.length_append] at hfuel
  omega

/-- Over well-formed content the parser ends, with the verdict of the grammar. -/
theorem exists_verdict_encode (loadType : FileLoadType) (cs : List Char) :
    ∃ ts last p, Delivers ((Place.start loadType Tail.empty).scanner cs) ts (.eof last) ∧
      (p.ok = true ↔ IsValue ts) ∧
      ∀ fuel, (Utf8.encode cs).length + 2 ≤ fuel →
        (Parser.ofFile (Utf8File.ofContent loadType (Utf8.encode cs))).parse fuel = .returns p := by
  obtain ⟨ts, ending, r, hdelivers, hends, hverdict, hr⟩ := exists_verdict loadType cs Tail.empty
  simp only [Tail.empty, List.append_nil] at hr
  cases ending with
  | eof last =>
    obtain ⟨p, rfl, hok⟩ := hverdict.ok_iff
    exact ⟨ts, last, p, hdelivers, hok, hr⟩
  | throws e => exact nomatch Tail.exception_empty.symm.trans hends

/-- A run that ends with some fuel has the result of the runs with enough fuel. -/
theorem returns_eq {loadType : FileLoadType} {content : Bytes} {n fuel : Nat}
    {r : Run Exception (Parser Scanner)} {p : Parser Scanner}
    (hr : ∀ fuel, n ≤ fuel → (Parser.ofFile (Utf8File.ofContent loadType content)).parse fuel = r)
    (h : (Parser.ofFile (Utf8File.ofContent loadType content)).parse fuel = .returns p) :
    r = .returns p := by
  rw [← hr (max n fuel) (Nat.le_max_left _ _)]
  exact Parser.parse_fuel_mono (Nat.le_max_right _ _) h nofun

/-- The contents that are accepted: a value is read from their characters, and the rest
    reads as the end of the input. -/
theorem accepts_iff {loadType : FileLoadType} {content : Bytes} :
    Accepts loadType content ↔ ∃ (cs : List Char) (v : JsonValue) (rest : List Char),
      content = Utf8.encode cs ∧ Munches cs v.lexemes rest ∧
        tokenTypeOf (lex rest) = .endOfInput := by
  constructor
  · intro h
    obtain ⟨fuel, p, hreturns, hok⟩ := h
    obtain ⟨cs, tail, rfl⟩ := exists_tail content
    obtain ⟨ts, ending, r, hdelivers, hends, hverdict, hr⟩ := exists_verdict loadType cs tail
    obtain rfl := returns_eq hr hreturns
    -- Only the first verdict has `ok()` true. It ends at the end of the input, so that no
    -- malformed tail is left, and its tokens are those of a value.
    cases hverdict with
    | accepted hending _ hvalue =>
      subst hending
      have htail : tail.bytes = [] := Tail.exception_eq_none.mp hends.1
      obtain ⟨ls, rest, hmunches, rfl, -, hrest⟩ :=
        munches_of_delivers hdelivers (hvalue.not_mem (.inl rfl))
      obtain ⟨v, rfl⟩ := isValue_iff_tree.mp hvalue
      exact ⟨cs, v, rest, by rw [htail, List.append_nil], hmunches, hrest _ rfl⟩
    | rejected hreject => exact nomatch hok.symm.trans hreject
  · intro h
    obtain ⟨cs, v, rest, rfl, hmunches, hrest⟩ := h
    -- The tokens of the value are delivered, and the two other verdicts exclude a value.
    obtain ⟨last, hdelivers⟩ := delivers_of_munches (p := Place.start loadType Tail.empty)
      hmunches rfl hrest
    obtain ⟨r, hverdict, hparse⟩ := Parser.parse_spec hdelivers
    cases hverdict with
    | @accepted p hending hok hvalue =>
      refine ⟨(kinds v.lexemes).length + 2, p, ?_, hok⟩
      rw [Parser.ofFile, scannerNew_encode]
      exact hparse _ le_rfl
    | rejected _ hreject => exact absurd (isValue_iff_tree.mpr ⟨v, rfl⟩) (hreject last rfl)
    | thrown hending => exact nomatch hending

theorem accepts_encode {loadType : FileLoadType} {cs : List Char} :
    Accepts loadType (Utf8.encode cs) ↔ ∃ (v : JsonValue) (rest : List Char),
      Munches cs v.lexemes rest ∧ tokenTypeOf (lex rest) = .endOfInput := by
  rw [accepts_iff]
  constructor
  · intro h
    obtain ⟨cs', v, rest, heq, h⟩ := h
    obtain rfl := Utf8.encode_injective heq
    exact ⟨v, rest, h⟩
  · intro h
    obtain ⟨v, rest, h⟩ := h
    exact ⟨cs, v, rest, rfl, h⟩

/-! ## Soundness -/

/-- After a complete value and whitespace, the text ends inside a token. -/
def TrailingUnfinished (cs : List Char) : Prop :=
  ∃ (v : JsonValue) (b u : List Char), Munches cs v.lexemes (b ++ u) ∧ Blanks b ∧ Unfinished u

/-- A text with an unfinished token after its value is no JSON text. -/
theorem TrailingUnfinished.not_jsonText {cs : List Char} (h : TrailingUnfinished cs) :
    ¬ JsonText cs := by
  obtain ⟨v, b, u, hmunches, -, hu⟩ := h
  rw [jsonText_iff]
  intro h
  obtain ⟨v', rest, hmunches', hrest⟩ := h
  -- Both values are read from the same text: what is left is whitespace and is not.
  obtain rfl := hmunches.unique hmunches'
  exact hu.not_blanks hrest

/-- Accepted are the JSON texts and the texts with an unfinished token after their value. -/
theorem accepts_encode_iff {loadType : FileLoadType} {cs : List Char} :
    Accepts loadType (Utf8.encode cs) ↔ JsonText cs ∨ TrailingUnfinished cs := by
  rw [accepts_encode, jsonText_iff]
  constructor
  · intro h
    obtain ⟨v, rest, hmunches, hend⟩ := h
    rcases tokenTypeOf_lex_eq_endOfInput.mp hend with hblanks | ⟨b, u, rfl, hb, hu⟩
    · exact .inl ⟨v, rest, hmunches, hblanks⟩
    · exact .inr ⟨v, b, u, hmunches, hb, hu⟩
  · intro h
    obtain ⟨v, rest, hmunches, hblanks⟩ | ⟨v, b, u, hmunches, hb, hu⟩ := h
    · exact ⟨v, rest, hmunches, tokenTypeOf_lex_eq_endOfInput.mpr (.inl hblanks)⟩
    · exact ⟨v, b ++ u, hmunches, tokenTypeOf_lex_eq_endOfInput.mpr (.inr ⟨b, u, rfl, hb, hu⟩)⟩

/-- The validator is sound for a well-formed content exactly if no unfinished token comes
    after a value in it. -/
theorem accepts_jsonText_iff (loadType : FileLoadType) (cs : List Char) :
    (Accepts loadType (Utf8.encode cs) → JsonText cs) ↔ ¬ TrailingUnfinished cs := by
  rw [accepts_encode_iff]
  constructor
  · intro h htrailing
    exact htrailing.not_jsonText (h (.inr htrailing))
  · intro hno h
    obtain hjson | htrailing := h
    · exact hjson
    · exact absurd htrailing hno

/-- The value `1` and an unclosed string: accepted, and no JSON text. -/
theorem accepts_unclosed_string :
    Accepts .fullMemory (Utf8.encode ['1', ' ', '"', 'a']) ∧
      ¬ JsonText ['1', ' ', '"', 'a'] := by
  refine ⟨⟨4, _, rfl, rfl⟩, ?_⟩
  have hmunches : Munches ([] ++ (['1'] ++ [' ', '"', 'a']))
      [⟨.tkNumber, ['1'], tkNumber_one⟩] [' ', '"', 'a'] := by
    -- the blank after `1` ends the number
    refine .cons ⟨.tkNumber, ['1'], tkNumber_one⟩ blanks_nil
      (longest_number tkNumber_one ?_) (.nil _)
    rintro c r ⟨⟩
    rfl
  exact TrailingUnfinished.not_jsonText
    ⟨.number ⟨['1'], tkNumber_one⟩, [' '], ['"', 'a'], hmunches, by decide, unfinished_quote⟩

/-! ## Completeness -/

/-- Every way of writing a value is accepted, by a run that ends normally. -/
theorem parse_of_writes (loadType : FileLoadType) {v : JsonValue} {ws ws' : List Char}
    (h : Writes v.lexemes ws) (hws' : Blanks ws') :
    ∃ p, p.ok = true ∧ ∀ fuel, (Utf8.encode (ws ++ ws')).length + 2 ≤ fuel →
      (Parser.ofFile (Utf8File.ofContent loadType (Utf8.encode (ws ++ ws')))).parse fuel =
        .returns p := by
  have haccepts : Accepts loadType (Utf8.encode (ws ++ ws')) :=
    accepts_encode_iff.mpr (.inl ⟨v, ws, ws', rfl, h, hws'⟩)
  obtain ⟨fuel, p, hreturns, hok⟩ := haccepts
  obtain ⟨ts, ending, r, -, -, -, hr⟩ := exists_verdict loadType (ws ++ ws') Tail.empty
  simp only [Tail.empty, List.append_nil] at hr
  obtain rfl := returns_eq hr hreturns
  exact ⟨p, hok, hr⟩

/-- A number that ends with the file, and an object in an array, with whitespace. -/
theorem parse_of_writes_nested :
    let parses (loadType : FileLoadType) (cs : List Char) : Prop :=
      ∃ p, p.ok = true ∧ ∀ fuel, (Utf8.encode cs).length + 2 ≤ fuel →
        (Parser.ofFile (Utf8File.ofContent loadType (Utf8.encode cs))).parse fuel = .returns p
    parses .fullMemory ['1'] ∧ parses .memoryMapped [' ', '[', '1', ',', '\n', '{', '"', 'a', '"',
      ' ', ':', 't', 'r', 'u', 'e', '}', ' ', ']', '\n'] := by
  let one : Spelling .tkNumber := ⟨['1'], tkNumber_one⟩
  let key : Spelling .tkString :=
    ⟨['"', 'a', '"'], .quote (.char (by decide) (by decide) rfl .quote)⟩
  have hblank : Blanks [' '] := by decide
  have hfeed : Blanks ['\n'] := by decide
  have hnumber : Writes (JsonValue.number one).lexemes _ := .cons one.lexeme blanks_nil .nil
  have harray : Writes (JsonValue.array [.number one, .object [(key, .true)]]).lexemes _ :=
    .cons (.fixed .tkOpenBracket rfl) hblank <|
    .cons one.lexeme blanks_nil <|
    .cons (.fixed .tkComma rfl) blanks_nil <|
    .cons (.fixed .tkOpenBrace rfl) hfeed <|
    .cons key.lexeme blanks_nil <|
    .cons (.fixed .tkColon rfl) hblank <|
    .cons (.fixed .tkTrue rfl) blanks_nil <|
    .cons (.fixed .tkCloseBrace rfl) blanks_nil <|
    .cons (.fixed .tkCloseBracket rfl) hblank .nil
  exact ⟨parse_of_writes .fullMemory hnumber blanks_nil,
    parse_of_writes .memoryMapped harray hfeed⟩

/-! ## Malformed and truncated contents -/

/-- Malformed content is never accepted. When a content has been accepted, the reader
    stands at its end and all of its bytes can be decoded. -/
theorem malformed_not_accepted (loadType : FileLoadType) (content : Bytes) :
    (¬ Utf8.WellFormed content → ¬ Accepts loadType content) ∧
    ∀ fuel p, (Parser.ofFile (Utf8File.ofContent loadType content)).parse fuel = .returns p →
      p.ok = true →
        p.tok.source.file.atEnd = true ∧ ∃ cps, Utf8Cpp.Decodes content cps := by
  -- Accepted contents are encoded texts.
  have hwell : Accepts loadType content → Utf8.WellFormed content := by
    intro haccepts
    obtain ⟨cs, v, rest, rfl, -⟩ := accepts_iff.mp haccepts
    exact ⟨cs, rfl⟩
  refine ⟨mt hwell, fun fuel p hreturns hok => ⟨?_, ?_⟩⟩
  · obtain ⟨cs, tail, rfl⟩ := exists_tail content
    obtain ⟨ts, ending, r, -, hends, hverdict, hr⟩ := exists_verdict loadType cs tail
    obtain rfl := returns_eq hr hreturns
    cases hverdict with
    | accepted hending =>
      subst hending
      obtain ⟨htail, q, hq, hlast⟩ := hends
      rw [hlast, Place.atEnd_nil, hq, Tail.exception_eq_none.mp htail]
      rfl
    | rejected hreject => exact nomatch hok.symm.trans hreject
  · exact Utf8Cpp.wellFormed_iff_decodes.mp (hwell ⟨fuel, p, hreturns, hok⟩)

/-- A value that is not a number is not accepted when it is cut. -/
theorem truncated_not_accepted (loadType : FileLoadType) {v : JsonValue} {ws : List Char}
    (h : Writes v.lexemes ws) (hv : ∀ n, v ≠ .number n) {content : Bytes}
    (hpre : content <+: Utf8.encode ws) (hne : content ≠ Utf8.encode ws) :
    ¬ Accepts loadType content := by
  rw [accepts_iff]
  intro h
  obtain ⟨cs, v', rest, rfl, hmunches, -⟩ := h
  obtain ⟨more, rfl⟩ := Utf8.encode_prefix_encode.mp hpre
  have hmore : more ≠ [] := by
    rintro rfl
    exact hne (by rw [List.append_nil])
  -- The value `v` is read from the whole text, and `v'` from its proper prefix `cs`.
  have hwhole := h.munches blanks_nil v.lexemes_isChain
  rw [List.append_nil] at hwhole
  rcases v'.lexemes_ends with ⟨n, rfl⟩ | ⟨l, hl, hlast⟩
  · -- the number starts where the value does
    cases hmunches with
    | @cons _ b cs _ _ hb hlong _ =>
      rcases v.lexemes_starts with ⟨n', rfl⟩ | ⟨l, ls, hls, hl⟩
      · exact hv n' rfl
      · rw [hls, List.append_assoc, List.append_assoc] at hwhole
        exact hl (hwhole.kind_eq_number rfl hb n.valid)
  · -- `v'` does not end with a number, so it is also read from the whole text, with `more`
    -- left over.
    have hlonger := hmunches.append (fun m hm => ?_) more
    · have hnil := hwhole.unique hlonger
      exact hmore (List.append_eq_nil_iff.mp hnil.symm).2
    · obtain ⟨ls, hls⟩ := hlast
      rw [← hls, List.getLast?_concat] at hm
      obtain rfl := Option.some.inj hm
      exact hl

/-- A string without its closing quote. -/
theorem truncated_not_accepted_string : ¬ Accepts .fullMemory (Utf8.encode ['"', 'a']) := by
  have hstring : TkString ['"', 'a', '"'] := .quote (.char (by decide) (by decide) rfl .quote)
  have h : Writes [⟨.tkString, ['"', 'a', '"'], hstring⟩]
      ([] ++ (['"', 'a', '"'] ++ [])) :=
    .cons ⟨.tkString, ['"', 'a', '"'], hstring⟩ blanks_nil .nil
  exact truncated_not_accepted .fullMemory (v := .string ⟨['"', 'a', '"'], hstring⟩) h nofun
    (by decide) (by decide)

/-! ## Termination -/

/-- Every run ends, normally or with a decoding exception of the content. Calls of
    `next_token` that do not throw move the reader until it is at the end, the end of the
    input is reported for good, and an iteration of the loop of `parse` rejects or consumes
    exactly one token. -/
theorem run_terminates (loadType : FileLoadType) (content : Bytes) :
    let start := Scanner.new (Utf8File.ofContent loadType content)
    (∃ r, (∀ fuel, content.length + 2 ≤ fuel →
        (Parser.ofFile (Utf8File.ofContent loadType content)).parse fuel = r) ∧
      ((∃ p, r = .returns p) ∨
        ∃ e rest, r = .throws e ∧ rest <:+ content ∧ Utf8Cpp.next rest = .error e)) ∧
    (∀ s token s', Scanner.Reachable start s → s.file.atEnd = false →
      s.nextToken = .returns (token, s') → s.file.currentOffset < s'.file.currentOffset) ∧
    (∀ s token s', Scanner.Reachable start s → s.nextToken = .returns (token, s') →
      token.type = .endOfInput → ∀ s'', Scanner.Reachable s' s'' →
        ∃ token' next, s''.nextToken = .returns (token', next) ∧ token'.type = .endOfInput ∧
          token'.lexeme = []) ∧
    (∀ (p p' : Parser Scanner) currentState stack, p.iterate currentState stack = .returns p' →
      p'.isValid = false ∨
        ∃ token, token.type ≠ .endOfInput ∧ p.tok.Consumes token p'.tok) := by
  obtain ⟨cs, tail, rfl⟩ := exists_tail content
  refine ⟨?_, ?_, ?_, ?_⟩
  · obtain ⟨ts, ending, r, -, hends, hverdict, hr⟩ := exists_verdict loadType cs tail
    refine ⟨r, hr, ?_⟩
    cases hverdict with
    | accepted => exact .inl ⟨_, rfl⟩
    | rejected => exact .inl ⟨_, rfl⟩
    | thrown hending =>
      subst hending
      exact .inr ⟨_, tail.bytes, rfl, List.suffix_append _ _, (Tail.next_of_exception hends).2⟩
  · intro s token s' hs hend hnext
    obtain ⟨p, right, rfl, -, -⟩ := hs.exists_place
    exact nextToken_advances hnext hend
  · intro s token s' hs hnext htype s'' hs''
    obtain ⟨p, right, rfl, -, -⟩ := hs.exists_place
    exact nextToken_sticky hnext htype hs''
  · intro p p' currentState stack h
    exact Parser.iterate_consumes h

/-! ## Exit codes -/

private theorem inMemory_construct {fs : FileSystem} {path : Bytes} {file : Utf8InMemoryFile}
    (h : Utf8InMemoryFile.construct fs path = .ok file) : file.pos = 0 := by
  unfold Utf8InMemoryFile.construct at h
  split at h
  · exact nomatch h
  · dsimp only at h
    split at h
    · exact nomatch h
    · split at h
      · exact nomatch h
      · obtain rfl := Except.ok.inj h
        rfl

private theorem mmap_construct {fs : FileSystem} {path : Bytes} {file : Utf8MmapFile}
    (h : Utf8MmapFile.construct fs path = .ok file) : file.pos = 0 := by
  unfold Utf8MmapFile.construct at h
  cases hvalid : validateFilePath fs path with
  | error e => rw [hvalid] at h; exact nomatch h
  | ok _ =>
    cases hmap : fs.mapFile path with
    | error e => rw [hvalid, hmap] at h; exact nomatch h
    | ok mapped =>
      rw [hvalid, hmap] at h
      cases mapped with
      | none => exact nomatch h
      | some content => exact Except.ok.inj h ▸ rfl

/-- A file is opened as a newly constructed reader of one of the two classes. -/
theorem openUtf8File_eq_ok {fs : FileSystem} {path : Bytes} {file : Utf8File}
    (h : openUtf8File fs path = .ok file) :
    ∃ loadType content, file = .ofContent loadType content := by
  unfold openUtf8File at h
  cases htype : getFileLoadType fs path with
  | error e => rw [htype] at h; exact nomatch h
  | ok loadType =>
    rw [htype] at h
    cases loadType with
    | fullMemory =>
      cases hfile : Utf8InMemoryFile.construct fs path with
      | error e => rw [hfile] at h; exact nomatch h
      | ok f =>
        rw [hfile] at h
        obtain rfl := Except.ok.inj h
        refine ⟨.fullMemory, f.buffer, ?_⟩
        rw [Utf8File.ofContent, ← inMemory_construct hfile]
    | memoryMapped =>
      cases hfile : Utf8MmapFile.construct fs path with
      | error e => rw [hfile] at h; exact nomatch h
      | ok f =>
        rw [hfile] at h
        obtain rfl := Except.ok.inj h
        refine ⟨.memoryMapped, f.content, ?_⟩
        rw [Utf8File.ofContent, ← mmap_construct hfile]

/-- The program, started on a file, ends with the exit code of the parser's verdict. -/
def ExitsByVerdict (fs : FileSystem) (args : List Bytes) (file : Utf8File) : Prop :=
  ∃ p, ∀ fuel, file.size + 2 ≤ fuel → (Parser.ofFile file).parse fuel = .returns p ∧
    main fs args fuel = .returns (if p.ok then ExitCode.validJson else .invalidJson).toUnderlying

/-- The decoder comes to a malformed sequence: before it there are only tokens that begin a
    value, whitespace and possibly the beginning of a token. -/
def MalformedReached (content : Bytes) : Prop :=
  ¬ Utf8.WellFormed content ∧ ∃ cs ls b u us, LongestDecodable content cs ∧
    Munches cs ls (b ++ u) ∧ IsValue (kinds ls ++ us) ∧ Blanks b ∧ ProperPrefix IsToken u

theorem main_eq {fs : FileSystem} {prog path : Bytes} {file : Utf8File} {fuel : Nat}
    {p : Parser Scanner} (hopen : openUtf8File fs path = .ok file)
    (hparse : (Parser.ofFile file).parse fuel = .returns p) :
    main fs [prog, path] fuel =
      .returns (if p.ok then ExitCode.validJson else .invalidJson).toUnderlying := by
  have htry : tryBlock fs [prog, path] fuel =
      (Run.ofExcept (openUtf8File fs path) >>= fun file => do
        let jsonParser ← (Parser.ofFile file).parse fuel
        if !jsonParser.ok then return .invalidJson
        return .validJson) := rfl
  rw [main, htry, hopen, Run.ofExcept_ok, Run.returns_bind, hparse, Run.returns_bind]
  cases p.ok <;> rfl

/-- The parser has not rejected the tokens before a malformed sequence iff the decoder
    comes to the sequence. -/
theorem malformedReached_iff {loadType : FileLoadType} {cs : List Char} {tail : Tail}
    {ts : List TokenType} {e : Exception}
    (hdelivers : Delivers ((Place.start loadType tail).scanner cs) ts (.throws e))
    (htail : tail.exception = some e) :
    MalformedReached (Utf8.encode cs ++ tail.bytes) ↔ ∃ us, IsValue (ts ++ us) := by
  constructor
  · intro h
    obtain ⟨-, cs', ls, b, u, us, hcs', hmunches, hvalue, hb, hu⟩ := h
    obtain rfl := longestDecodable_iff.mp hcs'
    -- The tokens delivered before the exception are among those up to the sequence.
    obtain ⟨ms, hms⟩ := prefix_of_delivers hmunches (ended_lex_iff.mpr ⟨b, u, rfl, hb, hu⟩)
      htail hdelivers
    rw [← hms, List.append_assoc] at hvalue
    exact ⟨_, hvalue⟩
  · intro h
    obtain ⟨us, hvalue⟩ := h
    -- No part of a value is an error, so the delivered tokens are read from the text.
    have herror : .tkError ∉ ts := fun h => hvalue.not_mem (.inl rfl) (List.mem_append_left us h)
    obtain ⟨ls, rest, hmunches, rfl, hended, -⟩ := munches_of_delivers hdelivers herror
    obtain ⟨b, u, rfl, hb, hu⟩ := ended_lex_iff.mp hended
    refine ⟨?_, cs, ls, b, u, us, longestDecodable_iff.mpr rfl, hmunches, hvalue, hb, hu⟩
    rw [Utf8.wellFormed_encode_append_iff tail.undecodable]
    exact (Tail.next_of_exception htail).1

/-- The exit code is that of the verdict exactly if the decoder does not come to a malformed
    sequence. -/
theorem exitsByVerdict_iff {fs : FileSystem} {prog path : Bytes} {file : Utf8File}
    (hopen : openUtf8File fs path = .ok file) :
    ExitsByVerdict fs [prog, path] file ↔ ¬ MalformedReached file.data := by
  obtain ⟨loadType, content, rfl⟩ := openUtf8File_eq_ok hopen
  obtain ⟨cs, tail, rfl⟩ := exists_tail content
  obtain ⟨ts, ending, r, hdelivers, hends, hverdict, hr⟩ := exists_verdict loadType cs tail
  rw [Utf8File.data_ofContent]
  have hreturns : (∃ p, r = .returns p) →
      ExitsByVerdict fs [prog, path] (.ofContent loadType (Utf8.encode cs ++ tail.bytes)) := by
    intro h
    obtain ⟨p, rfl⟩ := h
    refine ⟨p, fun fuel hfuel => ?_⟩
    rw [Utf8File.size_ofContent] at hfuel
    exact ⟨hr fuel hfuel, main_eq hopen (hr fuel hfuel)⟩
  -- At the end of the input nothing malformed is left, and every verdict returns. Before a
  -- malformed sequence the verdict returns iff the tokens before it have been rejected.
  cases ending with
  | eof last =>
    have htail : tail.bytes = [] := Tail.exception_eq_none.mp hends.1
    refine iff_of_true (hreturns ?_) fun hmalformed => hmalformed.1 ⟨cs, ?_⟩
    · cases hverdict with
      | accepted => exact ⟨_, rfl⟩
      | rejected => exact ⟨_, rfl⟩
      | thrown hending => exact nomatch hending
    · rw [htail, List.append_nil]
  | throws e =>
    rw [malformedReached_iff hdelivers hends]
    cases hverdict with
    | accepted hending => exact nomatch hending
    | rejected _ _ hpre => exact iff_of_true (hreturns ⟨_, rfl⟩) (hpre e rfl)
    | thrown _ hpre =>
      refine iff_of_false ?_ (not_not_intro hpre)
      intro h
      obtain ⟨p, hp⟩ := h
      rw [Utf8File.size_ofContent] at hp
      exact nomatch (hr _ le_rfl).symm.trans (hp _ le_rfl).1

/-- A file system with one small file of a given content. -/
def FileSystem.holding (content : Bytes) : FileSystem where
  pathExists _ := (true, false)
  isRegularFile _ := (true, false)
  fileSize _ := (content.length, false)
  openStream _ := some { endPosition := content.length, contents := content }
  mapFile _ := .ok (some content)

/-- A file with the number `1` meets the condition. -/
theorem exitsByVerdict_number :
    ExitsByVerdict (.holding (Utf8.encode ['1'])) [lit "parser", lit "one.json"]
      (.ofContent .fullMemory (Utf8.encode ['1'])) := by
  refine (exitsByVerdict_iff rfl).mpr fun h => h.1 ⟨['1'], ?_⟩
  exact Utf8File.data_ofContent _ _

/-- A file with the byte 0xFF: the exit code is `UNKNOWN_ERROR`. -/
theorem exitsByVerdict_malformed :
    openUtf8File (.holding [0xff]) (lit "ff.json") = .ok (.ofContent .fullMemory [0xff]) ∧
    main (.holding [0xff]) [lit "parser", lit "ff.json"] 3 =
      .returns ExitCode.unknownError.toUnderlying ∧
    ¬ ExitsByVerdict (.holding [0xff]) [lit "parser", lit "ff.json"]
      (.ofContent .fullMemory [0xff]) := by
  refine ⟨rfl, rfl, ?_⟩
  intro h
  obtain ⟨p, hp⟩ := h
  exact nomatch (hp 3 (by decide)).1

end CcJson
