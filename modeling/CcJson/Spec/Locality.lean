import CcJson.Native.Utf8Convert
import CcJson.Spec.Traces
import CcJson.Spec.Whitespace

/-!
# What is decided by the beginning of a file

A token that ends before the last character of the beginning of a file does not depend on
what the file goes on with, which need not even be well-formed. So a file that is rejected
because of its beginning is rejected at the same place however it goes on.

## Key results

- `tokens_local`: the tokens in the common beginning of two files
- `rejection_final`: a rejection before the end of the common beginning
- `bom_rejected`: a byte order mark is such a rejection
-/

namespace CcJson

open Munch

/-! ## Readings from one scanner -/

namespace Scanner.Reads

variable {start s t : Scanner} {tokens tokens' : List Token}

private theorem eq_of_nil (h : start.Reads [] s) : s = start := by
  generalize htokens : ([] : List Token) = all at h
  cases h with
  | nil => rfl
  | snoc => simp at htokens

theorem unique (h : start.Reads tokens s) (h' : start.Reads tokens t) : s = t := by
  induction h generalizing t with
  | nil => exact h'.eq_of_nil.symm
  | snoc _ hnext ih =>
    obtain ⟨u, hu, hnext'⟩ := h'.exists_of_snoc
    obtain rfl := ih hu
    exact (Prod.mk.inj (Run.returns.inj (hnext.symm.trans hnext'))).2

/-- Of two readings the shorter one begins the longer one. -/
theorem prefix_of_length_le (h : start.Reads tokens s) (h' : start.Reads tokens' t)
    (hlen : tokens.length ≤ tokens'.length) : tokens <+: tokens' := by
  induction h' generalizing tokens s with
  | nil => rw [List.eq_nil_of_length_eq_zero (Nat.le_zero.mp hlen)]
  | @snoc front u u' last h' hnext' ih =>
    by_cases hle : tokens.length ≤ front.length
    · exact (ih h hle).trans (List.prefix_append _ _)
    · -- both readings have their last tokens at the same place
      cases h with
      | nil => exact absurd (Nat.zero_le _) hle
      | @snoc tokens s₀ s token h hnext =>
        simp only [List.length_append, List.length_singleton] at hlen hle
        have hpre := ih h (by omega)
        obtain rfl := hpre.eq_of_length (by omega)
        obtain rfl := h.unique h'
        obtain ⟨rfl, -⟩ := Prod.mk.inj (Run.returns.inj (hnext.symm.trans hnext'))
        exact List.prefix_rfl

/-- What is delivered begins with the tokens that are read, up to the end of the input. -/
theorem prefix_of_delivers (h : start.Reads tokens s) (hend : .endOfInput ∉ types tokens)
    {ts : List TokenType} {ending : Ending Scanner} (hdelivers : Delivers start ts ending) :
    ∃ ts', ts = types tokens ++ ts' ∧ Delivers s ts' ending := by
  induction h with
  | nil => exact ⟨ts, rfl, hdelivers⟩
  | @snoc tokens s s' token h hnext ih =>
    rw [types, List.map_append, List.mem_append, not_or] at hend
    obtain ⟨hend, hlast⟩ := hend
    obtain ⟨ts', rfl, hrest⟩ := ih hend
    have htype : token.type ≠ .endOfInput := fun heq => hlast (by simp [heq])
    cases hrest with
    | eof hnext' htype' =>
      obtain ⟨rfl, -⟩ := Prod.mk.inj (Run.returns.inj (hnext.symm.trans hnext'))
      exact absurd htype' htype
    | throws hnext' => cases hnext.symm.trans hnext'
    | cons hnext' _ hrest =>
      obtain ⟨rfl, rfl⟩ := Prod.mk.inj (Run.returns.inj (hnext.symm.trans hnext'))
      exact ⟨_, by simp [types], hrest⟩

end Scanner.Reads

/-! ## Files with the same beginning -/

/-- The scanners stand at the same place in files that both begin with `cs`: what is left of
    `cs` there is `shared`, and they are unaware of what comes after it. -/
inductive Shares (cs : List Char) : Scanner → Scanner → Prop where
  | intro (p q : Place) (shared xs ys : List Char) (hcs : cs = p.left ++ shared)
      (hleft : q.left = p.left) (hposition : q.position = p.position) :
      Shares cs (p.scanner (shared ++ xs)) (q.scanner (shared ++ ys))

theorem Shares.currentOffset {cs : List Char} {s t : Scanner} (h : Shares cs s t) :
    t.file.currentOffset = s.file.currentOffset := by
  obtain ⟨p, q, shared, xs, ys, -, hleft, -⟩ := h
  rw [Place.currentOffset_scanner, Place.currentOffset_scanner, hleft]

/-- What is counted beyond a token, when something comes after it. -/
theorem lookaheadOf_eq {cs : List Char} (h : restOf (lex cs) ≠ []) :
    lookaheadOf (lex cs) = lookahead (tokenTypeOf (lex cs)) (restOf (lex cs)) := by
  cases hlex : lex cs with
  | accepted kind w rest => rfl
  | rejected w rest => rfl
  | ended s w =>
    rw [hlex] at h
    exact absurd rfl h

theorem lookahead_append {shared : List Char} (h : shared ≠ []) (kind : TokenType)
    (xs ys : List Char) : lookahead kind (shared ++ xs) = lookahead kind (shared ++ ys) := by
  obtain ⟨c, shared, rfl⟩ := List.exists_cons_of_ne_nil h
  rfl

/-- A token that ends inside the common text is the next token in every text that goes on with
    it. -/
theorem lex_of_shared {shared xs : List Char}
    (hlen : (leadingBlanks (shared ++ xs) ++ lexemeOf (lex (shared ++ xs))).length <
      shared.length) :
    ∃ shared', shared' ≠ [] ∧
      shared = leadingBlanks (shared ++ xs) ++ lexemeOf (lex (shared ++ xs)) ++ shared' ∧
      tokenTypeOf (lex (shared ++ xs)) ≠ .endOfInput ∧
      ∀ zs, leadingBlanks (shared ++ zs) = leadingBlanks (shared ++ xs) ∧
        tokenTypeOf (lex (shared ++ zs)) = tokenTypeOf (lex (shared ++ xs)) ∧
        lexemeOf (lex (shared ++ zs)) = lexemeOf (lex (shared ++ xs)) ∧
        restOf (lex (shared ++ zs)) = shared' ++ zs := by
  obtain ⟨text, htext⟩ : ∃ text, shared ++ xs = text := ⟨_, rfl⟩
  have hsplit := lex_split (shared ++ xs)
  rw [← List.append_assoc] at hsplit
  rw [htext] at hlen ⊢
  -- the token is a proper part of the common text
  obtain ⟨shared', hshared, hrest⟩ : ∃ shared',
      shared = leadingBlanks text ++ lexemeOf (lex text) ++ shared' ∧
        restOf (lex text) = shared' ++ xs := by
    rcases List.append_eq_append_iff.mp hsplit with ⟨a, ha, hb⟩ | ⟨a, ha, hb⟩
    · rw [htext] at ha hb
      exact ⟨a, ha, hb⟩
    · rw [htext] at ha
      rw [ha, List.length_append] at hlen
      omega
  have hne : shared' ≠ [] := by
    rintro rfl
    have := congrArg List.length hshared
    rw [List.append_nil] at this
    omega
  have htype : tokenTypeOf (lex text) ≠ .endOfInput := by
    intro heq
    rw [restOf_eq_nil (tokenTypeOf_eq_endOfInput.mp heq).1] at hrest
    exact hne (List.append_eq_nil_iff.mp hrest.symm).1
  refine ⟨shared', hne, hshared, htype, ?_⟩
  intro zs
  have hzs : shared ++ zs = leadingBlanks text ++ (lexemeOf (lex text) ++ (shared' ++ zs)) := by
    rw [hshared]
    simp
  obtain ⟨hkind, hlexeme, hrest'⟩ := lex_of_rest_of_number (shared' ++ zs) htype (by
    -- what ends a number is the first character of `shared'`
    intro _ c r heq
    obtain ⟨d, shared', rfl⟩ := List.exists_cons_of_ne_nil hne
    obtain ⟨rfl, -⟩ := List.cons.inj heq
    exact .inr ⟨shared' ++ xs, hrest⟩)
  rw [← hzs] at hkind hlexeme hrest'
  refine ⟨?_, hkind, hlexeme, hrest'⟩
  have hsplit' := lex_split (shared ++ zs)
  rw [hlexeme, hrest'] at hsplit'
  exact List.append_cancel_right (hsplit'.trans hzs)

/-- One call that ends before the end of the common text returns the same token in both files. -/
theorem Shares.nextToken {cs : List Char} {s t s' : Scanner} {token : Token} (h : Shares cs s t)
    (hnext : s.nextToken = .returns (token, s'))
    (hinside : s'.file.currentOffset < (Utf8.encode cs).length) :
    token.type ≠ .endOfInput ∧ ∃ t', t.nextToken = .returns (token, t') ∧ Shares cs s' t' := by
  obtain ⟨p, q, shared, xs, ys, rfl, hleft, hposition⟩ := h
  obtain ⟨hends, -⟩ := nextToken_eq_returns hnext
  obtain ⟨p', hfollows, hposition', hreturns⟩ := nextToken_counts _ hends
  rw [hreturns] at hnext
  obtain ⟨rfl, rfl⟩ := Prod.mk.inj (Run.returns.inj hnext)
  -- offsets are encoded lengths: the token is shorter than the common text
  have hlen : (leadingBlanks (shared ++ xs) ++ lexemeOf (lex (shared ++ xs))).length <
      shared.length := by
    by_contra hle
    rw [Place.currentOffset_scanner, hfollows.left] at hinside
    have hpre : shared <+: leadingBlanks (shared ++ xs) ++ lexemeOf (lex (shared ++ xs)) := by
      apply List.prefix_of_prefix_length_le (List.prefix_append shared xs) _ (by omega)
      exact ⟨restOf (lex (shared ++ xs)), by rw [List.append_assoc, lex_split]⟩
    obtain ⟨more, hmore⟩ := hpre
    rw [← hmore, ← List.append_assoc, Utf8.encode_append, List.length_append] at hinside
    omega
  obtain ⟨shared', hne, hshared, htype, hlex⟩ := lex_of_shared hlen
  obtain ⟨-, -, -, hrest⟩ := hlex xs
  obtain ⟨hblanks', hkind', hlexeme', hrest'⟩ := hlex ys
  refine ⟨htype, ?_⟩
  have hended : ¬ Ended (lex (shared ++ ys)) := by
    intro hended
    rw [restOf_eq_nil hended] at hrest'
    exact hne (List.append_eq_nil_iff.mp hrest'.symm).1
  obtain ⟨q', hfollows', hposition'', hreturns'⟩ := nextToken_counts (p := q) _ (.inr hended)
  -- the characters that are counted are the same, with the one that is put back
  have hlook : lookaheadOf (lex (shared ++ ys)) = lookaheadOf (lex (shared ++ xs)) := by
    rw [lookaheadOf_eq (by rw [hrest']; simp [hne]), lookaheadOf_eq (by rw [hrest]; simp [hne]),
      hkind', hrest, hrest', lookahead_append hne]
  have hsame : q'.position = p'.position := by
    rw [hposition'', hposition', hposition, hblanks', hlexeme', hlook]
  refine ⟨q'.scanner (shared' ++ ys), ?_, ?_⟩
  · rw [hreturns', hkind', hlexeme', hrest', Place.token, Place.token, hsame]
  · rw [hrest]
    refine .intro p' q' shared' xs ys ?_ ?_ hsame
    · rw [hfollows.left, List.append_assoc, ← hshared]
    · rw [hfollows'.left, hfollows.left, hleft, hblanks', hlexeme']

/-- A reading that ends before the end of the common text is one of both files. -/
theorem Shares.reads {cs : List Char} {s t s' : Scanner} {tokens : List Token}
    (h : Shares cs s t) (hreads : s.Reads tokens s')
    (hinside : s'.file.currentOffset < (Utf8.encode cs).length) :
    .endOfInput ∉ types tokens ∧ ∃ t', t.Reads tokens t' ∧ Shares cs s' t' := by
  induction hreads with
  | nil => exact ⟨List.not_mem_nil, t, .nil, h⟩
  | @snoc tokens u u' token hreads hnext ih =>
    have hle : u.file.currentOffset ≤ u'.file.currentOffset := by
      obtain ⟨p, q, shared, xs, ys, -⟩ := h
      obtain ⟨p₁, right₁, rfl⟩ := hreads.exists_place
      obtain ⟨-, p₂, hfollows, -, rfl⟩ := nextToken_eq_returns hnext
      rw [Place.currentOffset_scanner, Place.currentOffset_scanner, hfollows.left,
        Utf8.encode_append p₁.left, List.length_append]
      omega
    obtain ⟨hend, t', hreads', hshares⟩ := ih (by omega)
    obtain ⟨htype, t'', hnext', hshares'⟩ := hshares.nextToken hnext hinside
    refine ⟨?_, t'', hreads'.snoc hnext', hshares'⟩
    simp only [types, List.map_append, List.map_singleton, List.mem_append, List.mem_singleton]
    exact not_or.mpr ⟨hend, htype.symm⟩

/-- New scanners over files with the same beginning. -/
theorem shares_start (loadType loadType' : FileLoadType) (cs : List Char) (x y : Bytes) :
    Shares cs (Scanner.new (.ofContent loadType (Utf8.encode cs ++ x)))
      (Scanner.new (.ofContent loadType' (Utf8.encode cs ++ y))) := by
  obtain ⟨xs, tail, rfl⟩ := exists_tail x
  obtain ⟨ys, tail', rfl⟩ := exists_tail y
  rw [← List.append_assoc, ← List.append_assoc, ← Utf8.encode_append, ← Utf8.encode_append,
    scannerNew_eq, scannerNew_eq]
  exact .intro _ _ cs xs ys rfl rfl rfl

/-- The tokens of a file that end before the end of its beginning `cs` are, with their types,
    lexemes and positions, the tokens of every file that begins with `cs`, whatever bytes come
    after it. -/
theorem tokens_local {loadType : FileLoadType} {cs : List Char} {x : Bytes} {tokens : List Token}
    {s : Scanner}
    (hreads : (Scanner.new (.ofContent loadType (Utf8.encode cs ++ x))).Reads tokens s)
    (hinside : s.file.currentOffset < (Utf8.encode cs).length) (loadType' : FileLoadType)
    (y : Bytes) :
    ∃ t, (Scanner.new (.ofContent loadType' (Utf8.encode cs ++ y))).Reads tokens t ∧
      t.file.currentOffset = s.file.currentOffset := by
  obtain ⟨-, t, hreads', hshares⟩ := (shares_start loadType loadType' cs x y).reads hreads hinside
  exact ⟨t, hreads', hshares.currentOffset⟩

/-- The bracket and the comma of `[, `, before a byte that is no part of UTF-8 and before a
    digit. -/
theorem tokens_local_bracket :
    let tokens := [Token.mk (Utf8.encode ['[']) 0 1 .tkOpenBracket,
      Token.mk (Utf8.encode [',']) 0 2 .tkComma]
    ∃ t, (Scanner.new (.ofContent .memoryMapped
        (Utf8.encode ['[', ',', ' '] ++ [0x31]))).Reads tokens t ∧ t.file.currentOffset = 2 :=
  have hfirst : (Scanner.new (.ofContent .fullMemory
      (Utf8.encode ['[', ',', ' '] ++ [0xff]))).nextToken = .returns
        (Token.mk (Utf8.encode ['[']) 0 1 .tkOpenBracket, Scanner.mk
          (.inMemory { buffer := Utf8.encode ['[', ',', ' '] ++ [0xff], pos := 1 }) 0 1 []) := by
    decide
  have hsecond : (Scanner.mk (.inMemory
      { buffer := Utf8.encode ['[', ',', ' '] ++ [0xff], pos := 1 }) 0 1 []).nextToken = .returns
        (Token.mk (Utf8.encode [',']) 0 2 .tkComma, Scanner.mk
          (.inMemory { buffer := Utf8.encode ['[', ',', ' '] ++ [0xff], pos := 2 }) 0 2 []) := by
    decide
  tokens_local ((Scanner.Reads.nil.snoc hfirst).snoc hsecond) (by decide) .memoryMapped [0x31]

/-! ## Rejections -/

/-- A sequence in which a token offends begins no value, and so goes no further in a sequence in
    which another token offends. -/
theorem Offends.length_le {ts seen : List TokenType} {k k' : TokenType} (h : Offends ts k)
    (hk : k ≠ .endOfInput) (h' : Offends seen k') (hpre : ts ++ [k] <+: seen ++ [k']) :
    seen.length ≤ ts.length := by
  by_contra hlt
  -- else the whole of `ts ++ [k]` begins a value, as `seen` does
  have hseen : ts ++ [k] <+: seen := by
    refine List.prefix_of_prefix_length_le hpre (List.prefix_append _ _) ?_
    rw [List.length_append, List.length_singleton]
    omega
  obtain ⟨more, rfl⟩ := hseen
  obtain ⟨us, hus⟩ := h'.viable
  rw [List.append_assoc, List.append_assoc] at hus
  exact h.refused hk ⟨_, hus⟩

/-- The first token that offends is at one place in a file. -/
theorem Scanner.Reads.unique_of_offends {start s t : Scanner} {tokens tokens' : List Token}
    {token token' : Token} (h : start.Reads (tokens ++ [token]) s)
    (h' : start.Reads (tokens' ++ [token']) t) (hoffends : Offends (types tokens) token.type)
    (hoffends' : Offends (types tokens') token'.type)
    (hend : .endOfInput ∉ types (tokens ++ [token])) : s = t := by
  have hmem : ∀ last ∈ tokens ++ [token], last.type ≠ .endOfInput := by
    intro last hlast heq
    exact hend (List.mem_map.mpr ⟨last, hlast, heq⟩)
  have hlen : tokens'.length = tokens.length := by
    rcases Nat.le_total (tokens ++ [token]).length (tokens' ++ [token']).length with hle | hle
    · have hpre := (h.prefix_of_length_le h' hle).map Token.type
      have hback := hoffends.length_le (hmem token (by simp)) hoffends' (by simpa using hpre)
      simp only [types, List.length_map, List.length_append, List.length_singleton] at hle hback
      omega
    · have hpre := h'.prefix_of_length_le h hle
      have htype' := hmem token' (hpre.subset (by simp))
      have hback := hoffends'.length_le htype' hoffends (by simpa using hpre.map Token.type)
      simp only [types, List.length_map, List.length_append, List.length_singleton] at hle hback
      omega
  have heq := (h.prefix_of_length_le h' (by simp [hlen])).eq_of_length (by simp [hlen])
  rw [← heq] at h'
  exact h.unique h'

/-- A file in which a token offends is rejected, with the reader behind that token. -/
theorem rejects_of_reads {loadType : FileLoadType} {content : Bytes} {t : Scanner}
    {tokens : List Token} {token : Token}
    (hreads : (Scanner.new (.ofContent loadType content)).Reads (tokens ++ [token]) t)
    (hend : .endOfInput ∉ types (tokens ++ [token]))
    (hoffends : Offends (types tokens) token.type) :
    ∃ p, p.ok = false ∧ p.tok.source = t ∧ ∀ fuel, content.length + 2 ≤ fuel →
      (Parser.ofFile (.ofContent loadType content)).parse fuel = .returns p := by
  obtain ⟨cs, tail, rfl⟩ := exists_tail content
  rw [scannerNew_eq] at hreads
  obtain ⟨ts, ending, r, hdelivers, -, hverdict, hr⟩ := exists_verdict loadType cs tail
  obtain ⟨ts', rfl, -⟩ := hreads.prefix_of_delivers hend hdelivers
  have hrefused : ¬ ∃ us, IsValue (types (tokens ++ [token]) ++ ts' ++ us) := by
    intro h
    obtain ⟨us, hus⟩ := h
    have htype : token.type ≠ .endOfInput := fun heq => hend (by simp [heq])
    refine hoffends.refused htype ⟨ts' ++ us, ?_⟩
    simpa [types] using hus
  -- the tokens that are delivered begin no value, which leaves the one verdict
  cases hverdict with
  | accepted _ _ hvalue => exact absurd ⟨[], by rwa [List.append_nil]⟩ hrefused
  | thrown _ hpre => exact absurd hpre hrefused
  | @rejected p hok =>
    refine ⟨p, hok, ?_, hr⟩
    have hparse := hr _ (Nat.le_refl _)
    rw [Parser.ofFile, scannerNew_eq] at hparse
    obtain ⟨tokens', token', hreads', -, -, -, hrejected'⟩ := exists_trace hparse
    exact (hreads.unique_of_offends hreads' hoffends (hrejected' hok) hend).symm

/-- When the parser stops before the end of the beginning `cs` of a file, it has rejected the
    file, and it rejects every file that begins with `cs`, whatever bytes come after it, with the
    reader at the same place. -/
theorem rejection_final {loadType : FileLoadType} {cs : List Char} {x : Bytes} {fuel : Nat}
    {p : Parser Scanner}
    (hparse : (Parser.ofFile (.ofContent loadType (Utf8.encode cs ++ x))).parse fuel = .returns p)
    (hinside : p.tok.source.file.currentOffset < (Utf8.encode cs).length)
    (loadType' : FileLoadType) (y : Bytes) :
    p.ok = false ∧ ∃ p', p'.ok = false ∧
      p'.tok.source.file.currentOffset = p.tok.source.file.currentOffset ∧
      ∀ fuel', (Utf8.encode cs ++ y).length + 2 ≤ fuel' →
        (Parser.ofFile (.ofContent loadType' (Utf8.encode cs ++ y))).parse fuel' =
          .returns p' := by
  have hshares := shares_start loadType loadType' cs x y
  obtain ⟨place, right, hplace⟩ : ∃ (place : Place) (right : List Char),
      Scanner.new (.ofContent loadType (Utf8.encode cs ++ x)) = place.scanner right := by
    obtain ⟨ds, tail, hx⟩ := exists_tail (Utf8.encode cs ++ x)
    exact ⟨_, ds, by rw [hx, scannerNew_eq]⟩
  rw [Parser.ofFile, hplace] at hparse
  rw [hplace] at hshares
  obtain ⟨tokens, token, hreads, -, -, haccepted, hrejected⟩ := exists_trace hparse
  obtain ⟨hend, t, hreads', hshares'⟩ := hshares.reads hreads hinside
  -- the end of the input has not been read, so the parser has not accepted
  have hok : p.ok = false := by
    cases hok : p.ok with
    | false => rfl
    | true => exact absurd (by simp [(haccepted hok).2]) hend
  obtain ⟨p', hok', hsource, hparse'⟩ := rejects_of_reads hreads' hend (hrejected hok)
  exact ⟨hok, p', hok', by rw [hsource, hshares'.currentOffset], hparse'⟩

/-- An array that begins with a comma, before a byte that is no part of UTF-8 and before a
    digit. -/
theorem rejection_final_comma :
    ∃ p', p'.ok = false ∧ p'.tok.source.file.currentOffset = 2 ∧ ∀ fuel', 6 ≤ fuel' →
      (Parser.ofFile (.ofContent .memoryMapped
        (Utf8.encode ['[', ',', ' '] ++ [0x31]))).parse fuel' = .returns p' :=
  have hparse : ∃ p, (Parser.ofFile (.ofContent .fullMemory
      (Utf8.encode ['[', ',', ' '] ++ [0xff]))).parse 4 = .returns p ∧
        p.tok.source.file.currentOffset = 2 := ⟨_, rfl, rfl⟩
  have ⟨p, hreturns, hoffset⟩ := hparse
  have hinside : p.tok.source.file.currentOffset < (Utf8.encode ['[', ',', ' ']).length := by
    rw [hoffset]
    decide
  hoffset ▸ (rejection_final hreturns hinside .memoryMapped [0x31]).2

/-! ## Byte order marks -/

theorem startsWithBom_iff {content : Bytes} :
    Utf8Cpp.startsWithBom content = true ↔ Utf8.encode ['\uFEFF'] <+: content := by
  have hbom : Utf8.encode ['\uFEFF'] = [0xef, 0xbb, 0xbf] := by decide
  rw [hbom]
  match content with
  | [] => simp [Utf8Cpp.startsWithBom]
  | [_] => simp [Utf8Cpp.startsWithBom]
  | [_, _] => simp [Utf8Cpp.startsWithBom]
  | a :: b :: c :: rest =>
    simp only [Utf8Cpp.startsWithBom, List.isEmpty_cons, List.headD_cons, List.tail_cons,
      Bool.not_false, Bool.true_and, Bool.and_eq_true, beq_iff_eq, List.cons_prefix_cons,
      List.nil_prefix, and_true, and_assoc]
    exact and_congr eq_comm (and_congr eq_comm eq_comm)

/-- A rejected token begins no value. -/
theorem offends_tkError : Offends [] .tkError where
  viable := ⟨[.tkNull], isValue_iff.mpr (yields_value_cons.mpr (by simp))⟩
  incomplete := fun h => nomatch h
  refused := by
    intro _ h
    obtain ⟨us, hus⟩ := h
    exact hus.not_mem (.inl rfl) (by simp)

/-- A file that begins with a character at which a token is rejected is rejected, with the reader
    behind this character. -/
theorem rejects_of_first {loadType : FileLoadType} {content : Bytes} {c : Char}
    (hlex : ∀ cs, lex (c :: cs) = .rejected [c] cs) (hcontent : Utf8.encode [c] <+: content) :
    ∃ p, p.ok = false ∧ p.tok.source.file.currentOffset = (Utf8.encode [c]).length ∧
      ∀ fuel, content.length + 2 ≤ fuel →
        (Parser.ofFile (.ofContent loadType content)).parse fuel = .returns p := by
  obtain ⟨x, rfl⟩ := hcontent
  obtain ⟨cs, tail, rfl⟩ := exists_tail x
  have hnew := scannerNew_eq loadType (c :: cs) tail
  rw [show c :: cs = [c] ++ cs from rfl, Utf8.encode_append, List.append_assoc] at hnew
  -- the first token is this character
  have hblanks : leadingBlanks (c :: cs) = [] := by
    have hlength := congrArg List.length (lex_rejected (hlex cs)).1
    simp only [List.length_append, List.length_cons, List.length_nil] at hlength
    exact List.length_eq_zero_iff.mp (by omega)
  obtain ⟨p', hfollows, hnext⟩ :=
    nextToken_returns (p := Place.start loadType tail) (c :: cs) (.inr (by simp [hlex, Ended]))
  rw [hlex, hblanks] at hfollows
  rw [hlex] at hnext
  have hreads : (Scanner.new (.ofContent loadType
      (Utf8.encode [c] ++ (Utf8.encode cs ++ tail.bytes)))).Reads ([] ++ [p'.token .tkError [c]])
        (p'.scanner cs) := by
    rw [hnew]
    exact Scanner.Reads.nil.snoc hnext
  obtain ⟨p, hok, hsource, hparse⟩ :=
    rejects_of_reads hreads (by simp [types, Place.token]) offends_tkError
  refine ⟨p, hok, ?_, hparse⟩
  rw [hsource, Place.currentOffset_scanner, hfollows.left]
  rfl

/-- The program does not skip a byte order mark: a file that begins with one is rejected behind
    it, whatever comes after it. -/
theorem bom_rejected {content : Bytes} (h : Utf8Cpp.startsWithBom content = true)
    (loadType : FileLoadType) :
    ∃ p, p.ok = false ∧ p.tok.source.file.currentOffset = 3 ∧
      ∀ fuel, content.length + 2 ≤ fuel →
        (Parser.ofFile (.ofContent loadType content)).parse fuel = .returns p :=
  rejects_of_first (c := '\uFEFF') (fun _ => rfl) (startsWithBom_iff.mp h)

/-- A byte order mark before a JSON text, and before a byte that is no part of UTF-8. -/
theorem bom_rejected_null :
    (∃ p, p.ok = false ∧ p.tok.source.file.currentOffset = 3 ∧ ∀ fuel, 9 ≤ fuel →
      (Parser.ofFile (.ofContent .fullMemory
        [0xef, 0xbb, 0xbf, 0x6e, 0x75, 0x6c, 0x6c])).parse fuel = .returns p) ∧
    ∃ p, p.ok = false ∧ p.tok.source.file.currentOffset = 3 ∧ ∀ fuel, 6 ≤ fuel →
      (Parser.ofFile (.ofContent .memoryMapped
        [0xef, 0xbb, 0xbf, 0xff])).parse fuel = .returns p :=
  have hnull : Utf8Cpp.startsWithBom [0xef, 0xbb, 0xbf, 0x6e, 0x75, 0x6c, 0x6c] = true := by decide
  have hmalformed : Utf8Cpp.startsWithBom [0xef, 0xbb, 0xbf, 0xff] = true := by decide
  ⟨bom_rejected hnull .fullMemory, bom_rejected hmalformed .memoryMapped⟩

end CcJson
