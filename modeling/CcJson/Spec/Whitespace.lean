import CcJson.Spec.Validator

/-!
# Whitespace between tokens

Inserting insignificant whitespace at the beginning of a file or after a token changes
neither the tokens nor the verdict: a number that was ended by the character after it
is then ended by the whitespace.

## Key results

- `lex_of_rest`: the next token does not depend on what comes after it
- `whitespace_irrelevant`: the tokens and the verdict after inserting whitespace
-/

namespace CcJson

open Munch

/-! ## The next token and the text after it -/

/-- The next token stays the same whatever comes after it, unless it is a number: then what comes
    after it starts with whitespace or as before. -/
theorem lex_of_rest_of_number {cs : List Char} (rest : List Char)
    (htype : tokenTypeOf (lex cs) ≠ .endOfInput)
    (hrest : tokenTypeOf (lex cs) = .tkNumber →
      ∀ c r, rest = c :: r → isBlank c = true ∨ ∃ r', restOf (lex cs) = c :: r') :
    let lexed := lex (leadingBlanks cs ++ (lexemeOf (lex cs) ++ rest))
    tokenTypeOf lexed = tokenTypeOf (lex cs) ∧ lexemeOf lexed = lexemeOf (lex cs) ∧
      restOf lexed = rest := by
  have hb := blanks_leadingBlanks cs
  by_cases herror : tokenTypeOf (lex cs) = .tkError
  · -- an error has been found when its last character is read
    obtain ⟨v, c, hlex, hdead, hstart⟩ := lex_of_tkError herror
    have hlexeme : lexemeOf (lex cs) = v ++ [c] := by rw [hlex]; rfl
    have hdead' : lex (leadingBlanks cs ++ (v ++ c :: rest)) = .rejected (v ++ [c]) rest :=
      lex_of_dead hb hstart hdead
    rw [herror, hlexeme, List.append_assoc, List.singleton_append, hdead']
    exact ⟨rfl, rfl, rfl⟩
  · have hlong := longest_lex herror htype
    apply lex_eq_of_longest hb
    by_cases hnumber : tokenTypeOf (lex cs) = .tkNumber
    · -- a number is ended by whitespace, and by what has ended it before
      have hrest := hrest hnumber
      rw [hnumber] at hlong ⊢
      obtain ⟨hw, hmax⟩ := longest_number_iff.mp hlong
      refine longest_number_iff.mpr ⟨hw, ?_⟩
      intro c r heq hlonger
      rcases hrest c r heq with hblank | ⟨r', hr'⟩
      · obtain ⟨v, hv⟩ := hlonger
        have hc := hv.numberChars c (by simp)
        rw [isNumberChar_of_isBlank hblank] at hc
        exact nomatch hc
      · exact hmax c r' hr' hlonger
    · exact longest_of_ne_number hlong.1 hnumber rest

/-- The next token stays the same if what comes after it starts with whitespace or as before. -/
theorem lex_of_rest {cs : List Char} (rest : List Char) (htype : tokenTypeOf (lex cs) ≠ .endOfInput)
    (hrest : ∀ c r, rest = c :: r → isBlank c = true ∨ ∃ r', restOf (lex cs) = c :: r') :
    let lexed := lex (leadingBlanks cs ++ (lexemeOf (lex cs) ++ rest))
    tokenTypeOf lexed = tokenTypeOf (lex cs) ∧ lexemeOf lexed = lexemeOf (lex cs) ∧
      restOf lexed = rest :=
  lex_of_rest_of_number rest htype fun _ => hrest

/-! ## Cuts after a token -/

/-- `left` is made up of whole tokens, with whitespace before them, of the text
    `left ++ right`. -/
inductive Cut : List Char → List Char → Prop where
  | here (cs : List Char) : Cut [] cs
  | token {cs left right : List Char} (htype : tokenTypeOf (lex cs) ≠ .endOfInput)
      (hrest : restOf (lex cs) = left ++ right) (h : Cut left right) :
      Cut (leadingBlanks cs ++ lexemeOf (lex cs) ++ left) right

/-- The next token belongs to the whole tokens. -/
theorem Cut.snoc {left right : List Char} (h : Cut left right)
    (htype : tokenTypeOf (lex right) ≠ .endOfInput) :
    Cut (left ++ (leadingBlanks right ++ lexemeOf (lex right))) (restOf (lex right)) := by
  induction h with
  | here cs =>
    have hcut : Cut (leadingBlanks cs ++ lexemeOf (lex cs) ++ []) (restOf (lex cs)) :=
      .token htype rfl (.here _)
    rwa [List.append_nil] at hcut
  | @token cs left right htype' hrest h ih =>
    rw [List.append_assoc]
    refine .token htype' ?_ (ih htype)
    rw [hrest, List.append_assoc, List.append_assoc, lex_split]

/-- Whitespace inserted at a cut does not change the tokens. -/
theorem Cut.lex_insert {left right u : List Char} (h : Cut left right) (hu : Blanks u) (k : Nat) :
    tokenTypeOf (lex (restAfter k (left ++ (u ++ right)))) =
        tokenTypeOf (lex (restAfter k (left ++ right))) ∧
      lexemeOf (lex (restAfter k (left ++ (u ++ right)))) =
        lexemeOf (lex (restAfter k (left ++ right))) := by
  induction h generalizing k with
  | here cs =>
    rw [List.nil_append, List.nil_append, lex_restAfter_blanks hu]
    exact ⟨rfl, rfl⟩
  | @token cs left right htype hrest h ih =>
    have hsplit := lex_split cs
    rw [hrest] at hsplit
    -- the next token is followed by whitespace now, or by the same character as before
    obtain ⟨hkind, hlexeme, hrest'⟩ := lex_of_rest (left ++ (u ++ right)) htype (by
      intro c r heq
      cases left with
      | cons d left =>
        obtain ⟨rfl, -⟩ := List.cons.inj heq
        exact .inr ⟨left ++ right, hrest⟩
      | nil =>
        cases u with
        | nil => exact .inr ⟨r, by rw [hrest]; exact heq⟩
        | cons d u =>
          obtain ⟨rfl, -⟩ := List.cons.inj heq
          exact .inl (blanks_cons.mp hu).1)
    simp only [List.append_assoc] at hkind hlexeme hrest' hsplit ⊢
    rw [hsplit]
    cases k with
    | zero => exact ⟨hkind, hlexeme⟩
    | succ k =>
      rw [restAfter, restAfter, hrest', hrest]
      exact ih k

/-! ## Two runs -/

/-- The offset is 0 or the end of a token of the file, other than `END_OF_INPUT`. -/
def Boundary (loadType : FileLoadType) (content : Bytes) (offset : Nat) : Prop :=
  offset = 0 ∨ ∃ s token s',
    Scanner.Reachable (Scanner.new (Utf8File.ofContent loadType content)) s ∧
    s.nextToken = .returns (token, s') ∧ token.type ≠ .endOfInput ∧
    offset = s'.file.currentOffset

/-- The content with a text inserted at an offset. -/
def insertAt (content : Bytes) (offset : Nat) (u : List Char) : Bytes :=
  content.take offset ++ Utf8.encode u ++ content.drop offset

/-- A reachable scanner stands at a cut, unless it is at the end of the text. -/
private theorem Scanner.Reachable.exists_cut {loadType : FileLoadType} {cs : List Char}
    {s : Scanner}
    (h : Scanner.Reachable (Scanner.new (Utf8File.ofContent loadType (Utf8.encode cs))) s) :
    ∃ (p : Place) (right : List Char), s = p.scanner right ∧ p.left ++ right = cs ∧
      (Cut p.left right ∨ right = []) := by
  induction h with
  | start => exact ⟨_, cs, scannerNew_encode loadType cs, rfl, .inl (.here cs)⟩
  | next hs hnext ih =>
    obtain ⟨p, right, rfl, rfl, hcut⟩ := ih
    obtain ⟨-, p', hfollows, -, rfl⟩ := nextToken_eq_returns hnext
    refine ⟨p', _, rfl, ?_, ?_⟩
    · rw [hfollows.left, List.append_assoc, List.append_assoc, lex_split]
    · rw [hfollows.left]
      -- at the end of the input nothing is left, before the call or after it
      by_cases htype : tokenTypeOf (lex right) = .endOfInput
      · exact .inr (restOf_eq_nil (tokenTypeOf_eq_endOfInput.mp htype).1)
      · rcases hcut with hcut | rfl
        · exact .inl (hcut.snoc htype)
        · exact absurd rfl htype

/-- A boundary of the file is a cut of its text. -/
theorem Boundary.exists_cut {loadType : FileLoadType} {cs : List Char} {offset : Nat}
    (h : Boundary loadType (Utf8.encode cs) offset) :
    ∃ left right, cs = left ++ right ∧ offset = (Utf8.encode left).length ∧ Cut left right := by
  rcases h with rfl | ⟨s, token, s', hs, hnext, htype, rfl⟩
  · exact ⟨[], cs, rfl, rfl, .here cs⟩
  · obtain ⟨p, right, rfl, rfl, hcut⟩ := hs.exists_cut
    obtain ⟨-, p', hfollows, rfl, rfl⟩ := nextToken_eq_returns hnext
    rcases hcut with hcut | rfl
    · refine ⟨p'.left, restOf (lex right), ?_, Place.currentOffset_scanner _ _, ?_⟩
      · rw [hfollows.left, List.append_assoc, List.append_assoc, lex_split]
      · rw [hfollows.left]
        exact hcut.snoc htype
    · exact absurd rfl htype

/-- Texts with the same tokens deliver the same token types. -/
theorem Delivers.types_unique {p p' : Place} {right right' : List Char}
    {ts ts' : List TokenType} {ending ending' : Ending Scanner}
    (h : Delivers (p.scanner right) ts ending) (h' : Delivers (p'.scanner right') ts' ending')
    (htail : p.tail.exception = none) (htail' : p'.tail.exception = none)
    (hsame : ∀ k, tokenTypeOf (lex (restAfter k right')) = tokenTypeOf (lex (restAfter k right))) :
    ts' = ts := by
  generalize hs : p.scanner right = s at h
  induction h generalizing p right p' right' ts' with
  | @eof s s₁ token hnext htype =>
    subst hs
    obtain ⟨-, q, -, rfl, -⟩ := nextToken_eq_returns hnext
    cases h' with
    | eof => rfl
    | throws => rfl
    | cons hnext' htype' =>
      obtain ⟨-, q', -, rfl, -⟩ := nextToken_eq_returns hnext'
      exact absurd ((hsame 0).trans htype) htype'
  | @throws s e hnext =>
    subst hs
    rw [(nextToken_throws_iff.mp hnext).1] at htail
    exact nomatch htail
  | @cons s s₁ token ts ending hnext htype _ ih =>
    subst hs
    obtain ⟨-, q, hfollows, rfl, rfl⟩ := nextToken_eq_returns hnext
    cases h' with
    | eof hnext' htype' =>
      obtain ⟨-, q', -, rfl, -⟩ := nextToken_eq_returns hnext'
      exact absurd ((hsame 0).symm.trans htype') htype
    | throws hnext' =>
      rw [(nextToken_throws_iff.mp hnext').1] at htail'
      exact nomatch htail'
    | cons hnext' htype' hdelivers' =>
      obtain ⟨-, q', hfollows', rfl, rfl⟩ := nextToken_eq_returns hnext'
      -- the first types are the same, and after them the texts have the same tokens
      have hfirst : tokenTypeOf (lex right') = tokenTypeOf (lex right) := hsame 0
      have hrest := ih hdelivers' (by rw [hfollows.tail]; exact htail)
        (by rw [hfollows'.tail]; exact htail') (fun k => hsame (k + 1)) rfl
      rw [hrest]
      exact congrArg (· :: ts) hfirst

/-- Whitespace inserted at the beginning of a file or after one of its tokens leaves the types
    and lexemes of all tokens and the verdict of the parser as they are. -/
theorem whitespace_irrelevant {loadType : FileLoadType} {cs u : List Char} {offset : Nat}
    (hoffset : Boundary loadType (Utf8.encode cs) offset) (hu : Blanks u) :
    let content := Utf8.encode cs
    let content' := insertAt content offset u
    (∀ k, ∃ token token',
      (Scanner.new (Utf8File.ofContent loadType content)).nthToken k = .returns token ∧
      (Scanner.new (Utf8File.ofContent loadType content')).nthToken k = .returns token' ∧
      token'.type = token.type ∧ token'.lexeme = token.lexeme) ∧
    ∃ p p',
      (∀ fuel, content.length + 2 ≤ fuel →
        (Parser.ofFile (Utf8File.ofContent loadType content)).parse fuel = .returns p) ∧
      (∀ fuel, content'.length + 2 ≤ fuel →
        (Parser.ofFile (Utf8File.ofContent loadType content')).parse fuel = .returns p') ∧
      p'.ok = p.ok := by
  obtain ⟨left, right, rfl, rfl, hcut⟩ := hoffset.exists_cut
  have hinsert : insertAt (Utf8.encode (left ++ right)) (Utf8.encode left).length u =
      Utf8.encode (left ++ (u ++ right)) := by
    rw [insertAt, Utf8.encode_append, List.take_left, List.drop_left, Utf8.encode_append,
      Utf8.encode_append, List.append_assoc]
  simp only [hinsert]
  constructor
  · intro k
    obtain ⟨hkind, hlexeme⟩ := hcut.lex_insert hu k
    have htoken := nthToken_eq (p := Place.start loadType Tail.empty) (left ++ right) rfl k
    have htoken' := nthToken_eq (p := Place.start loadType Tail.empty) (left ++ (u ++ right)) rfl k
    rw [← scannerNew_encode] at htoken htoken'
    exact ⟨_, _, htoken, htoken', hkind, congrArg Utf8.encode hlexeme⟩
  · obtain ⟨ts, last, p, hdelivers, hok, hparse⟩ := exists_verdict_encode loadType (left ++ right)
    obtain ⟨ts', last', p', hdelivers', hok', hparse'⟩ :=
      exists_verdict_encode loadType (left ++ (u ++ right))
    -- both parsers are given the same token types
    obtain rfl := hdelivers.types_unique hdelivers' rfl rfl fun k => (hcut.lex_insert hu k).1
    refine ⟨p, p', hparse, hparse', ?_⟩
    rw [Bool.eq_iff_iff, hok', hok]

/-- A line feed and a blank after the number of the text `1,`. -/
theorem whitespace_irrelevant_number :
    let content := Utf8.encode ['1', ',']
    let content' := insertAt content 1 ['\n', ' ']
    (∀ k, ∃ token token',
      (Scanner.new (Utf8File.ofContent .fullMemory content)).nthToken k = .returns token ∧
      (Scanner.new (Utf8File.ofContent .fullMemory content')).nthToken k = .returns token' ∧
      token'.type = token.type ∧ token'.lexeme = token.lexeme) ∧
    ∃ p p',
      (∀ fuel, content.length + 2 ≤ fuel →
        (Parser.ofFile (Utf8File.ofContent .fullMemory content)).parse fuel = .returns p) ∧
      (∀ fuel, content'.length + 2 ≤ fuel →
        (Parser.ofFile (Utf8File.ofContent .fullMemory content')).parse fuel = .returns p') ∧
      p'.ok = p.ok :=
  have hnext : (Scanner.new (Utf8File.ofContent .fullMemory (Utf8.encode ['1', ',']))).nextToken =
      .returns (Token.mk (Utf8.encode ['1']) 0 2 .tkNumber,
        Scanner.mk (.inMemory { buffer := Utf8.encode ['1', ','], pos := 1 }) 0 2 []) := by decide
  whitespace_irrelevant (.inr ⟨_, _, _, .start, hnext, by decide, rfl⟩) (by decide)

end CcJson
