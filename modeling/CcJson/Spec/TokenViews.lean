import CcJson.Spec.TokenizerCorrect

/-!
# The two views of a token

`next_token` matches literals on slices of the file and everything else on code
points that it has encoded again. Over any content, well-formed or not, both are
the same bytes at every iteration of its loop.

## Key results

- `Hands.inside`: what holds at every head of the loop
- `views_agree`: slices and encoded code points are the same text
-/

namespace CcJson

/-! ## The strings handed to the state handlers -/

/-- The heads of the loop of `next_token` from `l₀`, each with the `utf8_codepoint` strings that
    the iterations before it have handed to the state handlers. -/
inductive Hands (view : Bytes) (l₀ : TokenLoop) : TokenLoop → List Bytes → Prop where
  | start : Hands view l₀ l₀ []
  | next {l l' : TokenLoop} {parts : List Bytes} {o : Option StepInput}
      (h : Hands view l₀ l parts) (hinput : l.stepInput view = .ok o)
      (hbody : nextTokenBody view l = .returns (.yield l')) :
      Hands view l₀ l' (parts ++ (o.map StepInput.utf8Codepoint).toList)

/-- The strings are recorded beside the loop and do not take part in it. -/
theorem exists_hands_iff {view : Bytes} {l₀ l : TokenLoop} :
    (∃ parts, Hands view l₀ l parts) ↔ Run.Heads (nextTokenBody view) l₀ l := by
  constructor
  · intro h
    obtain ⟨parts, h⟩ := h
    induction h with
    | start => exact .start
    | next _ _ hbody ih => exact .next ih hbody
  · intro h
    induction h with
    | start => exact ⟨[], .start⟩
    | @next l l' _ hbody ih =>
      obtain ⟨parts, hparts⟩ := ih
      -- an iteration that goes on has come by its arguments without an exception
      cases hinput : l.stepInput view with
      | ok o => exact ⟨_, .next hparts hinput hbody⟩
      | error e =>
        rw [nextTokenBody_eq, hinput] at hbody
        exact nomatch hbody

/-! ## Every head of the loop -/

/-- Only a character is read without an exception. -/
theorem Place.nextCodepoint_eq_some {p : Place} {right : List Char} {codepoint : UInt32}
    (h : (p.scanner right).file.nextCodepoint.1 = .ok (some codepoint)) :
    ∃ c right', right = c :: right' ∧ codepoint = c.val := by
  cases right with
  | nil =>
    rw [scanner, Cursor.nextCodepoint_file] at h
    cases htail : p.tail.exception with
    | none =>
      simp only [Cursor.peek, cursor, htail, Except.map, Option.map_none, Except.ok.injEq,
        reduceCtorEq] at h
    | some e =>
      simp only [Cursor.peek, cursor, htail, Except.map, reduceCtorEq] at h
  | cons c right =>
    rw [nextCodepoint_cons] at h
    exact ⟨c, right, rfl, (Option.some.inj (Except.ok.inj h)).symm⟩

/-- At a head of the loop inside a token that began at `p`: `read` are its characters so far, for
    which the state stands, and `right` is unread. -/
structure Inside (view : Bytes) (p : Place) (read right : List Char) (l : TokenLoop) : Prop where
  bytes : view = (p.cursor (read ++ right)).bytes
  reading : Reading p read [] right l.currentState .endOfInput l
  live : Live l.currentState read
  fresh : l.currentState = .start → l = TokenLoop.init (p.scanner right)

section Inside

variable {view : Bytes} {p : Place} {read right : List Char} {c : Char} {l l' : TokenLoop}

theorem inside_init (p : Place) (right : List Char) :
    Inside (p.cursor right).bytes p [] right (TokenLoop.init (p.scanner right)) where
  bytes := rfl
  reading := reading_init p right
  live := rfl
  fresh := fun _ => rfl

theorem Inside.not_done (h : Inside view p read right l) : isDone l.currentState = false := by
  have hlive := h.live
  cases hs : l.currentState with
  | dead | completed =>
    rw [hs] at hlive
    exact hlive.elim
  | _ => rfl

/-- An iteration over whitespace before the token calls no handler. -/
theorem Inside.stepInput_blank (h : Inside view p read (c :: right) l)
    (hs : l.currentState = .start) (hc : isBlank c = true) : l.stepInput view = .ok none := by
  have hnext : l.scanner.file.nextCodepoint.1 = .ok (some c.val) := by
    rw [h.fresh hs]
    exact congrArg Prod.fst (p.nextCodepoint_cons c right)
  have hend : l.scanner.file.atEnd = false := by
    rw [h.fresh hs]
    exact p.atEnd_cons c right
  simp only [TokenLoop.stepInput, hend, hs, isDone, hnext, isInsignificantWhitespace_val, hc, bind,
    Except.bind]
  rfl

/-- An iteration inside the token calls a handler. -/
theorem Inside.stepInput (h : Inside view p read (c :: right) l)
    (hblank : l.currentState = .start → isBlank c = false) :
    l.stepInput view = .ok (some (p.stepInput l.currentState read c)) :=
  h.reading.stepInput h.bytes h.not_done hblank

/-- The arguments of a step at a head inside a token. -/
theorem Inside.stepInput_eq (h : Inside view p read right l) {i : StepInput}
    (hi : l.stepInput view = .ok (some i)) :
    ∃ c right', right = c :: right' ∧ i = p.stepInput l.currentState read c := by
  obtain ⟨-, codepoint, hnext⟩ := TokenLoop.reads_of_stepInput hi
  rw [h.reading.scanner] at hnext
  obtain ⟨c, right, rfl, -⟩ := Place.nextCodepoint_eq_some hnext
  refine ⟨c, right, rfl, ?_⟩
  by_cases hblank : l.currentState = .start → isBlank c = false
  · rw [h.stepInput hblank] at hi
    exact (Option.some.inj (Except.ok.inj hi)).symm
  · obtain ⟨hs, hc⟩ := not_forall.mp hblank
    rw [Bool.not_eq_false] at hc
    rw [h.stepInput_blank hs hc] at hi
    exact nomatch Except.ok.inj hi

/-- Behind a character that has not stopped the token. -/
theorem Inside.handed (h : Inside view p read (c :: right) l)
    (hafter : Reading.After p read c right l' (move l.currentState read c))
    (hdone : isDone l'.currentState = false) : Inside view p (read ++ [c]) right l' := by
  cases hmove : move l.currentState read c with
  | shift s =>
    obtain ⟨-, hreading⟩ := hmove ▸ hafter
    obtain ⟨hlive, -⟩ := automaton.shift h.live hmove
    have hs := hreading.state
    constructor
    · rw [h.bytes, List.append_assoc, List.singleton_append]
    · rwa [hs]
    · rwa [hs]
    · -- no move leads back to the start state
      intro hstart
      rw [hs] at hstart
      exact absurd (hstart ▸ hmove) (kind_of_move (k := .tkError)).2.2
  | accept | putBack =>
    rw [hmove] at hafter
    rw [hafter.state] at hdone
    exact nomatch hdone
  | reject =>
    obtain ⟨type, hreading⟩ := hmove ▸ hafter
    rw [hreading.state] at hdone
    exact nomatch hdone

/-- What an iteration leads to that goes on: behind the whitespace that it has skipped, or behind
    the character that it has handed to a handler, unless that one has stopped the token. -/
inductive Inside.Goes (view : Bytes) (p : Place) (read : List Char) (c : Char)
    (right : List Char) (l l' : TokenLoop) : Prop where
  | skipped (hinput : l.stepInput view = .ok none) (hread : read = [])
      (h : Inside view (p.advance [c] []) [] right l')
  | handed (hinput : l.stepInput view = .ok (some (p.stepInput l.currentState read c)))
      (h : isDone l'.currentState = false → Inside view p (read ++ [c]) right l')

theorem Inside.goes (h : Inside view p read right l)
    (hbody : nextTokenBody view l = .returns (.yield l')) :
    ∃ c right', right = c :: right' ∧ Inside.Goes view p read c right' l l' := by
  cases right with
  | nil =>
    -- with nothing decodable left the iteration is the last one
    cases htail : p.tail.exception with
    | none =>
      rw [body_end h.reading htail] at hbody
      exact nomatch hbody
    | some e =>
      rw [body_throws h.reading h.not_done htail] at hbody
      exact nomatch hbody
  | cons c right =>
    refine ⟨c, right, rfl, ?_⟩
    by_cases hblank : l.currentState = .start → isBlank c = false
    · obtain ⟨l₁, hbody', hafter⟩ := body_reading h.bytes h.reading h.not_done hblank
      rw [hbody'] at hbody
      obtain rfl := ForInStep.yield.inj (Run.returns.inj hbody)
      exact .handed (h.stepInput hblank) (h.handed hafter)
    · obtain ⟨hs, hc⟩ := not_forall.mp hblank
      rw [Bool.not_eq_false] at hc
      have hbody' : nextTokenBody view (TokenLoop.init (p.scanner (c :: right))) =
          .returns (.yield (TokenLoop.init ((p.advance [c] []).scanner right))) := body_blank hc
      rw [← h.fresh hs, hbody] at hbody'
      obtain rfl := ForInStep.yield.inj (Run.returns.inj hbody')
      have hread : read = [] := by
        have hlive := h.live
        rw [hs] at hlive
        exact hlive
      apply Inside.Goes.skipped (h.stepInput_blank hs hc) hread
      have hbytes := h.bytes
      rw [hread, List.nil_append] at hbytes
      have hafter := inside_init (p.advance [c] []) right
      rwa [Place.cursor_bytes_advance, List.singleton_append, ← hbytes] at hafter

end Inside

/-- What holds at every head of the loop at which it goes on: the strings handed to the handlers
    are the characters of the token so far. -/
theorem Hands.inside {p : Place} {right : List Char} {l : TokenLoop} {parts : List Bytes}
    (h : Hands (p.cursor right).bytes (TokenLoop.init (p.scanner right)) l parts)
    (hs : isDone l.currentState = false) :
    ∃ p' read right', Inside (p.cursor right).bytes p' read right' l ∧
      parts = read.map String.utf8EncodeChar := by
  induction h with
  | start => exact ⟨p, [], right, inside_init p right, rfl⟩
  | @next l l' parts o _ hinput hbody ih =>
    have hgoes : isDone l.currentState = false := by
      by_contra hdone
      rw [Bool.not_eq_false] at hdone
      rw [body_done hdone] at hbody
      exact nomatch hbody
    obtain ⟨p', read, right', hinside, rfl⟩ := ih hgoes
    obtain ⟨c, right'', rfl, hstep⟩ := hinside.goes hbody
    cases hstep with
    | skipped hskipped hread h' =>
      obtain rfl := Except.ok.inj (hinput.symm.trans hskipped)
      exact ⟨_, _, _, h', by rw [hread]; rfl⟩
    | handed hhanded h' =>
      obtain rfl := Except.ok.inj (hinput.symm.trans hhanded)
      exact ⟨_, _, _, h' hs, by rw [List.map_append]; rfl⟩

theorem Place.fullFileView_scanner (p : Place) (right : List Char) :
    (p.scanner right).fullFileView = (p.cursor right).bytes := by
  rw [Scanner.fullFileView, data_scanner, size_scanner, List.take_length]

/-- Every reachable scanner over any content stands at a place of it. -/
theorem Scanner.Reachable.exists_cursor {loadType : FileLoadType} {content : Bytes} {s : Scanner}
    (hs : Scanner.Reachable (Scanner.new (Utf8File.ofContent loadType content)) s) :
    ∃ p right, s = Place.scanner p right ∧ content = (p.cursor right).bytes := by
  obtain ⟨cs, tail, rfl⟩ := exists_tail content
  obtain ⟨p, right, rfl, rfl, rfl⟩ := hs.exists_place
  refine ⟨p, right, rfl, ?_⟩
  rw [Cursor.bytes, Place.cursor, Utf8.encode_append, List.append_assoc]

/-- Every reachable scanner views the whole file. -/
theorem Scanner.Reachable.fullFileView_eq {loadType : FileLoadType} {content : Bytes} {s : Scanner}
    (hs : Scanner.Reachable (Scanner.new (Utf8File.ofContent loadType content)) s) :
    s.fullFileView = content := by
  obtain ⟨p, right, rfl, rfl⟩ := hs.exists_cursor
  exact p.fullFileView_scanner right

/-- Every head of the loop in a reachable state is inside a token of the file. -/
theorem Scanner.Reachable.inside {loadType : FileLoadType} {content : Bytes} {s : Scanner}
    {l : TokenLoop} {parts : List Bytes}
    (hs : Scanner.Reachable (Scanner.new (Utf8File.ofContent loadType content)) s)
    (hl : Hands s.fullFileView (TokenLoop.init s) l parts) (hgoes : isDone l.currentState = false) :
    ∃ p read right, Inside content p read right l ∧ parts = read.map String.utf8EncodeChar := by
  obtain ⟨p, right, rfl, rfl⟩ := hs.exists_cursor
  rw [Place.fullFileView_scanner] at hl
  exact hl.inside hgoes

/-! ## The two views -/

/-- The bytes of a file between two offsets. -/
def bytesBetween (content : Bytes) (a b : Nat) : Bytes := (content.take b).drop a

/-- The iteration from `l`, which reads `codepoint`, has the same text in both views: the encoded
    code point is what the file has between the offsets before and after the read, and the slice
    from the start of the token on is made up of the strings handed to the handlers, those of
    `parts` before and the one of this iteration. The iteration is a call of `process_state_step`
    with this slice and this string; whitespace before a token is handed to no handler. -/
structure ViewsAgree (content view : Bytes) (l : TokenLoop) (codepoint : UInt32)
    (parts : List Bytes) : Prop where
  offsets : l.scanner.file.currentOffset < l.scanner.file.nextCodepoint.2.currentOffset ∧
    l.scanner.file.nextCodepoint.2.currentOffset ≤ content.length
  encodes : codepointToUtf8 codepoint = .ok (bytesBetween content l.scanner.file.currentOffset
    l.scanner.file.nextCodepoint.2.currentOffset)
  handed : ¬ (l.currentState = .start ∧ isInsignificantWhitespace codepoint = true) →
    ∃ i, l.stepInput view = .ok (some i) ∧ i.codepoint = codepoint ∧
      codepointToUtf8 codepoint = .ok i.utf8Codepoint ∧
      i.lexeme = (parts ++ [i.utf8Codepoint]).flatten ∧
      nextTokenBody view l = (do
        let result ← Run.ofExcept (processStateStep l.currentState codepoint i.utf8Codepoint
          i.lexeme i.lineNumber i.characterNumber)
        l.afterStep result)
  skipped : l.currentState = .start → isInsignificantWhitespace codepoint = true →
    l.stepInput view = .ok none ∧
      nextTokenBody view l = .returns (.yield { l with scanner := l.readScanner })

/-- The file between the offsets before and after a character is read. -/
theorem Place.bytesBetween_cons (p : Place) (c : Char) (right : List Char) :
    let file := (p.scanner (c :: right)).file
    file.currentOffset < file.nextCodepoint.2.currentOffset ∧
    file.nextCodepoint.2.currentOffset ≤ (p.cursor (c :: right)).bytes.length ∧
    bytesBetween (p.cursor (c :: right)).bytes file.currentOffset
      file.nextCodepoint.2.currentOffset = String.utf8EncodeChar c := by
  have hbefore : (p.scanner (c :: right)).file.currentOffset = (Utf8.encode p.left).length :=
    Cursor.currentOffset_file _ _
  have hafter : (p.scanner (c :: right)).file.nextCodepoint.2.currentOffset =
      (Utf8.encode p.left ++ String.utf8EncodeChar c).length := by
    rw [nextCodepoint_cons, scanner, Cursor.currentOffset_file]
    simp [Cursor.offset, cursor]
  have hbytes : (p.cursor (c :: right)).bytes = Utf8.encode p.left ++ String.utf8EncodeChar c ++
      (Utf8.encode right ++ p.tail.bytes) := by
    simp [Cursor.bytes, cursor]
  have hpos := List.length_pos_of_ne_nil (String.utf8EncodeChar_ne_nil (c := c))
  intro file
  rw [hbefore, hafter, hbytes]
  constructor
  · rw [List.length_append]
    omega
  · constructor
    · exact (List.prefix_append _ _).length_le
    · rw [bytesBetween, List.take_left, List.drop_left]

/-- In every reachable state over any content, every iteration of `next_token` that reads a code
    point has the same text in both views. -/
theorem views_agree {loadType : FileLoadType} {content : Bytes} {s : Scanner} {l : TokenLoop}
    {parts : List Bytes} {codepoint : UInt32}
    (hs : Scanner.Reachable (Scanner.new (Utf8File.ofContent loadType content)) s)
    (hl : Hands s.fullFileView (TokenLoop.init s) l parts)
    (hgoes : isDone l.currentState = false)
    (hnext : l.scanner.file.nextCodepoint.1 = .ok (some codepoint)) :
    ViewsAgree content s.fullFileView l codepoint parts := by
  obtain ⟨p, read, right, h, rfl⟩ := hs.inside hl hgoes
  rw [hs.fullFileView_eq]
  have hscanner := h.reading.scanner
  rw [hscanner] at hnext
  obtain ⟨c, right, rfl, rfl⟩ := Place.nextCodepoint_eq_some hnext
  have hbytes : content = ((p.advance read []).cursor (c :: right)).bytes := by
    rw [h.bytes, Place.cursor_bytes_advance]
  obtain ⟨hlt, hle, hbetween⟩ := (p.advance read []).bytesBetween_cons c right
  rw [← hbytes] at hle hbetween
  constructor
  · rw [hscanner]
    exact ⟨hlt, hle⟩
  · rw [hscanner, hbetween]
    exact codepointToUtf8_val c
  · intro hhanded
    have hblank : l.currentState = .start → isBlank c = false := by
      intro hstart
      rw [isInsignificantWhitespace_val] at hhanded
      exact Bool.eq_false_iff.mpr fun hc => hhanded ⟨hstart, hc⟩
    have hinput := h.stepInput hblank
    refine ⟨_, hinput, rfl, codepointToUtf8_val c, ?_, ?_⟩
    · have hencode : (read.map String.utf8EncodeChar ++ [String.utf8EncodeChar c]).flatten =
          Utf8.encode (read ++ [c]) := by
        rw [Utf8.encode, List.flatMap_def, List.map_append, List.map_singleton]
      exact hencode.symm
    · rw [nextTokenBody_eq, hinput]
      rfl
  · intro hstart hblank
    rw [isInsignificantWhitespace_val] at hblank
    have hinput := h.stepInput_blank hstart hblank
    have hnext : l.scanner.file.nextCodepoint.1 = .ok (some c.val) := by rw [hscanner, hnext]
    have hend : l.scanner.file.atEnd = false := by
      rw [hscanner]
      exact Place.atEnd_cons _ _ _
    refine ⟨hinput, ?_⟩
    rw [nextTokenBody_eq, hinput, Run.ofExcept_ok, Run.returns_bind]
    simp only [TokenLoop.afterNoStep, hend, hgoes, hnext]
    rfl

/-- The second iteration over a quote and a character of two bytes. -/
theorem views_agree_string :
    let file := Utf8File.inMemory { buffer := Utf8.encode ['"', 'é'], pos := 1 }
    ViewsAgree (Utf8.encode ['"', 'é']) (Utf8.encode ['"', 'é'])
      { scanner := { file, lineNumber := 0, characterNumber := 1, cerr := [] }
        currentState := .inString
        tokenType := .endOfInput
        errorMessage := []
        tokenStartOffset := 0
        tokenStarted := true } 'é'.val [lit "\""] := by
  intro file
  have hstart : Scanner.Reachable _ (Scanner.new (Utf8File.ofContent .fullMemory
      (Utf8.encode ['"', 'é']))) := .start
  -- the quote has been handed to `handle_start`
  have hinput : (TokenLoop.init (Scanner.new (Utf8File.ofContent .fullMemory
      (Utf8.encode ['"', 'é'])))).stepInput (Utf8.encode ['"', 'é']) =
        .ok (some ⟨.start, '"'.val, lit "\"", lit "\"", 0, 1⟩) := by
    decide
  exact views_agree hstart (.next .start hinput rfl) rfl rfl

end CcJson
