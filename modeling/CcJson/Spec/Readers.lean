import CcJson.Spec.NextToken
import CcJson.Spec.Sources

/-!
# The two readers are interchangeable

The reader that holds the file in memory and the one that maps it into memory are two
classes with the same methods over the same bytes. Nothing that the tokenizer, the
parser or `main` does depends on which of the two it is given.

## Key results

- `nextToken_agree`: one token, from scanners that differ in the class of their readers
- `parse_inMemory`: a whole run of the parser
-/

namespace CcJson

/-! ## Readers over the same bytes -/

/-- The reader over the same bytes, at the same offset, that holds them in memory. -/
def Utf8File.inMemoryCopy (file : Utf8File) : Utf8File :=
  .inMemory { buffer := file.data, pos := file.currentOffset }

/-- The readers have the same bytes and the same offset. -/
def Utf8File.Agree (f g : Utf8File) : Prop := f.inMemoryCopy = g.inMemoryCopy

namespace Utf8File.Agree

variable {f g : Utf8File}

/-- The bytes and the offset decide what the methods do. -/
private theorem elim {motive : Utf8File → Utf8File → Prop} (h : f.Agree g)
    (hmotive : ∀ bytes pos loadType loadType',
      motive (.standing loadType bytes pos) (.standing loadType' bytes pos)) : motive f g := by
  have hstanding : ∀ file : Utf8File,
      ∃ loadType, file = .standing loadType file.data file.currentOffset := by
    intro file
    cases file with
    | inMemory file => exact ⟨.fullMemory, rfl⟩
    | mmap file => exact ⟨.memoryMapped, rfl⟩
  obtain ⟨loadType, hf⟩ := hstanding f
  obtain ⟨loadType', hg⟩ := hstanding g
  obtain ⟨hdata, hoffset⟩ : f.data = g.data ∧ f.currentOffset = g.currentOffset := by
    simpa [Agree, inMemoryCopy] using h
  rw [hf, hg, hdata, hoffset]
  exact hmotive _ _ _ _

theorem atEnd (h : f.Agree g) : f.atEnd = g.atEnd := by
  apply elim h
  intro bytes pos loadType loadType'
  cases loadType <;> cases loadType' <;> rfl

theorem size (h : f.Agree g) : f.size = g.size := by
  apply elim h
  intro bytes pos loadType loadType'
  cases loadType <;> cases loadType' <;> rfl

theorem data (h : f.Agree g) : f.data = g.data := by
  apply elim h
  intro bytes pos loadType loadType'
  cases loadType <;> cases loadType' <;> rfl

theorem currentOffset (h : f.Agree g) : f.currentOffset = g.currentOffset := by
  apply elim h
  intro bytes pos loadType loadType'
  cases loadType <;> cases loadType' <;> rfl

theorem nextCodepoint (h : f.Agree g) :
    f.nextCodepoint.1 = g.nextCodepoint.1 ∧ f.nextCodepoint.2.Agree g.nextCodepoint.2 := by
  apply elim h
  intro bytes pos loadType loadType'
  cases loadType <;> cases loadType' <;> exact ⟨rfl, rfl⟩

theorem revert (h : f.Agree g) : f.revert.1 = g.revert.1 ∧ f.revert.2.Agree g.revert.2 := by
  apply elim h
  intro bytes pos loadType loadType'
  cases loadType <;> cases loadType' <;> exact ⟨rfl, rfl⟩

end Utf8File.Agree

/-! ## One token -/

/-- The scanners differ in the class of their readers only. -/
structure Scanner.Agree (s t : Scanner) : Prop where
  file : s.file.Agree t.file
  lineNumber : s.lineNumber = t.lineNumber
  characterNumber : s.characterNumber = t.characterNumber
  cerr : s.cerr = t.cerr

theorem Scanner.Agree.symm {s t : Scanner} (h : s.Agree t) : t.Agree s :=
  ⟨Eq.symm h.file, h.lineNumber.symm, h.characterNumber.symm, h.cerr.symm⟩

theorem Scanner.Agree.updatePosition {s t : Scanner} (h : s.Agree t) (codepoint : UInt32) :
    (s.updatePosition codepoint).Agree (t.updatePosition codepoint) := by
  unfold Scanner.updatePosition
  split
  · exact ⟨h.file, congrArg (· + 1) h.lineNumber, rfl, h.cerr⟩
  · exact ⟨h.file, h.lineNumber, congrArg (· + 1) h.characterNumber, h.cerr⟩

/-- The local variables of `next_token` agree up to the class of the reader. -/
structure TokenLoop.Agree (l m : TokenLoop) : Prop where
  scanner : l.scanner.Agree m.scanner
  currentState : l.currentState = m.currentState
  tokenType : l.tokenType = m.tokenType
  errorMessage : l.errorMessage = m.errorMessage
  tokenStartOffset : l.tokenStartOffset = m.tokenStartOffset
  tokenStarted : l.tokenStarted = m.tokenStarted

namespace TokenLoop.Agree

variable {l m : TokenLoop}

theorem readScanner (h : l.Agree m) : l.readScanner.Agree m.readScanner := by
  obtain ⟨hresult, hfile⟩ := h.scanner.file.nextCodepoint
  have hread : Scanner.Agree { l.scanner with file := l.scanner.file.nextCodepoint.2 }
      { m.scanner with file := m.scanner.file.nextCodepoint.2 } :=
    ⟨hfile, h.scanner.lineNumber, h.scanner.characterNumber, h.scanner.cerr⟩
  unfold TokenLoop.readScanner
  rw [hresult]
  split
  · exact hread.updatePosition _
  · exact hread

theorem startOffset (h : l.Agree m) : l.startOffset = m.startOffset := by
  unfold TokenLoop.startOffset
  rw [h.tokenStarted, h.tokenStartOffset, h.scanner.file.currentOffset]

/-- An iteration calls `process_state_step` with the same arguments. -/
theorem stepInput (h : l.Agree m) (view : Bytes) : l.stepInput view = m.stepInput view := by
  have hread := h.readScanner
  unfold TokenLoop.stepInput
  rw [h.scanner.file.atEnd, h.currentState, h.scanner.file.nextCodepoint.1, h.startOffset,
    hread.file.currentOffset, hread.lineNumber, hread.characterNumber]

theorem afterNoStep (h : l.Agree m) :
    Run.StepRel TokenLoop.Agree l.afterNoStep m.afterNoStep := by
  have hread : TokenLoop.Agree { l with scanner := l.readScanner }
      { m with scanner := m.readScanner } :=
    { h with scanner := h.readScanner }
  have hend : (l.scanner.file.atEnd || isDone l.currentState) =
      (m.scanner.file.atEnd || isDone m.currentState) := by
    rw [h.scanner.file.atEnd, h.currentState]
  unfold TokenLoop.afterNoStep
  rw [hend, h.scanner.file.nextCodepoint.1]
  split
  · exact .done h
  · split
    · exact .yield hread
    · exact .done hread

theorem afterStep (h : l.Agree m) (result : StepResult) :
    Run.Sim (fun _ => False) (Run.StepRel TokenLoop.Agree) (l.afterStep result)
      (m.afterStep result) := by
  have hread := h.readScanner
  obtain ⟨hrevert, hfile⟩ := hread.file.revert
  unfold TokenLoop.afterStep
  dsimp only
  rw [hrevert, h.startOffset, h.errorMessage]
  split
  · apply (Run.Sim.refl (Run.ofExcept m.readScanner.file.revert.1)).bind
    rintro _ _ -
    exact .returns (.yield ⟨⟨hfile, hread.lineNumber, hread.characterNumber, hread.cerr⟩, rfl, rfl,
      rfl, rfl, rfl⟩)
  · exact .returns (.yield ⟨hread, rfl, rfl, rfl, rfl, rfl⟩)

theorem finalLexeme (h : l.Agree m) (view : Bytes) : l.finalLexeme view = m.finalLexeme view := by
  unfold TokenLoop.finalLexeme
  rw [h.scanner.file.currentOffset, h.tokenStarted, h.tokenStartOffset]

end TokenLoop.Agree

/-- `next_token` does the same with readers that agree. -/
theorem nextToken_agree :
    SourceSim (fun _ => False) Eq Scanner.Agree := by
  intro s t h
  show Run.Sim _ _ s.nextToken t.nextToken
  have hinit : (TokenLoop.init s).Agree (TokenLoop.init t) := ⟨h, rfl, rfl, rfl, rfl, rfl⟩
  have hbody : ∀ view l m, TokenLoop.Agree l m →
      Run.Sim (fun _ => False) (Run.StepRel TokenLoop.Agree) (nextTokenBody view l)
        (nextTokenBody view m) := by
    intro view l m hlm
    rw [nextTokenBody_eq, nextTokenBody_eq, hlm.stepInput]
    apply (Run.Sim.refl (Run.ofExcept (m.stepInput view))).bind
    rintro input _ rfl
    cases input with
    | none => exact .returns hlm.afterNoStep
    | some i =>
      apply (Run.Sim.refl (Run.ofExcept i.step)).bind
      rintro result _ rfl
      exact hlm.afterStep result
  unfold Scanner.nextToken
  rw [h.file.data, h.file.size]
  apply (Run.Sim.loop (hbody _) (Nat.le_refl _) hinit).bind
  intro l m hlm
  rw [hlm.finalLexeme]
  apply (Run.Sim.refl (Run.ofExcept (m.finalLexeme _))).bind
  rintro lexeme _ rfl
  have hscanner := hlm.scanner
  dsimp only
  rw [hlm.currentState, hlm.tokenType, hlm.errorMessage, hscanner.file.atEnd,
    hscanner.lineNumber, hscanner.characterNumber, hscanner.cerr]
  split
  · -- the dead characters: none is skipped
    rw [advancePastDeadChars_eq, advancePastDeadChars_eq]
    exact .returns ⟨rfl, hscanner.file, rfl, rfl, rfl⟩
  · exact .returns ⟨rfl, hscanner⟩

/-! ## Runs of the parser -/

/-- The parser with its reader replaced by one that holds the file in memory. -/
def Parser.inMemoryCopy (p : Parser Scanner) : Parser Scanner :=
  { p with tok := { p.tok with source := { p.tok.source with
      file := p.tok.source.file.inMemoryCopy } } }

theorem Parser.inMemoryCopy_eq {p q : Parser Scanner} (h : p.Related Eq Scanner.Agree q) :
    p.inMemoryCopy = q.inMemoryCopy := by
  obtain ⟨⟨hsource, hcurrent, htoken⟩, hvalid, hstack⟩ := h
  unfold Parser.inMemoryCopy
  dsimp only
  rw [hsource.file, hsource.lineNumber, hsource.characterNumber, hsource.cerr, hcurrent, htoken,
    hvalid, hstack]

/-- The runs of the parser over the two readers are the same: tokens, positions, messages,
    stacks, verdicts and exceptions, after any number of iterations. -/
theorem parse_inMemory (loadType loadType' : FileLoadType) (content : Bytes) (fuel : Nat) :
    (do
      let p ← (Parser.ofFile (.ofContent loadType content)).parse fuel
      return p.inMemoryCopy) =
    (do
      let p ← (Parser.ofFile (.ofContent loadType' content)).parse fuel
      return p.inMemoryCopy) := by
  have hfile : (Utf8File.ofContent loadType content).Agree (.ofContent loadType' content) := by
    cases loadType <;> cases loadType' <;> rfl
  have hstart : (Scanner.new (.ofContent loadType content)).Agree
      (Scanner.new (.ofContent loadType' content)) := ⟨hfile, rfl, rfl, rfl⟩
  have hsim : SourceSim (fun _ => False) (fun b a => a = b) (fun t s : Scanner => s.Agree t) :=
    fun t s h => (nextToken_agree t s h.symm).mono fun _ _ hout => ⟨hout.1.symm, hout.2.symm⟩
  exact Parser.parse_map_eq nextToken_agree hsim (fun _ _ => congrArg Token.type) rfl
    (fun _ _ => Parser.inMemoryCopy_eq) hstart fuel

end CcJson
