import CcJson.Spec.Validator

/-!
# The program

The exit code of `main` for any command line with the name of the program, any content and
any file system that does not change during the run, and what `main` writes to `std::cerr`.
Both are determined before the file is read (the number of arguments, the exception with
which opening fails) or by the bytes of the file alone.

## Key results

- `main_exits`: `main` ends, with the exit code and the message that `Exits` gives
- `openUtf8File_error`: the messages of a failed opening
- `program_correct`: on a file system that serves the file, the exit code is a function
  of its bytes
-/

namespace CcJson

/-! ## What a content is worth -/

/-- The exit code for a file with this content: a JSON text is valid, and so is a value with an
    unfinished token after it; a malformed sequence that the decoder comes to is an unknown
    error; everything else is invalid. -/
inductive Judged (content : Bytes) : ExitCode → Prop where
  | valid {cs : List Char} (hcontent : content = Utf8.encode cs)
      (hcs : JsonText cs ∨ TrailingUnfinished cs) : Judged content .validJson
  | malformed (h : MalformedReached content) : Judged content .unknownError
  | invalid (hvalid : ∀ cs, content = Utf8.encode cs → ¬ (JsonText cs ∨ TrailingUnfinished cs))
      (hmalformed : ¬ MalformedReached content) : Judged content .invalidJson

theorem Judged.unique {content : Bytes} {code code' : ExitCode} (h : Judged content code)
    (h' : Judged content code') : code = code' := by
  cases h with
  | valid hcontent hcs =>
    cases h' with
    | valid => rfl
    | malformed h => exact absurd ⟨_, hcontent⟩ h.1
    | invalid hvalid => exact absurd hcs (hvalid _ hcontent)
  | malformed h =>
    cases h' with
    | valid hcontent => exact absurd ⟨_, hcontent⟩ h.1
    | malformed => rfl
    | invalid _ hmalformed => exact absurd h hmalformed
  | invalid hvalid hmalformed =>
    cases h' with
    | valid hcontent hcs => exact absurd hcs (hvalid _ hcontent)
    | malformed h => exact absurd h hmalformed
    | invalid => rfl

/-- The readers accept the valid contents. -/
theorem accepts_iff_valid {loadType : FileLoadType} {content : Bytes} :
    Accepts loadType content ↔
      ∃ cs, content = Utf8.encode cs ∧ (JsonText cs ∨ TrailingUnfinished cs) := by
  constructor
  · intro h
    obtain ⟨cs, -, -, rfl, -, -⟩ := accepts_iff.mp h
    exact ⟨cs, rfl, accepts_encode_iff.mp h⟩
  · intro h
    obtain ⟨cs, rfl, hcs⟩ := h
    exact accepts_encode_iff.mpr hcs

/-- The exceptions of the decoder have no `catch` clause of their own. -/
theorem catchClause_next {it : Bytes} {e : Exception} (h : Utf8Cpp.next it = .error e) :
    catchClause e = .unknownError := by
  unfold Utf8Cpp.next at h
  split at h
  · exact nomatch h
  all_goals
    obtain rfl := Except.error.inj h
    rfl

/-- The `try` block for one argument. -/
theorem tryBlock_eq (fs : FileSystem) (prog path : Bytes) (fuel : Nat) :
    tryBlock fs [prog, path] fuel =
      (Run.ofExcept (openUtf8File fs path) >>= fun file => do
        let jsonParser ← (Parser.ofFile file).parse fuel
        if !jsonParser.ok then return .invalidJson
        return .validJson) := rfl

/-- The `try` block for a file with this content: it returns the exit code, except in front of a
    malformed sequence, where the exception of the decoder leaves it. -/
inductive TryEnds (content : Bytes) : Run Exception ExitCode → Prop where
  | returns {code : ExitCode} (hcode : Judged content code) (hne : code ≠ .unknownError) :
      TryEnds content (.returns code)
  | throws {cs : List Char} {rest : Bytes} {e : Exception} (hreached : MalformedReached content)
      (hcontent : content = Utf8.encode cs ++ rest) (hnext : Utf8Cpp.next rest = .error e) :
      TryEnds content (.throws e)

/-- The `try` block on a file that has been opened. -/
theorem tryBlock_opened {fs : FileSystem} (prog : Bytes) {path content : Bytes}
    {loadType : FileLoadType} (hopen : openUtf8File fs path = .ok (.ofContent loadType content)) :
    ∃ r, TryEnds content r ∧ ∀ fuel, content.length + 2 ≤ fuel →
      tryBlock fs [prog, path] fuel = r := by
  obtain ⟨cs, tail, rfl⟩ := exists_tail content
  obtain ⟨ts, ending, r, hdelivers, hends, hverdict, hr⟩ := exists_verdict loadType cs tail
  have htry : ∀ fuel, (Utf8.encode cs ++ tail.bytes).length + 2 ≤ fuel →
      tryBlock fs [prog, path] fuel = r >>= fun jsonParser => do
        if !jsonParser.ok then return .invalidJson
        return .validJson := by
    intro fuel hfuel
    rw [tryBlock_eq, hopen, Run.ofExcept_ok, Run.returns_bind, hr fuel hfuel]
  cases hverdict with
  | @accepted p _ hok =>
    obtain ⟨cs', hcontent, hcs'⟩ := accepts_iff_valid.mp ⟨_, p, hr _ (Nat.le_refl _), hok⟩
    refine ⟨_, .returns (.valid hcontent hcs') (by simp), fun fuel hfuel => ?_⟩
    rw [htry fuel hfuel, Run.returns_bind, hok]
    rfl
  | @rejected p hok _ hpre =>
    refine ⟨_, .returns (.invalid ?_ ?_) (by simp), fun fuel hfuel => ?_⟩
    · intro cs' hcontent hcs'
      obtain ⟨fuel, p', hp', hok'⟩ := accepts_iff_valid.mpr ⟨cs', hcontent, hcs'⟩
      obtain rfl := Run.returns.inj (returns_eq hr hp')
      cases hok.symm.trans hok'
    · -- no malformed sequence is left, or the tokens before it begin no value
      cases ending with
      | eof last =>
        intro hmalformed
        have htail : tail.bytes = [] := Tail.exception_eq_none.mp hends.1
        refine hmalformed.1 ⟨cs, ?_⟩
        rw [htail, List.append_nil]
      | throws e =>
        rw [malformedReached_iff hdelivers hends]
        exact hpre e rfl
    · rw [htry fuel hfuel, Run.returns_bind, hok]
      rfl
  | @thrown e hending hpre =>
    subst hending
    refine ⟨_, .throws ((malformedReached_iff hdelivers hends).mpr hpre) rfl
      (Tail.next_of_exception hends).2, htry⟩

/-- What `main` makes of the end of its `try` block. -/
theorem main_of_tryBlock {fs : FileSystem} {args : List Bytes} {fuel : Nat}
    {r : Run Exception ExitCode} (h : tryBlock fs args fuel = r) :
    (∀ code, r = .returns code →
      main fs args fuel = .returns code.toUnderlying ∧ mainOutput fs args fuel = .returns []) ∧
    (∀ e, r = .throws e →
      main fs args fuel = .returns (catchClause e).toUnderlying ∧
        mainOutput fs args fuel = .returns (catchOutput e)) := by
  subst h
  constructor
  · intro code hcode
    rw [main, mainOutput, hcode]
    exact ⟨rfl, rfl⟩
  · intro e he
    rw [main, mainOutput, he]
    exact ⟨rfl, rfl⟩

/-- The program on a file that has been opened. -/
theorem main_opened {fs : FileSystem} (prog : Bytes) {path content : Bytes}
    {loadType : FileLoadType} (hopen : openUtf8File fs path = .ok (.ofContent loadType content)) :
    ∃ code, Judged content code ∧ ∀ fuel, content.length + 2 ≤ fuel →
      main fs [prog, path] fuel = .returns code.toUnderlying := by
  obtain ⟨r, hends, hr⟩ := tryBlock_opened prog hopen
  cases hends with
  | returns hcode =>
    exact ⟨_, hcode, fun fuel hfuel => ((main_of_tryBlock (hr fuel hfuel)).1 _ rfl).1⟩
  | throws hreached _ hnext =>
    refine ⟨_, .malformed hreached, fun fuel hfuel => ?_⟩
    rw [((main_of_tryBlock (hr fuel hfuel)).2 _ rfl).1, catchClause_next hnext]

/-! ## Opening the file -/

/-- A file operation exception whose message ends with the name of the file. -/
def NamesFile (path : Bytes) (e : Exception) : Prop :=
  ∃ pfx, pfx ≠ [] ∧ e = .fileOperation (pfx ++ path)

private theorem namesFile_of_throw {α : Type} {path : Bytes} {e : Exception} {s : Bytes}
    (hs : s ≠ []) (h : (throw (.fileOperation (s ++ path)) : Except Exception α) = .error e) :
    NamesFile path e :=
  ⟨s, hs, (Except.error.inj h).symm⟩

private theorem validateFilePath_error {fs : FileSystem} {path : Bytes} {e : Exception}
    (h : validateFilePath fs path = .error e) : NamesFile path e := by
  simp only [validateFilePath, bind, Except.bind] at h
  split at h
  · exact namesFile_of_throw (by decide) h
  · split at h
    · exact namesFile_of_throw (by decide) h
    · exact nomatch h

private theorem getFileLoadType_error {fs : FileSystem} {path : Bytes} {e : Exception}
    (h : getFileLoadType fs path = .error e) : NamesFile path e := by
  simp only [getFileLoadType, bind, Except.bind] at h
  split at h
  · exact namesFile_of_throw (by decide) h
  · split at h
    · exact namesFile_of_throw (by decide) h
    · split at h
      · exact namesFile_of_throw (by decide) h
      · exact nomatch h

private theorem inMemory_construct_error {fs : FileSystem} {path : Bytes} {e : Exception}
    (h : Utf8InMemoryFile.construct fs path = .error e) : NamesFile path e := by
  unfold Utf8InMemoryFile.construct at h
  split at h
  · exact namesFile_of_throw (by decide) h
  · dsimp only at h
    split at h
    · exact namesFile_of_throw (by simp [show lit "): " ≠ [] from by decide]) h
    · split at h
      · exact namesFile_of_throw (by decide) h
      · exact nomatch h

private theorem mmap_construct_error {fs : FileSystem} {path : Bytes} {e : Exception}
    (h : Utf8MmapFile.construct fs path = .error e) :
    NamesFile path e ∨ fs.mapFile path = .error e := by
  unfold Utf8MmapFile.construct at h
  cases hvalid : validateFilePath fs path with
  | error e' =>
    rw [hvalid] at h
    obtain rfl := Except.error.inj h
    exact .inl (validateFilePath_error hvalid)
  | ok _ =>
    cases hmap : fs.mapFile path with
    | error e' =>
      rw [hvalid, hmap] at h
      exact .inr (congrArg _ (Except.error.inj h))
    | ok mapped =>
      rw [hvalid, hmap] at h
      cases mapped with
      | none => exact .inl (namesFile_of_throw (by decide) h)
      | some content => exact nomatch h

/-- The exceptions of the repository's own code name the file; mapping it may throw another. -/
theorem openUtf8File_error {fs : FileSystem} {path : Bytes} {e : Exception}
    (h : openUtf8File fs path = .error e) : NamesFile path e ∨ fs.mapFile path = .error e := by
  unfold openUtf8File at h
  cases htype : getFileLoadType fs path with
  | error e' =>
    rw [htype] at h
    obtain rfl := Except.error.inj h
    exact .inl (getFileLoadType_error htype)
  | ok loadType =>
    rw [htype] at h
    cases loadType with
    | fullMemory =>
      cases hfile : Utf8InMemoryFile.construct fs path with
      | error e' =>
        rw [hfile] at h
        obtain rfl := Except.error.inj h
        exact .inl (inMemory_construct_error hfile)
      | ok file => rw [hfile] at h; exact nomatch h
    | memoryMapped =>
      cases hfile : Utf8MmapFile.construct fs path with
      | error e' =>
        rw [hfile] at h
        obtain rfl := Except.error.inj h
        exact mmap_construct_error hfile
      | ok file => rw [hfile] at h; exact nomatch h

theorem NamesFile.catchClause {path : Bytes} {e : Exception} (h : NamesFile path e) :
    catchClause e = .fileOperationError := by
  obtain ⟨pfx, -, rfl⟩ := h
  rfl

/-! ## Exit codes and messages -/

/-- The exit code for a command line, and what `main` writes to `std::cerr`. -/
inductive Exits (fs : FileSystem) (args : List Bytes) : ExitCode → Bytes → Prop where
  | few {prog : Bytes} (hargs : args = [prog]) :
      Exits fs args .usageError (lit "Usage: " ++ prog ++ lit " <json_file>\n")
  | many (hargs : 2 < args.length) :
      Exits fs args .usageError (lit "Error: Only one JSON file can be provided\n")
  | unopened {prog path : Bytes} {e : Exception} (hargs : args = [prog, path])
      (hopen : openUtf8File fs path = .error e) (hnames : NamesFile path e) :
      Exits fs args .fileOperationError (catchOutput e)
  | unmapped {prog path : Bytes} {e : Exception} (hargs : args = [prog, path])
      (hopen : openUtf8File fs path = .error e) (hmap : fs.mapFile path = .error e) :
      Exits fs args (catchClause e) (catchOutput e)
  | judged {prog path : Bytes} {file : Utf8File} {code : ExitCode} (hargs : args = [prog, path])
      (hopen : openUtf8File fs path = .ok file) (hends : TryEnds file.data (.returns code)) :
      Exits fs args code []
  | malformed {prog path : Bytes} {file : Utf8File} {e : Exception} (hargs : args = [prog, path])
      (hopen : openUtf8File fs path = .ok file) (hends : TryEnds file.data (.throws e)) :
      Exits fs args .unknownError (catchOutput e)

/-- The end of the `try` block is determined by the content. -/
theorem TryEnds.unique {content : Bytes} {r r' : Run Exception ExitCode} (h : TryEnds content r)
    (h' : TryEnds content r') : r = r' := by
  cases h with
  | returns hcode hne =>
    cases h' with
    | returns hcode' => rw [hcode.unique hcode']
    | throws hreached => exact absurd (hcode.unique (.malformed hreached)) hne
  | throws hreached hcontent hnext =>
    cases h' with
    | returns hcode' hne' => exact absurd (hcode'.unique (.malformed hreached)) hne'
    | throws _ hcontent' hnext' =>
      have hrest := Utf8.encode_append_unique (Utf8Cpp.next_error.mp ⟨_, hnext⟩)
        (Utf8Cpp.next_error.mp ⟨_, hnext'⟩) (hcontent.symm.trans hcontent')
      rw [← hrest.2] at hnext'
      rw [Except.error.inj (hnext.symm.trans hnext')]

/-- What comes of the one argument. -/
theorem Exits.of_path {fs : FileSystem} {prog path : Bytes} {code : ExitCode} {text : Bytes}
    (h : Exits fs [prog, path] code text) :
    (∃ e, openUtf8File fs path = .error e ∧ code = catchClause e ∧ text = catchOutput e) ∨
      ∃ file r, openUtf8File fs path = .ok file ∧ TryEnds file.data r ∧
        (r = .returns code ∧ text = [] ∨
          ∃ e, r = .throws e ∧ code = .unknownError ∧ text = catchOutput e) := by
  cases h with
  | few hargs | many hargs => simp at hargs
  | unopened hargs hopen hnames =>
    obtain ⟨rfl, rfl⟩ : _ ∧ _ := by simpa using hargs
    exact .inl ⟨_, hopen, hnames.catchClause.symm, rfl⟩
  | unmapped hargs hopen =>
    obtain ⟨rfl, rfl⟩ : _ ∧ _ := by simpa using hargs
    exact .inl ⟨_, hopen, rfl, rfl⟩
  | judged hargs hopen hends =>
    obtain ⟨rfl, rfl⟩ : _ ∧ _ := by simpa using hargs
    exact .inr ⟨_, _, hopen, hends, .inl ⟨rfl, rfl⟩⟩
  | malformed hargs hopen hends =>
    obtain ⟨rfl, rfl⟩ : _ ∧ _ := by simpa using hargs
    exact .inr ⟨_, _, hopen, hends, .inr ⟨_, rfl, rfl, rfl⟩⟩

/-- With another number of arguments nothing is opened. -/
theorem Exits.of_length {fs : FileSystem} {args : List Bytes} {code : ExitCode} {text : Bytes}
    (h : Exits fs args code text) (hargs : args.length ≠ 2) :
    ∃ e, handleUsage args = .throws e ∧ code = .usageError ∧ catchClause e = .usageError ∧
      text = catchOutput e := by
  cases h with
  | @few prog hfew =>
    subst hfew
    refine ⟨.usage (lit "Usage: " ++ prog ++ lit " <json_file>"), rfl, rfl, rfl, ?_⟩
    have hmessage : lit " <json_file>\n" = lit " <json_file>" ++ lit "\n" := by decide
    simp only [catchOutput, Exception.what, hmessage, List.append_assoc]
  | many hmany =>
    refine ⟨.usage (lit "Error: Only one JSON file can be provided"), ?_, rfl, rfl, by decide⟩
    obtain ⟨prog, rest, rfl⟩ := List.exists_cons_of_length_pos (by omega : 0 < args.length)
    rw [handleUsage, if_neg (by omega), if_pos hmany]
    rfl
  | unopened heq | unmapped heq | judged heq | malformed heq => simp [heq] at hargs

theorem Exits.unique {fs : FileSystem} {args : List Bytes} {code code' : ExitCode}
    {text text' : Bytes} (h : Exits fs args code text) (h' : Exits fs args code' text') :
    code = code' ∧ text = text' := by
  by_cases hargs : args.length = 2
  · obtain ⟨prog, path, rfl⟩ := List.length_eq_two.mp hargs
    obtain ⟨e, hopen, rfl, rfl⟩ | ⟨file, r, hopen, hends, hr⟩ := h.of_path
    · obtain ⟨e', hopen', rfl, rfl⟩ | ⟨file', r', hopen', -⟩ := h'.of_path
      · rw [Except.error.inj (hopen.symm.trans hopen')]
        exact ⟨rfl, rfl⟩
      · cases hopen.symm.trans hopen'
    · obtain ⟨e', hopen', -⟩ | ⟨file', r', hopen', hends', hr'⟩ := h'.of_path
      · cases hopen.symm.trans hopen'
      · rw [← Except.ok.inj (hopen.symm.trans hopen')] at hends'
        obtain rfl := hends.unique hends'
        obtain ⟨rfl, rfl⟩ | ⟨e, rfl, rfl, rfl⟩ := hr
        · obtain ⟨heq, rfl⟩ | ⟨e', heq, -⟩ := hr'
          · exact ⟨Run.returns.inj heq, rfl⟩
          · cases heq
        · obtain ⟨heq, -⟩ | ⟨e', heq, rfl, rfl⟩ := hr'
          · cases heq
          · rw [Run.throws.inj heq]
            exact ⟨rfl, rfl⟩
  · obtain ⟨e, he, rfl, -, rfl⟩ := h.of_length hargs
    obtain ⟨e', he', rfl, -, rfl⟩ := h'.of_length hargs
    rw [Run.throws.inj (he.symm.trans he')]
    exact ⟨rfl, rfl⟩

/-- Every command line with the name of the program has an exit code, with which the program
    ends. -/
theorem exists_exits (fs : FileSystem) {args : List Bytes} (hname : args ≠ []) :
    ∃ code text, Exits fs args code text ∧ ∃ n, ∀ fuel, n ≤ fuel →
      main fs args fuel = .returns code.toUnderlying ∧
        mainOutput fs args fuel = .returns text := by
  by_cases hargs : args.length = 2
  · obtain ⟨prog, path, rfl⟩ := List.length_eq_two.mp hargs
    cases hopen : openUtf8File fs path with
    | error e =>
      have htry : ∀ fuel, tryBlock fs [prog, path] fuel = .throws e := by
        intro fuel
        rw [tryBlock_eq, hopen]
        rfl
      have hmain := fun fuel => (main_of_tryBlock (htry fuel)).2 e rfl
      obtain hnames | hmap := openUtf8File_error hopen
      · rw [hnames.catchClause] at hmain
        exact ⟨_, _, .unopened rfl hopen hnames, 0, fun fuel _ => hmain fuel⟩
      · exact ⟨_, _, .unmapped rfl hopen hmap, 0, fun fuel _ => hmain fuel⟩
    | ok file =>
      obtain ⟨loadType, content, rfl⟩ := openUtf8File_eq_ok hopen
      obtain ⟨r, hends, hr⟩ := tryBlock_opened prog hopen
      have hdata : TryEnds (Utf8File.ofContent loadType content).data r := by
        rwa [Utf8File.data_ofContent]
      cases hends with
      | returns hcode hne =>
        exact ⟨_, _, .judged rfl hopen hdata, _,
          fun fuel hfuel => (main_of_tryBlock (hr fuel hfuel)).1 _ rfl⟩
      | throws hreached hcontent hnext =>
        have hmain := fun fuel hfuel => (main_of_tryBlock (hr fuel hfuel)).2 _ rfl
        rw [catchClause_next hnext] at hmain
        exact ⟨_, _, .malformed rfl hopen hdata, _, hmain⟩
  · obtain ⟨text, hexits⟩ : ∃ text, Exits fs args .usageError text := by
      have hpos := List.length_pos_of_ne_nil hname
      by_cases hfew : args.length = 1
      · obtain ⟨prog, rfl⟩ := List.length_eq_one_iff.mp hfew
        exact ⟨_, .few rfl⟩
      · exact ⟨_, .many (by omega)⟩
    obtain ⟨e, he, -, hcode, rfl⟩ := hexits.of_length hargs
    refine ⟨_, _, hexits, 0, fun fuel _ => ?_⟩
    rw [← hcode]
    exact (main_of_tryBlock (by rw [tryBlock, he]; rfl)).2 e rfl

/-- `main` ends on every command line that has the name of the program, with the one exit code
    and the one message that `Exits` gives. -/
theorem main_exits (fs : FileSystem) {args : List Bytes} (hname : args ≠ []) :
    ∃ code text, (∃ n, ∀ fuel, n ≤ fuel → main fs args fuel = .returns code.toUnderlying ∧
        mainOutput fs args fuel = .returns text) ∧
      ∀ code' text', Exits fs args code' text' ↔ code' = code ∧ text' = text := by
  obtain ⟨code, text, hexits, hmain⟩ := exists_exits fs hname
  refine ⟨code, text, hmain, fun code' text' => ⟨fun h => h.unique hexits, ?_⟩⟩
  rintro ⟨rfl, rfl⟩
  exact hexits

/-- A command line without an argument. -/
theorem main_exits_usage :
    ∃ n, ∀ fuel, n ≤ fuel → main (.holding []) [lit "parser"] fuel = .returns 2 ∧
      mainOutput (.holding []) [lit "parser"] fuel =
        .returns (lit "Usage: parser <json_file>\n") := by
  obtain ⟨code, text, hmain, hexits⟩ := @main_exits (.holding []) [lit "parser"] (by simp)
  obtain ⟨rfl, rfl⟩ := (hexits _ _).mp (.few rfl)
  exact hmain

/-! ## A file system that serves the file -/

/-- All queries about `path` and both ways of reading it agree on its content. -/
structure FileSystem.Serves (fs : FileSystem) (path content : Bytes) : Prop where
  pathExists : fs.pathExists path = (true, false)
  isRegularFile : fs.isRegularFile path = (true, false)
  fileSize : fs.fileSize path = (content.length, false)
  openStream : fs.openStream path = some { endPosition := content.length, contents := content }
  mapFile : fs.mapFile path = .ok (some content)

/-- The file is read as a whole below the limit and mapped from it on. -/
theorem openUtf8File_serves {fs : FileSystem} {path content : Bytes}
    (h : fs.Serves path content) :
    openUtf8File fs path = .ok (.ofContent
      (if content.length < maxMappedFileSize then .fullMemory else .memoryMapped) content) := by
  have htype : getFileLoadType fs path =
      .ok (if content.length < maxMappedFileSize then .fullMemory else .memoryMapped) := by
    rw [getFileLoadType, h.pathExists, h.isRegularFile, h.fileSize]
    rfl
  rw [openUtf8File, htype]
  split
  · rename_i hsmall
    have hnot : ¬ maxMappedFileSize < content.length := by omega
    have hread : Utf8InMemoryFile.construct fs path = .ok { buffer := content, pos := 0 } := by
      rw [Utf8InMemoryFile.construct, h.openStream]
      simp [hnot]
      rfl
    simp only [bind, Except.bind, hread]
    rfl
  · have hmapped : Utf8MmapFile.construct fs path = .ok { content, pos := 0 } := by
      rw [Utf8MmapFile.construct, validateFilePath, h.pathExists, h.isRegularFile, h.mapFile]
      rfl
    simp only [bind, Except.bind, hmapped]
    rfl

theorem ExitCode.toUnderlying_inj {code code' : ExitCode}
    (h : code.toUnderlying = code'.toUnderlying) : code = code' := by
  cases code <;> cases code' <;> first | rfl | exact nomatch h

/-- The exit code for a file is that of its bytes, whichever way they are read. -/
theorem program_correct {fs : FileSystem} {path content : Bytes} (h : fs.Serves path content)
    (prog : Bytes) (code : ExitCode) :
    (∀ fuel, content.length + 2 ≤ fuel →
      main fs [prog, path] fuel = .returns code.toUnderlying) ↔ Judged content code := by
  obtain ⟨code', hcode', hmain⟩ := main_opened prog (openUtf8File_serves h)
  constructor
  · intro hcode
    have heq := (hcode _ (Nat.le_refl _)).symm.trans (hmain _ (Nat.le_refl _))
    rwa [ExitCode.toUnderlying_inj (Run.returns.inj heq)]
  · intro hcode
    rwa [hcode.unique hcode']

theorem FileSystem.holding_serves (path content : Bytes) :
    (FileSystem.holding content).Serves path content :=
  ⟨rfl, rfl, rfl, rfl, rfl⟩

/-- A file with the number `1`. -/
theorem program_correct_number :
    main (.holding (Utf8.encode ['1'])) [lit "parser", lit "one.json"] 3 = .returns 0 := by
  have hwrites : Writes [⟨.tkNumber, ['1'], tkNumber_one⟩] ([] ++ (['1'] ++ [])) :=
    .cons ⟨.tkNumber, ['1'], tkNumber_one⟩ blanks_nil .nil
  have hone : JsonText ['1'] := ⟨.number ⟨['1'], tkNumber_one⟩, ['1'], [], rfl, hwrites, blanks_nil⟩
  exact (program_correct (FileSystem.holding_serves _ _) _ _).mpr (.valid rfl (.inl hone)) 3
    (by decide)

end CcJson
