import CcJson.Native.Utf8File
import CcJson.Spec.Utf8CppCorrect

/-!
# The reader as a cursor over code points

A byte buffer splits in one way into encoded code points and an undecodable
tail. A `Cursor` stands between two of those code points; the readers of
`Native.Utf8File` refine it, because the offset they keep is always the encoded
length of the code points on its left.

## Key results

- `nextCodepoint_file`, …, `atEnd_file`: each method of a reader is the cursor operation
- `calls_file`: so is every sequence of calls
- `reader_corresponds`: what a reader answers after any sequence of calls
- `putBack_agrees_revert`: the checked and the fast way back
-/

namespace CcJson

/-! ## Cursors -/

/-- What is left of a buffer after its code points: the empty list, or bytes that
    start with a malformed sequence. -/
structure Tail where
  bytes : Bytes
  undecodable : Utf8.Undecodable bytes

namespace Tail

/-- The tail of well-formed content. -/
def empty : Tail := { bytes := [], undecodable := Utf8.undecodable_nil }

/-- The exception thrown by reading the tail, if there is anything to read. -/
def exception (t : Tail) : Option Exception :=
  match t.bytes, Utf8Cpp.next t.bytes with
  | _ :: _, .error e => some e
  | _, _ => none

@[simp] theorem exception_empty : empty.exception = none := rfl

/-- Reading the tail throws its exception. -/
theorem next_of_exception {t : Tail} {e : Exception} (h : t.exception = some e) :
    t.bytes ≠ [] ∧ Utf8Cpp.next t.bytes = .error e := by
  unfold exception at h
  split at h
  · rename_i hb hn
    obtain rfl := Option.some.inj h
    exact ⟨by rw [hb]; exact List.cons_ne_nil _ _, hn⟩
  · exact nomatch h

/-- Only the empty tail can be read without an exception. -/
theorem exception_eq_none {t : Tail} : t.exception = none ↔ t.bytes = [] := by
  constructor
  · intro h
    -- Reading an undecodable tail throws, so there was nothing to read.
    obtain ⟨e, he⟩ := Utf8Cpp.next_error.mpr t.undecodable
    unfold exception at h
    split at h
    · exact nomatch h
    · rename_i hno
      cases hb : t.bytes with
      | nil => rfl
      | cons b bs => exact (hno b bs e hb he).elim
  · intro h
    simp only [exception, h]

end Tail

/-- Every content is an encoded text and a tail that cannot be decoded. -/
theorem exists_tail (content : Bytes) :
    ∃ (cs : List Char) (tail : Tail), content = Utf8.encode cs ++ tail.bytes := by
  obtain ⟨cs, t, rfl, ht⟩ := Utf8.exists_decomposition content
  exact ⟨cs, { bytes := t, undecodable := ht }, rfl⟩

/-- A position between two code points of a buffer. -/
structure Cursor where
  left : List Char
  right : List Char
  tail : Tail

namespace Cursor

/-- The buffer the cursor stands in. -/
def bytes (c : Cursor) : Bytes := Utf8.encode c.left ++ (Utf8.encode c.right ++ c.tail.bytes)

/-- The offset of the cursor in the buffer. -/
def offset (c : Cursor) : Nat := (Utf8.encode c.left).length

/-- The code point on the right of the cursor, or the exception of the tail. -/
def peek (c : Cursor) : Except Exception (Option Char) :=
  match c.right, c.tail.exception with
  | ch :: _, _ => .ok (some ch)
  | [], some e => .error e
  | [], none => .ok none

/-- Move over the code point on the right, if there is one. -/
def forward (c : Cursor) : Cursor :=
  match c.right with
  | ch :: right => { c with left := c.left ++ [ch], right }
  | [] => c

/-- Move back over the code point on the left, if there is one. -/
def back (c : Cursor) : Cursor :=
  match c.left.getLast? with
  | some ch => { c with left := c.left.dropLast, right := ch :: c.right }
  | none => c

/-- Move to the beginning of the buffer. -/
def rewind (c : Cursor) : Cursor := { c with left := [], right := c.left ++ c.right }

/-- The code points of the buffer. -/
def codepoints (c : Cursor) : List Char := c.left ++ c.right

@[simp] theorem forward_tail (c : Cursor) : c.forward.tail = c.tail := by
  unfold forward; split <;> rfl

@[simp] theorem back_tail (c : Cursor) : c.back.tail = c.tail := by
  unfold back; split <;> rfl

@[simp] theorem forward_codepoints (c : Cursor) : c.forward.codepoints = c.codepoints := by
  unfold forward
  split
  · rename_i ch right hr
    simp only [codepoints, hr, List.append_assoc, List.singleton_append]
  · rfl

@[simp] theorem back_codepoints (c : Cursor) : c.back.codepoints = c.codepoints := by
  unfold back
  split
  · rename_i ch hl
    have := List.dropLast_append_getLast? ch hl
    simp only [codepoints]
    rw [← List.singleton_append, ← List.append_assoc, this]
  · rfl

@[simp] theorem rewind_codepoints (c : Cursor) : c.rewind.codepoints = c.codepoints := rfl

theorem bytes_eq (c : Cursor) : c.bytes = Utf8.encode c.codepoints ++ c.tail.bytes := by
  simp only [bytes, codepoints, Utf8.encode_append, List.append_assoc]

end Cursor

/-! ## Readers in terms of their buffer and position -/

/-- A reader of either class over `bytes` with its position at `pos`. -/
def Utf8File.standing (loadType : FileLoadType) (bytes : Bytes) (pos : Nat) : Utf8File :=
  match loadType with
  | .fullMemory => .inMemory { buffer := bytes, pos }
  | .memoryMapped => .mmap { content := bytes, pos }

/-- The reader that stands at a cursor. -/
def Cursor.file (loadType : FileLoadType) (c : Cursor) : Utf8File :=
  Utf8File.standing loadType c.bytes c.offset

section Buffer

variable (loadType : FileLoadType) (bytes : Bytes) (pos : Nat)

theorem ofContent_eq : Utf8File.ofContent loadType bytes = .standing loadType bytes 0 := by
  cases loadType <;> rfl

private theorem nextCodepoint_standing : (Utf8File.standing loadType bytes pos).nextCodepoint =
    (Buffer.nextCodepoint bytes pos).map id (Utf8File.standing loadType bytes) := by
  cases loadType <;> rfl

private theorem peekCodepoint_standing :
    (Utf8File.standing loadType bytes pos).peekCodepoint = Buffer.peekCodepoint bytes pos := by
  cases loadType <;> rfl

private theorem advance_standing : (Utf8File.standing loadType bytes pos).advance =
    (Buffer.advance bytes pos).map id (Utf8File.standing loadType bytes) := by
  cases loadType <;> rfl

private theorem putBack_standing (codepoint : UInt32) :
    (Utf8File.standing loadType bytes pos).putBack codepoint =
      (Buffer.putBack bytes pos codepoint).map id (Utf8File.standing loadType bytes) := by
  cases loadType <;> rfl

private theorem revert_standing : (Utf8File.standing loadType bytes pos).revert =
    (Buffer.revert bytes pos).map id (Utf8File.standing loadType bytes) := by
  cases loadType <;> rfl

private theorem reset_standing : (Utf8File.standing loadType bytes pos).reset =
    Utf8File.standing loadType bytes 0 := by
  cases loadType <;> rfl

@[simp] theorem size_standing : (Utf8File.standing loadType bytes pos).size = bytes.length := by
  cases loadType <;> rfl

@[simp] theorem data_standing : (Utf8File.standing loadType bytes pos).data = bytes := by
  cases loadType <;> rfl

@[simp] theorem currentOffset_standing :
    (Utf8File.standing loadType bytes pos).currentOffset = pos := by
  cases loadType <;> rfl

private theorem atEnd_standing :
    (Utf8File.standing loadType bytes pos).atEnd = decide (pos ≥ bytes.length) := by
  cases loadType <;> rfl

end Buffer

/-! ## The methods at a cursor

`pre` and `rest` are the bytes on the two sides of the position. -/

section Methods

variable {pre rest : Bytes}

private theorem nextCodepoint_append_nil (pre : Bytes) :
    Buffer.nextCodepoint (pre ++ []) pre.length = (.ok none, pre.length) := by
  simp [Buffer.nextCodepoint]

private theorem nextCodepoint_append (hrest : rest ≠ []) :
    Buffer.nextCodepoint (pre ++ rest) pre.length =
      match Utf8Cpp.next rest with
      | .error e => (.error e, pre.length)
      | .ok (codepoint, it) => (.ok (some codepoint), (pre ++ rest).length - it.length) := by
  have hpos := List.length_pos_of_ne_nil hrest
  have hmore : ¬ pre.length ≥ (pre ++ rest).length := by
    rw [List.length_append]
    omega
  have hdrop : (pre ++ rest).drop pre.length = rest := List.drop_left
  unfold Buffer.nextCodepoint
  cases hnext : Utf8Cpp.next rest <;> simp only [if_neg hmore, hdrop, hnext]

/-- `advance` moves as `next_codepoint` does and answers whether it has moved. -/
private theorem advance_eq_nextCodepoint (bytes : Bytes) (pos : Nat) :
    Buffer.advance bytes pos =
      ((Buffer.nextCodepoint bytes pos).1.map Option.isSome,
        (Buffer.nextCodepoint bytes pos).2) := by
  unfold Buffer.advance Buffer.nextCodepoint
  split
  · rfl
  · cases Utf8Cpp.next (bytes.drop pos) <;> rfl

/-- `peek_codepoint` answers what `next_codepoint` does. -/
private theorem peekCodepoint_eq_nextCodepoint (bytes : Bytes) (pos : Nat) :
    Buffer.peekCodepoint bytes pos = (Buffer.nextCodepoint bytes pos).1 := by
  unfold Buffer.peekCodepoint Buffer.nextCodepoint Utf8Cpp.peekNext
  split
  · rfl
  · cases Utf8Cpp.next (bytes.drop pos) <;> rfl

end Methods

namespace Cursor

variable (loadType : FileLoadType) (c : Cursor)

private theorem nextCodepoint_buffer :
    Buffer.nextCodepoint c.bytes c.offset =
      (c.peek.map (Option.map Char.val), c.forward.offset) := by
  unfold bytes offset
  cases hr : c.right with
  | cons ch right =>
    -- The bytes on the right start with the encoding of `ch`, which `next` decodes.
    have hne : Utf8.encode (ch :: right) ++ c.tail.bytes ≠ [] := by
      simp [String.utf8EncodeChar_ne_nil]
    rw [nextCodepoint_append hne, Utf8.encode_cons, List.append_assoc, Utf8Cpp.next_encode]
    simp only [peek, forward, hr, Except.map, Option.map_some, Utf8.encode_append,
      Utf8.encode_singleton, List.length_append]
    congr 1
    omega
  | nil =>
    simp only [peek, forward, hr, Utf8.encode_nil, List.nil_append]
    -- Only the tail is left: empty, or a sequence on which `next` throws.
    cases he : c.tail.exception with
    | none =>
      rw [Tail.exception_eq_none.mp he, nextCodepoint_append_nil]
      rfl
    | some e =>
      obtain ⟨hne, hnext⟩ := Tail.next_of_exception he
      rw [nextCodepoint_append hne, hnext]
      rfl

/-- Moving the cursor does not change the buffer. -/
@[simp] theorem forward_bytes : c.forward.bytes = c.bytes := by
  rw [bytes_eq, bytes_eq, forward_codepoints, forward_tail]

@[simp] theorem back_bytes : c.back.bytes = c.bytes := by
  rw [bytes_eq, bytes_eq, back_codepoints, back_tail]

@[simp] theorem rewind_bytes : c.rewind.bytes = c.bytes := by
  rw [bytes_eq, bytes_eq, rewind_codepoints]
  rfl

theorem nextCodepoint_file :
    (c.file loadType).nextCodepoint =
      (c.peek.map (Option.map Char.val), c.forward.file loadType) := by
  rw [file, nextCodepoint_standing, nextCodepoint_buffer, file, forward_bytes]
  rfl

theorem peekCodepoint_file :
    (c.file loadType).peekCodepoint = c.peek.map (Option.map Char.val) := by
  rw [file, peekCodepoint_standing, peekCodepoint_eq_nextCodepoint, nextCodepoint_buffer]

theorem advance_file :
    (c.file loadType).advance = (c.peek.map Option.isSome, c.forward.file loadType) := by
  rw [file, advance_standing, advance_eq_nextCodepoint, nextCodepoint_buffer, file, forward_bytes]
  cases c.peek with
  | error e => rfl
  | ok o => cases o <;> rfl

/-- The bytes around a cursor with a code point on its left. -/
private theorem bytes_of_getLast {ch : Char} (h : c.left.getLast? = some ch) :
    c.bytes = Utf8.encode c.left.dropLast ++ String.utf8EncodeChar ch ++
      (Utf8.encode c.right ++ c.tail.bytes) ∧
    c.offset = (Utf8.encode c.left.dropLast).length + (String.utf8EncodeChar ch).length := by
  have hleft := List.dropLast_append_getLast? ch h
  have henc : Utf8.encode c.left = Utf8.encode c.left.dropLast ++ String.utf8EncodeChar ch := by
    rw [← Utf8.encode_singleton, ← Utf8.encode_append, hleft]
  constructor
  · rw [bytes, henc]
  · rw [offset, henc, List.length_append]

/-- `utf8::prior` finds exactly the code point on the left of the cursor. -/
private theorem prior_buffer {ch : Char} (h : c.left.getLast? = some ch) :
    Utf8Cpp.prior c.bytes c.offset = .ok (ch.val, c.back.offset) := by
  obtain ⟨hbytes, hoffset⟩ := bytes_of_getLast c h
  rw [hbytes, hoffset, Utf8Cpp.prior_encode]
  simp only [back, h, offset]

/-- The position is 0 iff no code point is on the left. -/
private theorem offset_eq_zero : c.offset = 0 ↔ c.left.getLast? = none := by
  rw [offset, List.length_eq_zero_iff, Utf8.encode_eq_nil, List.getLast?_eq_none_iff]

private theorem offset_ne_zero {ch : Char} (h : c.left.getLast? = some ch) : c.offset ≠ 0 := by
  rw [ne_eq, offset_eq_zero, h]
  exact Option.some_ne_none ch

theorem revert_file : (c.file loadType).revert = (.ok (), c.back.file loadType) := by
  have hbuffer : Buffer.revert c.bytes c.offset = (.ok (), c.back.offset) := by
    unfold Buffer.revert
    cases h : c.left.getLast? with
    | none =>
      rw [if_pos ((offset_eq_zero c).mpr h)]
      simp only [back, h]
    | some ch =>
      rw [if_neg (offset_ne_zero c h), prior_buffer c h]
  rw [file, revert_standing, hbuffer, file, back_bytes]
  rfl

/-- `put_back` compares with the code point on the left of the cursor. -/
theorem putBack_file (codepoint : UInt32) :
    (c.file loadType).putBack codepoint =
      match c.left.getLast? with
      | none => (.ok (), c.file loadType)
      | some ch =>
        if ch.val = codepoint then (.ok (), c.back.file loadType)
        else (.error (.fileOperation
          (lit "put_back: codepoint does not match byte at position")), c.file loadType) := by
  rw [file, putBack_standing]
  unfold Buffer.putBack
  -- At the beginning `put_back` does nothing; else it moves only over the same code point.
  cases h : c.left.getLast? with
  | none =>
    rw [if_pos ((offset_eq_zero c).mpr h)]
    rfl
  | some ch =>
    rw [if_neg (offset_ne_zero c h), prior_buffer c h]
    by_cases hcp : ch.val = codepoint
    · simp only [hcp, bne_self_eq_false, Bool.false_eq_true, ↓reduceIte, file, back_bytes]
      rfl
    · simp only [bne_iff_ne, ne_eq, hcp, not_false_eq_true, ↓reduceIte]
      rfl

theorem reset_file : (c.file loadType).reset = c.rewind.file loadType := by
  rw [file, reset_standing, file, rewind_bytes]
  rfl

@[simp] theorem size_file : (c.file loadType).size = c.bytes.length := size_standing _ _ _

@[simp] theorem data_file : (c.file loadType).data = c.bytes := data_standing _ _ _

@[simp] theorem currentOffset_file : (c.file loadType).currentOffset = c.offset :=
  currentOffset_standing _ _ _

/-- The reader is at the end iff neither code points nor a malformed tail are left. -/
theorem atEnd_file : (c.file loadType).atEnd = (c.right.isEmpty && c.tail.bytes.isEmpty) := by
  rw [file, atEnd_standing, Bool.eq_iff_iff]
  simp only [bytes, offset, List.length_append, decide_eq_true_eq, Bool.and_eq_true,
    List.isEmpty_iff]
  constructor
  · intro h
    constructor
    · exact Utf8.encode_eq_nil.mp (List.length_eq_zero_iff.mp (by omega))
    · exact List.length_eq_zero_iff.mp (by omega)
  · intro h
    obtain ⟨hr, ht⟩ := h
    simp [hr, ht]

end Cursor

/-! ## Sequences of calls -/

/-- A call of a method of a reader. -/
inductive ReaderCall where
  | nextCodepoint
  | peekCodepoint
  | advance
  | revert
  | putBack (codepoint : UInt32)
  | reset
  deriving DecidableEq, Repr

/-- The reader after a call, which may have thrown. -/
def Utf8File.call (file : Utf8File) : ReaderCall → Utf8File
  | .nextCodepoint => file.nextCodepoint.2
  | .peekCodepoint => file
  | .advance => file.advance.2
  | .revert => file.revert.2
  | .putBack codepoint => (file.putBack codepoint).2
  | .reset => file.reset

/-- The reader after a sequence of calls. -/
def Utf8File.calls (file : Utf8File) (ops : List ReaderCall) : Utf8File :=
  ops.foldl Utf8File.call file

namespace Cursor

/-- What a call does to the cursor. -/
def call (c : Cursor) : ReaderCall → Cursor
  | .nextCodepoint => c.forward
  | .peekCodepoint => c
  | .advance => c.forward
  | .revert => c.back
  | .putBack codepoint => if c.left.getLast?.any (·.val == codepoint) then c.back else c
  | .reset => c.rewind

def calls (c : Cursor) (ops : List ReaderCall) : Cursor := ops.foldl call c

/-- A call of a reader moves its cursor. -/
theorem call_file (loadType : FileLoadType) (c : Cursor) (op : ReaderCall) :
    (c.file loadType).call op = (c.call op).file loadType := by
  cases op with
  | nextCodepoint => exact congrArg Prod.snd (nextCodepoint_file loadType c)
  | peekCodepoint => rfl
  | advance => exact congrArg Prod.snd (advance_file loadType c)
  | revert => exact congrArg Prod.snd (revert_file loadType c)
  | putBack codepoint =>
    simp only [Utf8File.call, call, putBack_file]
    cases c.left.getLast? with
    | none => rfl
    | some ch =>
      by_cases h : ch.val = codepoint
      · simp [h]
      · simp [h]
  | reset => exact reset_file loadType c

/-- Calls move the cursor within the same code points and tail. -/
theorem call_codepoints (c : Cursor) (op : ReaderCall) :
    (c.call op).codepoints = c.codepoints ∧ (c.call op).tail = c.tail := by
  cases op with
  | putBack codepoint =>
    simp only [call]
    split
    · simp
    · simp
  | reset => exact ⟨rfl, rfl⟩
  | _ => simp [call]

/-- The reader after any sequence of calls stands where the cursor does. -/
theorem calls_file (loadType : FileLoadType) (c : Cursor) (ops : List ReaderCall) :
    (c.file loadType).calls ops = (c.calls ops).file loadType := by
  induction ops generalizing c with
  | nil => rfl
  | cons op ops ih =>
    show ((c.file loadType).call op).calls ops = ((c.call op).calls ops).file loadType
    rw [call_file, ih]

theorem calls_codepoints (c : Cursor) (ops : List ReaderCall) :
    (c.calls ops).codepoints = c.codepoints ∧ (c.calls ops).tail = c.tail := by
  induction ops generalizing c with
  | nil => exact ⟨rfl, rfl⟩
  | cons op ops ih =>
    obtain ⟨hc, ht⟩ := ih (c.call op)
    obtain ⟨hc', ht'⟩ := call_codepoints c op
    exact ⟨hc.trans hc', ht.trans ht'⟩

end Cursor

/-- Every buffer has a cursor standing at its beginning. -/
theorem exists_cursor (content : Bytes) :
    ∃ c : Cursor, c.left = [] ∧ c.bytes = content ∧
      ∀ loadType, Utf8File.ofContent loadType content = c.file loadType := by
  obtain ⟨cs, tail, rfl⟩ := exists_tail content
  let c : Cursor := { left := [], right := cs, tail }
  refine ⟨c, rfl, rfl, ?_⟩
  intro loadType
  rw [ofContent_eq]
  rfl

/-! ## What a reader answers -/

/-- `cps` is the longest list of code points decodable from the start of `content`. -/
def LongestDecodable (content : Bytes) (cps : List Char) : Prop :=
  Utf8.encode cps <+: content ∧ ∀ ds, Utf8.encode ds <+: content → ds <+: cps

/-- The longest decodable list is that of the characters before the tail. -/
theorem longestDecodable_iff {cs : List Char} {tail : Tail} {cps : List Char} :
    LongestDecodable (Utf8.encode cs ++ tail.bytes) cps ↔ cps = cs := by
  have hlongest : LongestDecodable (Utf8.encode cs ++ tail.bytes) cs :=
    ⟨List.prefix_append _ _, fun ds hds => Utf8.prefix_of_encode_prefix tail.undecodable hds⟩
  constructor
  · intro h
    obtain ⟨hpre, hmax⟩ := h
    exact (hlongest.2 cps hpre).eq_of_length_le (hmax cs hlongest.1).length_le
  · rintro rfl
    exact hlongest

/-- The reader over `content` stands between `left` and `right`, and every method
    answers accordingly. -/
structure StandsBetween (loadType : FileLoadType) (content : Bytes) (left right : List Char)
    (file : Utf8File) : Prop where
  position : file = .standing loadType content (Utf8.encode left).length
  currentOffset : file.currentOffset = (Utf8.encode left).length
  next_head : ∀ c r, right = c :: r → file.nextCodepoint =
    (.ok (some c.val), .standing loadType content (Utf8.encode (left ++ [c])).length)
  next_end : right = [] → Utf8.encode left = content → file.nextCodepoint = (.ok none, file)
  next_throws : right = [] → Utf8.encode left ≠ content → ∃ e, file.nextCodepoint = (.error e, file)
  peek : file.peekCodepoint = file.nextCodepoint.1
  advance : file.advance = (file.nextCodepoint.1.map Option.isSome, file.nextCodepoint.2)
  revert_last : ∀ l c, left = l ++ [c] →
    file.revert = (.ok (), .standing loadType content (Utf8.encode l).length)
  revert_start : left = [] → file.revert = (.ok (), file)
  reset : file.reset = .standing loadType content 0
  atEnd : file.atEnd = true ↔ right = [] ∧ Utf8.encode (left ++ right) = content

/-- A reader at a cursor answers as the split of the cursor says. -/
theorem Cursor.standsBetween (loadType : FileLoadType) (c : Cursor) :
    StandsBetween loadType c.bytes c.left c.right (c.file loadType) := by
  have hwhole : Utf8.encode (c.left ++ c.right) = c.bytes ↔ c.tail.bytes = [] := by
    rw [bytes_eq, codepoints, List.self_eq_append_right]
  -- Behind the last code point the bytes on the left are all of them iff the tail is empty.
  have hend : c.right = [] → (Utf8.encode c.left = c.bytes ↔ c.tail.bytes = []) := by
    intro hr
    rw [← hwhole, hr, List.append_nil]
  constructor
  case position => rfl
  case currentOffset => exact currentOffset_file loadType c
  case next_head =>
    intro ch r hr
    rw [nextCodepoint_file, file, forward_bytes]
    simp only [peek, forward, hr, offset, Except.map, Option.map_some]
  case next_end =>
    intro hr hb
    have he := Tail.exception_eq_none.mpr ((hend hr).mp hb)
    rw [nextCodepoint_file]
    simp only [peek, forward, hr, he, Except.map, Option.map_none]
  case next_throws =>
    intro hr hb
    rw [ne_eq, hend hr, ← Tail.exception_eq_none] at hb
    obtain ⟨e, he⟩ := Option.ne_none_iff_exists'.mp hb
    refine ⟨e, ?_⟩
    rw [nextCodepoint_file]
    simp only [peek, forward, hr, he, Except.map]
  case peek => rw [peekCodepoint_file, nextCodepoint_file]
  case advance =>
    rw [advance_file, nextCodepoint_file]
    cases c.peek with
    | error e => rfl
    | ok o => cases o <;> rfl
  case revert_last =>
    intro l ch hl
    rw [revert_file, file, back_bytes]
    simp only [back, hl, offset, List.getLast?_append, List.getLast?_singleton, Option.some_or,
      List.dropLast_concat]
  case revert_start =>
    intro hl
    rw [revert_file]
    simp only [back, hl, List.getLast?_nil]
  case reset => rw [reset_file, file, rewind_bytes]; rfl
  case atEnd =>
    rw [atEnd_file, hwhole, Bool.and_eq_true, List.isEmpty_iff, List.isEmpty_iff]

/-- After any sequence of calls, a newly constructed reader of either class stands
    where the cursor over the decodable code points does, and answers accordingly. -/
theorem reader_corresponds (loadType : FileLoadType) (content : Bytes) :
    ∃ start : Cursor, start.left = [] ∧ LongestDecodable content start.right ∧
      ∀ ops, ((start.calls ops).left ++ (start.calls ops).right = start.right) ∧
        StandsBetween loadType content (start.calls ops).left (start.calls ops).right
          ((Utf8File.ofContent loadType content).calls ops) := by
  obtain ⟨start, hleft, rfl, hfile⟩ := exists_cursor content
  have hbytes : start.bytes = Utf8.encode start.right ++ start.tail.bytes := by
    rw [Cursor.bytes, hleft, Utf8.encode_nil, List.nil_append]
  refine ⟨start, hleft, hbytes ▸ longestDecodable_iff.mpr rfl, ?_⟩
  · intro ops
    obtain ⟨hcps, htail⟩ := start.calls_codepoints ops
    -- Calls keep the code points and the tail, hence the buffer.
    have hcalls : (start.calls ops).bytes = start.bytes := by
      rw [Cursor.bytes_eq, Cursor.bytes_eq, hcps, htail]
    constructor
    · calc (start.calls ops).left ++ (start.calls ops).right = start.codepoints := hcps
        _ = start.right := by rw [Cursor.codepoints, hleft, List.nil_append]
    · rw [hfile, Cursor.calls_file, ← hcalls]
      exact Cursor.standsBetween loadType _

/-! ## The two ways back -/

/-- Moving back and forward again over the code point on the left. -/
private theorem Cursor.forward_back {c : Cursor} {ch : Char} (h : c.left.getLast? = some ch) :
    c.back.peek = .ok (some ch) ∧ c.back.forward = c := by
  have hleft := List.dropLast_append_getLast? ch h
  constructor
  · simp only [back, h, peek]
  · simp only [back, h, forward, hleft]

/-- The reader over `content` stands behind the code point `c`, and both ways of un-reading it
    agree. `put_back` of any other value throws the exception for a mismatch. -/
structure StepsBack (content : Bytes) (file : Utf8File) (left : List Char) (c : Char) : Prop where
  behind : content.take file.currentOffset = Utf8.encode (left ++ [c])
  revert : file.revert.1 = .ok ()
  moves : file.revert.2.currentOffset = (Utf8.encode left).length
  putBack : file.putBack c.val = (.ok (), file.revert.2)
  again : file.revert.2.nextCodepoint = (.ok (some c.val), file)
  mismatch : ∀ x, x ≠ c.val → file.putBack x =
    (.error (.fileOperation (lit "put_back: codepoint does not match byte at position")), file)

/-- In every reachable state of a reader that is not at its beginning, `put_back` of the code
    point on the left does what `revert` does, and of any other value is a mismatch. -/
theorem putBack_agrees_revert (loadType : FileLoadType) (content : Bytes) (ops : List ReaderCall)
    (h : 0 < ((Utf8File.ofContent loadType content).calls ops).currentOffset) :
    ∃ left c, StepsBack content ((Utf8File.ofContent loadType content).calls ops) left c := by
  obtain ⟨start, -, rfl, hfile⟩ := exists_cursor content
  have hbytes : start.bytes = (start.calls ops).bytes := by
    obtain ⟨hcps, htail⟩ := start.calls_codepoints ops
    rw [Cursor.bytes_eq, Cursor.bytes_eq, hcps, htail]
  rw [hfile, Cursor.calls_file] at h ⊢
  rw [hbytes]
  generalize start.calls ops = c at h ⊢
  rw [Cursor.currentOffset_file] at h
  -- the position is not 0, so there is a code point on the left
  obtain ⟨ch, hch⟩ : ∃ ch, c.left.getLast? = some ch := by
    apply Option.ne_none_iff_exists'.mp
    intro hnone
    have := (Cursor.offset_eq_zero c).mpr hnone
    omega
  have hleft : c.left.dropLast ++ [ch] = c.left := List.dropLast_append_getLast? ch hch
  obtain ⟨hpeek, hforward⟩ := Cursor.forward_back hch
  refine ⟨c.left.dropLast, ch, ?_⟩
  constructor
  case behind =>
    rw [hleft, Cursor.currentOffset_file]
    exact List.take_left
  case revert => rw [Cursor.revert_file]
  case moves =>
    rw [Cursor.revert_file, Cursor.currentOffset_file]
    simp only [Cursor.back, hch, Cursor.offset]
  case putBack => rw [Cursor.putBack_file, Cursor.revert_file, hch]; exact if_pos rfl
  case again =>
    rw [Cursor.revert_file, Cursor.nextCodepoint_file, hpeek, hforward]
    rfl
  case mismatch =>
    intro x hx
    rw [Cursor.putBack_file, hch]
    exact if_neg hx.symm

/-- Behind a code point of two bytes. -/
theorem putBack_agrees_revert_two_bytes :
    ∃ left c, StepsBack (Utf8.encode ['é'])
      ((Utf8File.ofContent .fullMemory (Utf8.encode ['é'])).calls [.nextCodepoint]) left c :=
  putBack_agrees_revert .fullMemory _ [.nextCodepoint] (by decide)

end CcJson
