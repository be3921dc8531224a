import CcJson.Native.Utf8Cpp

/-!
# The UTF-8 readers

`file_handler/utf8_file.cpp`: a cursor over a byte buffer that reads one code
point at a time. `utf8_in_memory_file` and `utf8_mmap_file` have the same method
bodies over a different buffer; the bodies stand here once (namespace `Buffer`)
and each class applies them to its own fields.

A method returns its result or exception together with the object's state after
the call, so that it is visible whether a throwing call has moved the cursor.
-/

namespace CcJson

/-- `MAX_MAPPED_FILE_SIZE`: 100 MiB. -/
def maxMappedFileSize : Nat := 100 * 1024 * 1024

/-! ## Method bodies -/

namespace Buffer

def nextCodepoint (bytes : Bytes) (pos : Nat) : Except Exception (Option UInt32) × Nat :=
  if pos ≥ bytes.length then (.ok none, pos)
  else
    match Utf8Cpp.next (bytes.drop pos) with
    | .error e => (.error e, pos)
    | .ok (codepoint, it) => (.ok (some codepoint), bytes.length - it.length)

def peekCodepoint (bytes : Bytes) (pos : Nat) : Except Exception (Option UInt32) :=
  if pos ≥ bytes.length then .ok none
  else
    match Utf8Cpp.peekNext (bytes.drop pos) with
    | .error e => .error e
    | .ok codepoint => .ok (some codepoint)

def advance (bytes : Bytes) (pos : Nat) : Except Exception Bool × Nat :=
  if pos ≥ bytes.length then (.ok false, pos)
  else
    match Utf8Cpp.next (bytes.drop pos) with
    | .error e => (.error e, pos)
    | .ok (_, it) => (.ok true, bytes.length - it.length)

def putBack (bytes : Bytes) (pos : Nat) (codepoint : UInt32) : Except Exception Unit × Nat :=
  if pos = 0 then (.ok (), pos)
  else
    match Utf8Cpp.prior bytes pos with
    -- the `catch` clause of `not_enough_room` returns without moving
    | .error .notEnoughRoom => (.ok (), pos)
    | .error (.invalidUtf8 _) =>
      (.error (.fileOperation (lit "put_back: invalid UTF-8 at position")), pos)
    | .error ex => (.error (.fileOperation (lit "put_back: " ++ ex.what)), pos)
    | .ok (prev, it) =>
      if prev != codepoint then
        (.error (.fileOperation (lit "put_back: codepoint does not match byte at position")), pos)
      else (.ok (), it)

def revert (bytes : Bytes) (pos : Nat) : Except Exception Unit × Nat :=
  if pos = 0 then (.ok (), pos)
  else
    match Utf8Cpp.prior bytes pos with
    | .error e => (.error e, pos)
    | .ok (_, it) => (.ok (), it)

def atEnd (bytes : Bytes) (pos : Nat) : Bool := pos ≥ bytes.length

end Buffer

/-! ## The two classes -/

/-- `utf8_in_memory_file`. -/
structure Utf8InMemoryFile where
  buffer : Bytes
  pos : Nat
  deriving DecidableEq, Repr

namespace Utf8InMemoryFile

def nextCodepoint (f : Utf8InMemoryFile) : Except Exception (Option UInt32) × Utf8InMemoryFile :=
  let (r, pos) := Buffer.nextCodepoint f.buffer f.pos
  (r, { f with pos })

def peekCodepoint (f : Utf8InMemoryFile) : Except Exception (Option UInt32) :=
  Buffer.peekCodepoint f.buffer f.pos

def advance (f : Utf8InMemoryFile) : Except Exception Bool × Utf8InMemoryFile :=
  let (r, pos) := Buffer.advance f.buffer f.pos
  (r, { f with pos })

def putBack (f : Utf8InMemoryFile) (codepoint : UInt32) :
    Except Exception Unit × Utf8InMemoryFile :=
  let (r, pos) := Buffer.putBack f.buffer f.pos codepoint
  (r, { f with pos })

def revert (f : Utf8InMemoryFile) : Except Exception Unit × Utf8InMemoryFile :=
  let (r, pos) := Buffer.revert f.buffer f.pos
  (r, { f with pos })

def reset (f : Utf8InMemoryFile) : Utf8InMemoryFile := { f with pos := 0 }

def size (f : Utf8InMemoryFile) : Nat := f.buffer.length

def atEnd (f : Utf8InMemoryFile) : Bool := Buffer.atEnd f.buffer f.pos

def data (f : Utf8InMemoryFile) : Bytes := f.buffer

def currentOffset (f : Utf8InMemoryFile) : Nat := f.pos

end Utf8InMemoryFile

/-- `utf8_mmap_file`. -/
structure Utf8MmapFile where
  content : Bytes
  pos : Nat
  deriving DecidableEq, Repr

namespace Utf8MmapFile

def nextCodepoint (f : Utf8MmapFile) : Except Exception (Option UInt32) × Utf8MmapFile :=
  let (r, pos) := Buffer.nextCodepoint f.content f.pos
  (r, { f with pos })

def peekCodepoint (f : Utf8MmapFile) : Except Exception (Option UInt32) :=
  Buffer.peekCodepoint f.content f.pos

def advance (f : Utf8MmapFile) : Except Exception Bool × Utf8MmapFile :=
  let (r, pos) := Buffer.advance f.content f.pos
  (r, { f with pos })

def putBack (f : Utf8MmapFile) (codepoint : UInt32) : Except Exception Unit × Utf8MmapFile :=
  let (r, pos) := Buffer.putBack f.content f.pos codepoint
  (r, { f with pos })

def revert (f : Utf8MmapFile) : Except Exception Unit × Utf8MmapFile :=
  let (r, pos) := Buffer.revert f.content f.pos
  (r, { f with pos })

def reset (f : Utf8MmapFile) : Utf8MmapFile := { f with pos := 0 }

def size (f : Utf8MmapFile) : Nat := f.content.length

def atEnd (f : Utf8MmapFile) : Bool := Buffer.atEnd f.content f.pos

def data (f : Utf8MmapFile) : Bytes := f.content

def currentOffset (f : Utf8MmapFile) : Nat := f.pos

end Utf8MmapFile

/-! ## The abstract base class -/

/-- `utf8_file`: an object of one of the two classes, with the virtual methods
    dispatched to it. -/
inductive Utf8File where
  | inMemory (file : Utf8InMemoryFile)
  | mmap (file : Utf8MmapFile)
  deriving DecidableEq, Repr

namespace Utf8File

def nextCodepoint : Utf8File → Except Exception (Option UInt32) × Utf8File
  | .inMemory f => f.nextCodepoint.map id .inMemory
  | .mmap f => f.nextCodepoint.map id .mmap

def peekCodepoint : Utf8File → Except Exception (Option UInt32)
  | .inMemory f => f.peekCodepoint
  | .mmap f => f.peekCodepoint

def advance : Utf8File → Except Exception Bool × Utf8File
  | .inMemory f => f.advance.map id .inMemory
  | .mmap f => f.advance.map id .mmap

def putBack (file : Utf8File) (codepoint : UInt32) : Except Exception Unit × Utf8File :=
  match file with
  | .inMemory f => (f.putBack codepoint).map id .inMemory
  | .mmap f => (f.putBack codepoint).map id .mmap

def revert : Utf8File → Except Exception Unit × Utf8File
  | .inMemory f => f.revert.map id .inMemory
  | .mmap f => f.revert.map id .mmap

def reset : Utf8File → Utf8File
  | .inMemory f => .inMemory f.reset
  | .mmap f => .mmap f.reset

def size : Utf8File → Nat
  | .inMemory f => f.size
  | .mmap f => f.size

def atEnd : Utf8File → Bool
  | .inMemory f => f.atEnd
  | .mmap f => f.atEnd

def data : Utf8File → Bytes
  | .inMemory f => f.data
  | .mmap f => f.data

def currentOffset : Utf8File → Nat
  | .inMemory f => f.currentOffset
  | .mmap f => f.currentOffset

/-- A newly constructed reader of either class, standing at the beginning of `content`. -/
def ofContent (loadType : FileLoadType) (content : Bytes) : Utf8File :=
  match loadType with
  | .fullMemory => .inMemory { buffer := content, pos := 0 }
  | .memoryMapped => .mmap { content := content, pos := 0 }

@[simp] theorem size_ofContent (loadType : FileLoadType) (content : Bytes) :
    (ofContent loadType content).size = content.length := by
  cases loadType <;> rfl

@[simp] theorem data_ofContent (loadType : FileLoadType) (content : Bytes) :
    (ofContent loadType content).data = content := by
  cases loadType <;> rfl

end Utf8File

/-- `codepoint_to_utf8`. -/
def codepointToUtf8 (codepoint : UInt32) : Except Exception Bytes := Utf8Cpp.append codepoint

/-! ## Opening a file -/

/-- A `std::ifstream` opened on a file: the position reported by `tellg` at the
    end of the file, and the bytes that reading from the start delivers. -/
structure IfStream where
  endPosition : Nat
  contents : Bytes

/-- What the operating system and the mapped-file library answer for each path, each time
    that they are asked: the file system does not change during the run. The Boolean of
    the first three is the `std::error_code` of the call. -/
structure FileSystem where
  pathExists : Bytes → Bool × Bool
  isRegularFile : Bytes → Bool × Bool
  fileSize : Bytes → Nat × Bool
  /-- The stream, or `none` when it is not good after opening. -/
  openStream : Bytes → Option IfStream
  /-- `mapped_file_source::open`: may throw; `none` when it is not open afterwards. -/
  mapFile : Bytes → Except Exception (Option Bytes)

/-- `detail::validate_file_path`. Its last check cannot fire: both queries above
    it have just cleared the error code. -/
def validateFilePath (fs : FileSystem) (filename : Bytes) : Except Exception Unit := do
  let (found, err) := fs.pathExists filename
  if !found || err then throw (.fileOperation (lit "File does not exist: " ++ filename))
  let (regular, err) := fs.isRegularFile filename
  if !regular || err then throw (.fileOperation (lit "Not a regular file: " ++ filename))

/-- The constructor of `utf8_in_memory_file`. -/
def Utf8InMemoryFile.construct (fs : FileSystem) (filename : Bytes) :
    Except Exception Utf8InMemoryFile := do
  match fs.openStream filename with
  | none => throw (.fileOperation (lit "Cannot open file: " ++ filename))
  | some stream =>
    let streamSize := stream.endPosition
    if streamSize > maxMappedFileSize then
      throw (.fileOperation (lit "File too large for full load (max " ++
        lit (toString maxMappedFileSize) ++ lit "): " ++ filename))
    -- `read` fails when the stream ends before `streamSize` bytes
    if streamSize > 0 && stream.contents.length < streamSize then
      throw (.fileOperation (lit "Failed to read file: " ++ filename))
    return { buffer := stream.contents.take streamSize, pos := 0 }

/-- The constructor of `utf8_mmap_file`. -/
def Utf8MmapFile.construct (fs : FileSystem) (filename : Bytes) :
    Except Exception Utf8MmapFile := do
  validateFilePath fs filename
  match ← fs.mapFile filename with
  | none => throw (.fileOperation (lit "Failed to memory-map file: " ++ filename))
  | some content => return { content, pos := 0 }

/-- `get_file_load_type`. -/
def getFileLoadType (fs : FileSystem) (filename : Bytes) : Except Exception FileLoadType := do
  let (found, err) := fs.pathExists filename
  if !found || err then throw (.fileOperation (lit "File does not exist: " ++ filename))
  let (regular, err) := fs.isRegularFile filename
  if !regular || err then throw (.fileOperation (lit "Not a regular file: " ++ filename))
  let (fileSize, err) := fs.fileSize filename
  if err then throw (.fileOperation (lit "Cannot get file size: " ++ filename))
  return if fileSize < maxMappedFileSize then .fullMemory else .memoryMapped

/-- `open_utf8_file`. -/
def openUtf8File (fs : FileSystem) (filename : Bytes) : Except Exception Utf8File := do
  match ← getFileLoadType fs filename with
  | .fullMemory => return .inMemory (← Utf8InMemoryFile.construct fs filename)
  | .memoryMapped => return .mmap (← Utf8MmapFile.construct fs filename)

end CcJson
