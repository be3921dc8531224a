import CcJson.Native.Utf8Cpp

/-!
# The other functions of the vendored UTF-8 library

The rest of `include/utf8/core.h` and `include/utf8/checked.h`: validation,
replacement of malformed sequences, moving over code points, the conversions from and
to UTF-16 and UTF-32, and the iterator class. The overloads for strings, also those
of `include/utf8/cpp11.h`, apply these to the whole of a string.

An input range is the list of its octets or words, as in `Native.Utf8Cpp`. An output
iterator is the list of what has been written through it; what a call has written
before it throws is not kept.
-/

namespace CcJson.Utf8Cpp

/-! ## Validation -/

/-- The body of the loop of `find_invalid`. -/
def findInvalidBody (result : Bytes) : Run Exception (ForInStep Bytes) :=
  if result.isEmpty then return .done result
  else
    match validateNext result with
    | .error _ => return .done result
    | .ok (_, result) => return .yield result

/-- `find_invalid(start, end)`: the iterator to the first malformed sequence. -/
def findInvalid (start : Bytes) : Run Exception Bytes :=
  Run.loop findInvalidBody (start.length + 1) start

/-- `find_invalid(s)`: its offset, or `none` for `std::string::npos`. -/
def findInvalidOffset (s : Bytes) : Run Exception (Option Nat) := do
  let invalid ← findInvalid s
  return if invalid.isEmpty then none else some (s.length - invalid.length)

/-- `is_valid(start, end)` -/
def isValid (start : Bytes) : Run Exception Bool := do
  let invalid ← findInvalid start
  return invalid.isEmpty

/-- `starts_with_bom(it, end)`: whether the octets of `bom` come first. -/
def startsWithBom (it : Bytes) : Bool :=
  (!it.isEmpty && it.headD 0 == 0xef) &&
  (!it.tail.isEmpty && it.tail.headD 0 == 0xbb) &&
  (!it.tail.tail.isEmpty && it.tail.tail.headD 0 == 0xbf)

/-! ## Replacement -/

/-- The body of the loop of `replace_invalid`. -/
def replaceInvalidBody (replacement : UInt32) (s : Bytes × Bytes) :
    Run Exception (ForInStep (Bytes × Bytes)) := do
  let (start, out) := s
  if start.isEmpty then return .done s
  match validateNext start with
  | .ok (_, rest) => return .yield (rest, out ++ start.take (start.length - rest.length))
  | .error .notEnoughRoom =>
    let mark ← Run.ofExcept (append replacement)
    return .yield ([], out ++ mark)
  | .error .invalidLead =>
    let mark ← Run.ofExcept (append replacement)
    return .yield (start.tail, out ++ mark)
  | .error .incompleteSequence | .error .overlongSequence | .error .invalidCodePoint =>
    let mark ← Run.ofExcept (append replacement)
    -- just one replacement mark for the sequence
    return .yield (start.tail.dropWhile isTrail, out ++ mark)

/-- `replace_invalid(start, end, out, replacement)`: what is written. -/
def replaceInvalid (start : Bytes) (replacement : UInt32) : Run Exception Bytes := do
  let (_, out) ← Run.loop (replaceInvalidBody replacement) (start.length + 1) (start, [])
  return out

/-- `replacement_marker` -/
def replacementMarker : UInt32 := 0xfffd

/-- `replace_invalid(start, end, out)` -/
def replaceInvalidMarker (start : Bytes) : Run Exception Bytes :=
  replaceInvalid start replacementMarker

/-! ## Moving over code points

`next` and `prior` compare their iterator with the end of the range by `==` only. When that
end is not in the direction of the move the two never meet, and the code can leave the buffer. -/

/-- What keeps a move from ending normally: an exception, or an access outside of the buffer,
    where the behaviour is undefined. -/
inductive Fault where
  | throws (e : Exception)
  | undefined
  deriving DecidableEq, Repr

/-- `next(it, end)` on indices into `buffer`: the code point and the index after it. -/
def nextAt (buffer : Bytes) (it end_ : Nat) : Except Fault (UInt32 × Nat) :=
  if it ≤ end_ then
    match next ((buffer.take end_).drop it) with
    | .ok (cp, rest) => .ok (cp, end_ - rest.length)
    | .error e => .error (.throws e)
  else
    -- nothing but the end of the buffer is in the way
    match next (buffer.drop it) with
    | .ok (cp, rest) => .ok (cp, buffer.length - rest.length)
    | .error .notEnoughRoom => .error .undefined
    | .error e => .error (.throws e)

/-- The loop of `prior` on indices into `buffer`, from `--it` on. -/
def priorLeadAt (buffer : Bytes) (start : Nat) : Nat → Except Fault Nat
  | 0 => .error .undefined
  | it + 1 =>
    if isTrail (buffer.getD it 0) then
      if it = start then .error (.throws (.invalidUtf8 (buffer.getD it 0)))
      else priorLeadAt buffer start it
    else .ok it

/-- `prior(it, start)` on indices into `buffer`. -/
def priorAt (buffer : Bytes) (it start : Nat) : Except Fault (UInt32 × Nat) := do
  if it = start then throw (.throws .notEnoughRoom)
  let lead ← priorLeadAt buffer start it
  let cp ← (peekNext ((buffer.take it).drop lead)).mapError .throws
  return (cp, lead)

/-- The forward loop of `advance`. -/
def advanceForward (buffer : Bytes) (end_ : Nat) : Nat → Nat → Except Fault Nat
  | 0, it => .ok it
  | n + 1, it => do
    let (_, it) ← nextAt buffer it end_
    advanceForward buffer end_ n it

/-- The backward loop of `advance`, which passes `end` to `prior` as the start. -/
def advanceBackward (buffer : Bytes) (end_ : Nat) : Nat → Nat → Except Fault Nat
  | 0, it => .ok it
  | n + 1, it => do
    let (_, it) ← priorAt buffer it end_
    advanceBackward buffer end_ n it

/-- `advance(it, n, end)` on indices into `buffer`. -/
def advance (buffer : Bytes) (it : Nat) (n : Int) (end_ : Nat) : Except Fault Nat :=
  if n < 0 then advanceBackward buffer end_ n.natAbs it
  else advanceForward buffer end_ n.toNat it

-- With the end of the text as `end` a backward move is not stopped at its beginning.
example : advance (lit "ab") 1 (-1) 2 = .ok 0 ∧
    advance (lit "ab") 1 (-2) 2 = .error .undefined := by
  decide

/-- The body of the loop of `distance`. -/
def distanceBody (s : Bytes × Nat) : Run Exception (ForInStep (Bytes × Nat)) := do
  let (first, dist) := s
  if first.isEmpty then return .done s
  let (_, first) ← Run.ofExcept (next first)
  return .yield (first, dist + 1)

/-- `distance(first, last)` -/
def distance (first : Bytes) : Run Exception Nat := do
  let (_, dist) ← Run.loop distanceBody (first.length + 1) (first, 0)
  return dist

/-! ## UTF-16 and UTF-32 -/

/-- The words of a UTF-16 text. -/
abbrev Words := List UInt16

def leadOffset : UInt32 := 0xd7c0
def trailSurrogateMin : UInt32 := 0xdc00
def surrogateOffset : UInt32 := 0xfca02400

def isLeadSurrogate (cp : UInt32) : Bool := cp ≥ 0xd800 && cp ≤ 0xdbff

def isTrailSurrogate (cp : UInt32) : Bool := cp ≥ 0xdc00 && cp ≤ 0xdfff

def isInBmp (cp : UInt32) : Bool := cp < 0x10000

/-- What `utf16to8` throws: an exception of its own, or one of `append`. -/
inductive Utf16Exception where
  /-- `utf8::invalid_utf16`, with the offending word -/
  | invalidUtf16 (u16 : UInt16)
  | ofAppend (e : Exception)
  deriving DecidableEq, Repr

/-- The first part of an iteration of `utf16to8`: the code point and the iterator after it. -/
def readUtf16 (start : Words) : Except Utf16Exception (UInt32 × Words) :=
  match start with
  -- not reached: the loop has compared `start` with `end`
  | [] => .error (.ofAppend .notEnoughRoom)
  | word :: start =>
    let cp := word.toUInt32
    -- Take care of surrogate pairs first
    if isLeadSurrogate cp then
      match start with
      | [] => .error (.invalidUtf16 cp.toUInt16)
      | word :: start =>
        let trailSurrogate := word.toUInt32
        if isTrailSurrogate trailSurrogate then
          .ok ((cp <<< 10) + trailSurrogate + surrogateOffset, start)
        else .error (.invalidUtf16 trailSurrogate.toUInt16)
    -- Lone trail surrogate
    else if isTrailSurrogate cp then .error (.invalidUtf16 cp.toUInt16)
    else .ok (cp, start)

/-- The body of the loop of `utf16to8`. -/
def utf16to8Body (s : Words × Bytes) : Run Utf16Exception (ForInStep (Words × Bytes)) := do
  let (start, result) := s
  if start.isEmpty then return .done s
  let (cp, start) ← Run.ofExcept (readUtf16 start)
  let octets ← Run.ofExcept ((append cp).mapError .ofAppend)
  return .yield (start, result ++ octets)

/-- `utf16to8(start, end, result)`: what is written. -/
def utf16to8 (start : Words) : Run Utf16Exception Bytes := do
  let (_, result) ← Run.loop utf16to8Body (start.length + 1) (start, [])
  return result

/-- The body of the loop of `utf8to16`. -/
def utf8to16Body (s : Bytes × Words) : Run Exception (ForInStep (Bytes × Words)) := do
  let (start, result) := s
  if start.isEmpty then return .done s
  let (cp, start) ← Run.ofExcept (next start)
  if cp > 0xffff then
    -- make a surrogate pair
    return .yield (start, result ++ [((cp >>> 10) + leadOffset).toUInt16,
      ((cp &&& 0x3ff) + trailSurrogateMin).toUInt16])
  else return .yield (start, result ++ [cp.toUInt16])

/-- `utf8to16(start, end, result)`: what is written. -/
def utf8to16 (start : Bytes) : Run Exception Words := do
  let (_, result) ← Run.loop utf8to16Body (start.length + 1) (start, [])
  return result

/-- The body of the loop of `utf32to8`. -/
def utf32to8Body (s : List UInt32 × Bytes) : Run Exception (ForInStep (List UInt32 × Bytes)) :=
  match s with
  | ([], _) => return .done s
  | (cp :: start, result) => do
    let octets ← Run.ofExcept (append cp)
    return .yield (start, result ++ octets)

/-- `utf32to8(start, end, result)`: what is written. -/
def utf32to8 (start : List UInt32) : Run Exception Bytes := do
  let (_, result) ← Run.loop utf32to8Body (start.length + 1) (start, [])
  return result

/-- The body of the loop of `utf8to32`. -/
def utf8to32Body (s : Bytes × List UInt32) : Run Exception (ForInStep (Bytes × List UInt32)) := do
  let (start, result) := s
  if start.isEmpty then return .done s
  let (cp, start) ← Run.ofExcept (next start)
  return .yield (start, result ++ [cp])

/-- `utf8to32(start, end, result)`: what is written. -/
def utf8to32 (start : Bytes) : Run Exception (List UInt32) := do
  let (_, result) ← Run.loop utf8to32Body (start.length + 1) (start, [])
  return result

/-! ## Single code points of UTF-16 -/

/-- `append16(cp, result)`: the words that are appended. -/
def append16 (cp : UInt32) : Except Exception Words :=
  if !isCodePointValid cp then .error (.invalidCodePoint cp)
  else if isInBmp cp then .ok [cp.toUInt16]
  else .ok [(leadOffset + (cp >>> 10)).toUInt16, (trailSurrogateMin + (cp &&& 0x3ff)).toUInt16]

/-- `validate_next16(it, end, code_point)`. On an error the iterator is put back. -/
def validateNext16 (it : Words) : Except UtfError (UInt32 × Words) :=
  match it with
  | [] => .error .notEnoughRoom
  | firstWord :: it =>
    let first := firstWord.toUInt32
    if !isSurrogate first then .ok (first, it)
    else
      match it with
      | [] => .error .notEnoughRoom
      | secondWord :: it =>
        if isLeadSurrogate first then
          if isTrailSurrogate secondWord.toUInt32 then
            .ok ((first <<< 10) + secondWord.toUInt32 + surrogateOffset, it)
          else .error .incompleteSequence
        else .error .invalidLead

/-- `next16(it, end)`: of the errors only one is thrown. After another one the code point is
    still 0, and the iterator where it was. -/
def next16 (it : Words) : Except Exception (UInt32 × Words) :=
  match validateNext16 it with
  | .ok r => .ok r
  | .error .notEnoughRoom => .error .notEnoughRoom
  | .error _ => .ok (0, it)

/-! ## The iterator class -/

/-- `utf8::iterator`: three positions in one buffer of octets. -/
structure Iterator where
  it : Nat
  rangeStart : Nat
  rangeEnd : Nat
  deriving DecidableEq, Repr

namespace Iterator

/-- The constructor. -/
def make (octetIt rangeStart rangeEnd : Nat) : Except Exception Iterator :=
  if octetIt < rangeStart || octetIt > rangeEnd then
    .error (.outOfRange (lit "Invalid utf-8 iterator position"))
  else .ok { it := octetIt, rangeStart, rangeEnd }

/-- The octets from the iterator to the end of its range. -/
def ahead (buffer : Bytes) (i : Iterator) : Bytes := (buffer.take i.rangeEnd).drop i.it

/-- `operator *` -/
def deref (buffer : Bytes) (i : Iterator) : Except Exception UInt32 := do
  let (cp, _) ← next (i.ahead buffer)
  return cp

/-- `operator ==`; comparing iterators of different ranges is a logic error. -/
def equals (i j : Iterator) : Except Exception Bool :=
  if i.rangeStart != j.rangeStart || i.rangeEnd != j.rangeEnd then
    .error (.other (lit "Comparing utf-8 iterators defined with different ranges"))
  else .ok (i.it == j.it)

/-- `operator ++` -/
def increment (buffer : Bytes) (i : Iterator) : Except Exception Iterator := do
  let (_, rest) ← next (i.ahead buffer)
  return { i with it := i.it + ((i.ahead buffer).length - rest.length) }

/-- `operator --` -/
def decrement (buffer : Bytes) (i : Iterator) : Except Exception Iterator := do
  let (_, it) ← prior (buffer.drop i.rangeStart) (i.it - i.rangeStart)
  return { i with it := i.rangeStart + it }

end Iterator

end CcJson.Utf8Cpp
