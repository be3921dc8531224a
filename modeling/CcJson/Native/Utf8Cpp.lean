import CcJson.Native.Basic

/-!
# The vendored UTF-8 library

The functions of `include/utf8/core.h` and `include/utf8/checked.h` that the
readers call: `utf8::next`, `utf8::peek_next`, `utf8::prior` and `utf8::append`,
with the helpers of `utf8::internal` under them.

A forward iterator pair `it`, `end` is the list of the octets of `[it, end)`:
`*it` is its head, `++it` its tail and `it == end` means that it is empty. Only
`prior` moves backwards; there an iterator is an index into the whole buffer.
-/

namespace CcJson.Utf8Cpp

/-- `enum utf_error`, without `UTF8_OK`, which is `Except.ok` here. -/
inductive UtfError where
  | notEnoughRoom
  | invalidLead
  | incompleteSequence
  | overlongSequence
  | invalidCodePoint
  deriving DecidableEq, Repr

/-- `*it` as an unsigned octet, widened to a code point. -/
def octet (it : Bytes) : UInt32 := (it.headD 0).toUInt32

def isTrail (oc : UInt8) : Bool := oc >>> 6 == 0x2

def isSurrogate (cp : UInt32) : Bool := cp ≥ 0xd800 && cp ≤ 0xdfff

def isCodePointValid (cp : UInt32) : Bool := cp ≤ 0x10ffff && !isSurrogate cp

def sequenceLength (lead : UInt8) : Nat :=
  if lead < 0x80 then 1
  else if lead >>> 5 == 0x6 then 2
  else if lead >>> 4 == 0xe then 3
  else if lead >>> 3 == 0x1e then 4
  else 0

def isOverlongSequence (cp : UInt32) (length : Nat) : Bool :=
  if cp < 0x80 then length != 1
  else if cp < 0x800 then length != 2
  else if cp < 0x10000 then length != 3
  else false

/-- `increase_safely(it, end)`: the iterator after `++it`. -/
def increaseSafely (it : Bytes) : Except UtfError Bytes :=
  match it.tail with
  -- `++it == end`
  | [] => .error .notEnoughRoom
  | oc :: rest => if !isTrail oc then .error .incompleteSequence else .ok (oc :: rest)

def getSequence1 (it : Bytes) : Except UtfError (UInt32 × Bytes) := do
  if it.isEmpty then throw .notEnoughRoom
  return (octet it, it)

def getSequence2 (it : Bytes) : Except UtfError (UInt32 × Bytes) := do
  if it.isEmpty then throw .notEnoughRoom
  let lead := (octet it <<< 6) &&& 0x7ff
  let it ← increaseSafely it
  return (lead + (octet it &&& 0x3f), it)

def getSequence3 (it : Bytes) : Except UtfError (UInt32 × Bytes) := do
  if it.isEmpty then throw .notEnoughRoom
  let lead := (octet it <<< 12) &&& 0xffff
  let it ← increaseSafely it
  let trail := (octet it <<< 6) &&& 0xfff
  let it ← increaseSafely it
  return (lead + trail + (octet it &&& 0x3f), it)

def getSequence4 (it : Bytes) : Except UtfError (UInt32 × Bytes) := do
  if it.isEmpty then throw .notEnoughRoom
  let lead := (octet it <<< 18) &&& 0x1fffff
  let it ← increaseSafely it
  let trail := (octet it <<< 12) &&& 0x3ffff
  let it ← increaseSafely it
  let trail' := (octet it <<< 6) &&& 0xfff
  let it ← increaseSafely it
  return (lead + trail + trail' + (octet it &&& 0x3f), it)

/-- The `switch (length)` of `validate_next`. -/
def getSequence (length : Nat) (it : Bytes) : Except UtfError (UInt32 × Bytes) :=
  match length with
  | 1 => getSequence1 it
  | 2 => getSequence2 it
  | 3 => getSequence3 it
  | 4 => getSequence4 it
  | _ => .error .invalidLead

/-- `validate_next(it, end, code_point)`: the code point and the iterator after
    it. On an error the iterator is put back to its original value. -/
def validateNext (it : Bytes) : Except UtfError (UInt32 × Bytes) := do
  if it.isEmpty then throw .notEnoughRoom
  let length := sequenceLength (it.headD 0)
  let (cp, it) ← getSequence length it
  -- Decoding succeeded. Now, security checks...
  if isCodePointValid cp then
    if !isOverlongSequence cp length then
      return (cp, it.tail)
    else throw .overlongSequence
  else throw .invalidCodePoint

/-- `utf8::next(it, end)`. The code point of `invalid_code_point` is always 0:
    `validate_next` does not store a code point it rejects. -/
def next (it : Bytes) : Except Exception (UInt32 × Bytes) :=
  match validateNext it with
  | .ok r => .ok r
  | .error .notEnoughRoom => .error .notEnoughRoom
  | .error .invalidLead
  | .error .incompleteSequence
  | .error .overlongSequence => .error (.invalidUtf8 (it.headD 0))
  | .error .invalidCodePoint => .error (.invalidCodePoint 0)

/-- `utf8::peek_next(it, end)`. -/
def peekNext (it : Bytes) : Except Exception UInt32 := do
  let (cp, _) ← next it
  return cp

/-- The loop of `utf8::prior`, from the decremented iterator: go back until
    either a lead octet or the start of the buffer is hit. -/
def priorLead (buffer : Bytes) : Nat → Except Exception Nat
  | 0 =>
    if isTrail (buffer.getD 0 0) then .error (.invalidUtf8 (buffer.getD 0 0)) else .ok 0
  | it + 1 =>
    if isTrail (buffer.getD (it + 1) 0) then priorLead buffer it else .ok (it + 1)

/-- `utf8::prior(it, start)` with `start` the beginning of `buffer`: the code
    point before `it` and the index it starts at. -/
def prior (buffer : Bytes) (it : Nat) : Except Exception (UInt32 × Nat) := do
  if it = 0 then throw .notEnoughRoom
  let lead ← priorLead buffer (it - 1)
  let cp ← peekNext ((buffer.take it).drop lead)
  return (cp, lead)

/-- `utf8::append(cp, result)`: the octets that are appended. -/
def append (cp : UInt32) : Except Exception Bytes :=
  if !isCodePointValid cp then .error (.invalidCodePoint cp)
  else if cp < 0x80 then
    .ok [cp.toUInt8]
  else if cp < 0x800 then
    .ok [((cp >>> 6) ||| 0xc0).toUInt8, ((cp &&& 0x3f) ||| 0x80).toUInt8]
  else if cp < 0x10000 then
    .ok [((cp >>> 12) ||| 0xe0).toUInt8, (((cp >>> 6) &&& 0x3f) ||| 0x80).toUInt8,
      ((cp &&& 0x3f) ||| 0x80).toUInt8]
  else
    .ok [((cp >>> 18) ||| 0xf0).toUInt8, (((cp >>> 12) &&& 0x3f) ||| 0x80).toUInt8,
      (((cp >>> 6) &&& 0x3f) ||| 0x80).toUInt8, ((cp &&& 0x3f) ||| 0x80).toUInt8]

end CcJson.Utf8Cpp
