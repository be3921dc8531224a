import CcJson.ForStd.Run
import CcJson.ForStd.Utf8
import Mathlib.Algebra.Group.Nat.Defs

/-!
# Byte strings, exceptions and exit codes

Shared vocabulary of the sources: `std::string` / `std::string_view` as byte
lists, the exceptions that can leave a function, and the enumerations of
`constants.hpp`.
-/

namespace CcJson

/-- The contents of a `std::string`, a `std::string_view` or a byte buffer. -/
abbrev Bytes := List UInt8

/-- The bytes of a string literal of the sources. -/
def lit (s : String) : Bytes := Utf8.encode s.toList

/-- The exceptions of the program. The first three are the exception classes of
    `utf8/checked.h` that the decoder can throw. -/
inductive Exception where
  /-- `utf8::not_enough_room` -/
  | notEnoughRoom
  /-- `utf8::invalid_utf8`, with the offending octet -/
  | invalidUtf8 (u8 : UInt8)
  /-- `utf8::invalid_code_point`, with the offending value -/
  | invalidCodePoint (cp : UInt32)
  /-- `std::out_of_range` -/
  | outOfRange (message : Bytes)
  /-- `exceptions::file_operation_exception` -/
  | fileOperation (message : Bytes)
  /-- `exceptions::usage_exception` -/
  | usage (message : Bytes)
  /-- Any other `std::exception`, thrown outside the repository's code. -/
  | other (message : Bytes)
  deriving DecidableEq, Repr

/-- `what()` of each exception class. -/
def Exception.what : Exception → Bytes
  | .notEnoughRoom => lit "Not enough space"
  | .invalidUtf8 _ => lit "Invalid UTF-8"
  | .invalidCodePoint _ => lit "Invalid code point"
  | .outOfRange message => message
  | .fileOperation message => message
  | .usage message => message
  | .other message => message

/-- `a - b` on `std::size_t`: wraps around below zero. -/
def sizeSub (a b : Nat) : Nat := if b ≤ a then a - b else 2 ^ 64 + a - b

theorem sizeSub_eq {a b : Nat} (h : b ≤ a) : sizeSub a b = a - b := if_pos h

/-- `std::string_view::substr`. -/
def substr (view : Bytes) (pos n : Nat) : Except Exception Bytes :=
  if pos > view.length then .error (.outOfRange (lit "string_view::substr"))
  else .ok ((view.drop pos).take n)

/-- `std::string_view::at`. -/
def at_ (view : Bytes) (pos : Nat) : Except Exception UInt8 :=
  match view[pos]? with
  | some b => .ok b
  | none => .error (.outOfRange (lit "string_view::at"))

/-- `std::string_view::starts_with`. -/
def startsWith (view pfx : Bytes) : Bool := pfx.isPrefixOf view

/-- `constants::exit_codes`. -/
inductive ExitCode where
  | validJson
  | invalidJson
  | usageError
  | unknownError
  | fileOperationError
  deriving DecidableEq, Repr

/-- `std::to_underlying` of an exit code. -/
def ExitCode.toUnderlying : ExitCode → Nat
  | .validJson => 0
  | .invalidJson => 1
  | .usageError => 2
  | .unknownError => 3
  | .fileOperationError => 4

/-- `constants::file_load_type`. -/
inductive FileLoadType where
  | fullMemory
  | memoryMapped
  deriving DecidableEq, Repr

end CcJson
