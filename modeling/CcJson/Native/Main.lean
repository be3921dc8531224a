import CcJson.Native.Parser

/-!
# The program

`main.cpp`: the command line, the run of the parser on one file and the mapping
of the verdict and of exceptions to exit codes.
-/

namespace CcJson

/-- A parser over a newly constructed tokenizer of `file`. -/
def Parser.ofFile (file : Utf8File) : Parser Scanner :=
  Parser.new (Tokenizer.new (Scanner.new file))

/-- `handle_usage`; `args[0]` is the name of the program. On an empty command line it is a null
    pointer, of which no string can be made: the behaviour is undefined, and there is no result. -/
def handleUsage (args : List Bytes) : Run Exception Unit :=
  match args with
  | [] => .outOfFuel
  | prog :: _ => Run.ofExcept do
    if args.length < 2 then
      throw (.usage (lit "Usage: " ++ prog ++ lit " <json_file>"))
    if args.length > 2 then
      throw (.usage (lit "Error: Only one JSON file can be provided"))

/-- The body of the `try` block of `main`. -/
def tryBlock (fs : FileSystem) (args : List Bytes) (fuel : Nat) : Run Exception ExitCode := do
  handleUsage args
  let file ← Run.ofExcept (openUtf8File fs (args.getD 1 []))
  let jsonParser ← (Parser.ofFile file).parse fuel
  if !jsonParser.ok then return .invalidJson
  return .validJson

/-- The exit code chosen by the `catch` clauses of `main`. -/
def catchClause : Exception → ExitCode
  | .usage _ => .usageError
  | .fileOperation _ => .fileOperationError
  | _ => .unknownError

/-- `main`: the number of the exit code. -/
def main (fs : FileSystem) (args : List Bytes) (fuel : Nat) : Run Exception Nat :=
  match tryBlock fs args fuel with
  | .returns code => .returns code.toUnderlying
  | .throws e => .returns (catchClause e).toUnderlying
  | .outOfFuel => .outOfFuel

/-- The message that a `catch` clause of `main` writes to `std::cerr`. -/
def catchOutput (e : Exception) : Bytes := e.what ++ lit "\n"

/-- What `main` itself writes to `std::cerr`; the tokenizer writes there too. -/
def mainOutput (fs : FileSystem) (args : List Bytes) (fuel : Nat) : Run Exception Bytes :=
  match tryBlock fs args fuel with
  | .returns _ => .returns []
  | .throws e => .returns (catchOutput e)
  | .outOfFuel => .outOfFuel

end CcJson
