import DefUse.Environment
import DefUse.Lint

/-!
# The program

A run of the program takes its arguments and what it can see of the world, and ends with an exit
status and the texts that it writes.  It ends with 0 whatever the checks find, with 1 if an input
cannot be read, and with 2 if the arguments are wrong.
-/

namespace DefUse.Program

open CommandLine (Stop UsageError)

/-- What a run can see. -/
structure World where
  /-- What stands at a path. -/
  lookup : String → Except AccessFault Node
  stdin : Content
  environment : Environment
  /-- Whether the report goes to a terminal. -/
  terminal : Bool

/-- How a run ends. -/
structure Outcome where
  status : Nat
  stdout : String
  stderr : String
deriving DecidableEq

def version : String := "mettalint 0.1.0\n"

def help : String :=
  "Reports undefined and unused variables in MeTTa source files\n\n" ++
  "Usage: mettalint [OPTIONS] <FILE>...\n\n" ++
  "  <FILE>...                source files or directories; - is standard input\n" ++
  "  --format <json|text>     format of the report [default: json]\n" ++
  "  --color <auto|always|never>  when to color a text report [default: auto]\n" ++
  "  --no-unused              leave out unused variables\n" ++
  "  --attribute-unused       report unused variables on the line that first binds them\n" ++
  "  --strict                 report an expression left open at the end\n" ++
  "  --ext <EXT,...>          extensions to take from directories [default: metta]\n" ++
  "  -h, --help               print this help\n" ++
  "  -V, --version            print the version\n"

/-- The wording of a fault in the arguments. -/
def usageMessage : UsageError → String
  | .unknownOption => "unexpected argument"
  | .unexpectedValue => "unexpected value for an option"
  | .invalidValue => "a value is missing or not allowed"
  | .repeatedOption => "an option is given more than once"
  | .missingFile => "no file is given"

/-- The end of a run that does not get to its inputs. -/
def stopped : Stop → Outcome
  | .help => ⟨0, help, ""⟩
  | .version => ⟨0, version, ""⟩
  | .usage e => ⟨2, "", "error: " ++ usageMessage e ++ "\n"⟩

/-- The end of a run with an unreadable input. -/
def failed (e : ReadError) : Outcome :=
  ⟨1, "", "Error: " ++ e.message ++ "\n\nCaused by:\n    " ++ e.fault.message ++ "\n"⟩

/-- A run of the program. -/
def run (world : World) (argv : List String) : Outcome :=
  match CommandLine.parse argv with
  | .error stop => stopped stop
  | .ok config =>
    match lint world.lookup world.stdin config with
    | .error e => failed e
    | .ok r =>
      let colors := world.environment.takesColors world.terminal
      ⟨0, r.output config world.terminal colors ++ "\n", ""⟩

end DefUse.Program
