import DefUse.CommandLine.Arguments
import DefUse.FileTree
import DefUse.Report
import DefUse.Report.Json
import DefUse.Report.Listing

/-!
# Linting files

The arguments of a run become inputs: `-` is standard input, a directory stands for the files below
it that have one of the wanted extensions, and everything else is a file, whether it exists or not.
All inputs are read before any is checked, so a run with an unreadable input reports nothing but
the first such input.

The files are seen through a function `lookup` from paths to what stands there, each with the outcome
of reading it; a run reads a file only if it is an input.  Walking a directory does not fail.
-/

namespace DefUse

open CommandLine (Config)

/-! ## Inputs -/

/-- One input of a run. -/
inductive Input where
  | stdin
  /-- A file, with the outcome of reading it. -/
  | file (path : String) (content : Content)

/-- The name under which an input is reported. -/
def Input.name : Input → String
  | stdin => "<stdin>"
  | file path _ => path

/-- The inputs of a run. -/
structure InputSet where
  inputs : List Input
  /-- Whether the records of the run name their files. -/
  nameFiles : Bool

namespace InputSet

/-- Whether the extension of a file name is one of those wanted. -/
def hasExtension (extensions : List String) (name : String) : Bool :=
  match Path.extension? name with
  | none => false
  | some ext => extensions.any (Text.equalIgnoringCase · ext)

/-- The inputs that a directory at `path` stands for. -/
def ofDirectory (extensions : List String) (path : String) (node : Node) : List Input :=
  (node.walk.filter fun f => f.1.getLast?.any (hasExtension extensions)).map fun (below, content) =>
    .file (Path.extend path below) content

/-- The inputs that one argument stands for. -/
def ofArgument (lookup : String → Except AccessFault Node) (extensions : List String)
    (path : String) : List Input :=
  if path = "-" then [.stdin]
  else
    match lookup path with
    | .ok (.directory es) => ofDirectory extensions path (.directory es)
    | .ok (.file content) => [.file path content]
    | .error fault => [.file path (.error fault)]

/-- Whether an argument is a directory. -/
def isDirectory (lookup : String → Except AccessFault Node) (path : String) : Bool :=
  path ≠ "-" &&
    match lookup path with
    | .ok (.directory _) => true
    | _ => false

/-- The inputs that the arguments stand for, in their order.  Records name their files when there is
more than one input, or when an argument is a directory. -/
def collect (lookup : String → Except AccessFault Node) (extensions paths : List String) :
    InputSet :=
  let inputs := paths.flatMap (ofArgument lookup extensions)
  ⟨inputs, paths.any (isDirectory lookup) || 1 < inputs.length⟩

end InputSet

/-! ## Reading -/

/-- Why an input cannot be read. -/
inductive ReadFault where
  /-- There are no bytes. -/
  | access (fault : AccessFault)
  /-- The bytes are no text. -/
  | invalidText
deriving DecidableEq

def ReadFault.message : ReadFault → String
  | access .notFound => "No such file or directory (os error 2)"
  | access .notDirectory => "Not a directory (os error 20)"
  | access (.system message) => message
  | invalidText => "stream did not contain valid UTF-8"

/-- An input that cannot be read. -/
structure ReadError where
  /-- The path of a file, or none for standard input. -/
  path : Option String
  fault : ReadFault
deriving DecidableEq

def ReadError.message (e : ReadError) : String :=
  match e.path with
  | none => "failed to read standard input"
  | some path => "failed to read " ++ path

/-- The text that bytes encode. -/
def decodeText (bytes : ByteArray) : Except ReadFault String :=
  match String.fromUTF8? bytes with
  | some text => .ok text
  | none => .error .invalidText

/-- The text of a file or a stream. -/
def readText : Content → Except ReadFault String
  | .ok bytes => decodeText bytes
  | .error fault => .error (.access fault)

/-- Reads the inputs in order.  The first `-` takes all of standard input and leaves nothing for
another. -/
def readInputs (stdin : Content) : List Input → List (Except ReadError String)
  | [] => []
  | .stdin :: rest =>
    (readText stdin).mapError (⟨none, ·⟩) :: readInputs (.ok ByteArray.empty) rest
  | .file path content :: rest =>
    (readText content).mapError (⟨some path, ·⟩) :: readInputs stdin rest

/-- All the results, or the first error. -/
def allOk {ε α : Type} : List (Except ε α) → Except ε (List α)
  | [] => .ok []
  | x :: xs => x.bind fun a => (allOk xs).map (a :: ·)

/-! ## Runs -/

/-- Reads and checks the inputs of a configuration. -/
def lint (lookup : String → Except AccessFault Node) (stdin : Content) (config : Config) :
    Except ReadError LintRun :=
  let set := InputSet.collect lookup config.extensions config.files
  (allOk (readInputs stdin set.inputs)).map fun texts =>
    ⟨checkSources ((set.inputs.map Input.name).zip texts) config.checkOptions, set.nameFiles⟩

/-- The report of a run.  `terminal` says whether it goes to a terminal, `colors` whether colours
are taken there. -/
def LintRun.output (run : LintRun) (config : Config) (terminal colors : Bool) : String :=
  match config.format with
  | .json => Report.Json.render run.diagnostics
  | .text =>
    Report.Listing.render (Report.Palette.choose (config.color.enabled terminal) colors) run.reports

end DefUse
