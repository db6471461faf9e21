import DefUse.Checker
import DefUse.CommandLine.Choice
import DefUse.Text.Split

/-!
# Arguments

The arguments are files, mixed with options in any order, and `--` makes files of all that follow
it.  `--format`, `--color` and `--ext` take a value, as `--ext=a,b` or as the next argument; all
options but `--ext` may be given once.  A single `-` is never an option.

Arguments are read from left to right and the first fault ends the reading, with one refinement: a
value given as an argument of its own, and a file, are judged only when the next argument shows
that they are complete.  An option that is unknown, or a flag with a value, is a fault of its own
and comes before that judgement.
-/

namespace DefUse.CommandLine

/-- What is asked of a run. -/
structure Config where
  /-- Files and directories, in the order given. -/
  files : List String
  format : OutputFormat
  color : ColorChoice
  noUnused : Bool
  attributeUnused : Bool
  strict : Bool
  /-- The extensions of the files to be taken from directories. -/
  extensions : List String
deriving DecidableEq

/-- The checks that a configuration asks for. -/
def Config.checkOptions (c : Config) : CheckOptions where
  reportUnused := !c.noUnused
  unusedLine := if c.attributeUnused then .firstBinding else .unattributed
  reportUnterminated := c.strict

/-- What can be wrong with the arguments. -/
inductive UsageError where
  /-- An option that does not exist. -/
  | unknownOption
  /-- A value for an option that takes none. -/
  | unexpectedValue
  /-- A value that is missing or not allowed, or an empty file name. -/
  | invalidValue
  /-- An option given twice. -/
  | repeatedOption
  /-- No file at all. -/
  | missingFile
deriving DecidableEq

/-- Why the arguments give no configuration. -/
inductive Stop where
  | help
  | version
  | usage (e : UsageError)
deriving DecidableEq

/-! ## Options -/

inductive Flag where
  | noUnused
  | attributeUnused
  | strict
deriving DecidableEq

inductive Setting where
  | format
  | color
  | ext
deriving DecidableEq

inductive Switch where
  | flag (f : Flag)
  | setting (s : Setting)
  | help
  | version
deriving DecidableEq

/-- The option with a long name. -/
def Switch.ofName? (name : String) : Option Switch :=
  if name = "no-unused" then some (flag .noUnused)
  else if name = "attribute-unused" then some (flag .attributeUnused)
  else if name = "strict" then some (flag .strict)
  else if name = "format" then some (setting .format)
  else if name = "color" then some (setting .color)
  else if name = "ext" then some (setting .ext)
  else if name = "help" then some help
  else if name = "version" then some version
  else none

/-- The option with a one-letter name. -/
def Switch.ofLetter? (letter : Char) : Option Switch :=
  if letter = 'h' then some help else if letter = 'V' then some version else none

/-- The kind of an argument. -/
inductive Token where
  /-- The separator `--`. -/
  | separator
  /-- An option `--name` or `--name=value`. -/
  | long (name : String) (value : Option String)
  /-- One-letter options, of which the first decides. -/
  | short (letter : Char)
  /-- A file or a value. -/
  | word
deriving DecidableEq

def Token.ofArgument (arg : String) : Token :=
  match arg.toList with
  | ['-', '-'] => separator
  | '-' :: '-' :: cs =>
    long (String.ofList (cs.takeWhile (· != '=')))
      (match cs.dropWhile (· != '=') with
        | [] => none
        | _ :: value => some (String.ofList value))
  | '-' :: letter :: _ => short letter
  | _ => word

/-! ## Reading -/

/-- The fault of an argument that is not judged yet. -/
inductive Held where
  /-- Of a value given as an argument of its own. -/
  | value (e : UsageError)
  /-- Of an empty file name. -/
  | emptyFile
deriving DecidableEq

/-- The arguments read so far. -/
structure Draft where
  files : List String
  format : Option OutputFormat
  color : Option ColorChoice
  noUnused : Bool
  attributeUnused : Bool
  strict : Bool
  /-- The extensions given; empty if there are none. -/
  extensions : List String
  /-- The option that waits for its value. -/
  awaiting : Option Setting
  held : Option Held
deriving DecidableEq

namespace Draft

def empty : Draft := ⟨[], none, none, false, false, false, [], none, none⟩

/-- Judges what has been read. -/
def settle (d : Draft) : Except UsageError Draft :=
  if d.awaiting.isSome then .error .invalidValue
  else match d.held with
    | some (.value e) => .error e
    | some .emptyFile => .error .invalidValue
    | none => .ok d

/-- Sets a flag. -/
def raise (d : Draft) (f : Flag) : Except UsageError Draft :=
  match f with
  | .noUnused => if d.noUnused then .error .repeatedOption else .ok { d with noUnused := true }
  | .attributeUnused =>
    if d.attributeUnused then .error .repeatedOption else .ok { d with attributeUnused := true }
  | .strict => if d.strict then .error .repeatedOption else .ok { d with strict := true }

/-- Gives an option its value. -/
def assign (d : Draft) (s : Setting) (value : String) : Except UsageError Draft :=
  match s with
  | .format =>
    if d.format.isSome then .error .repeatedOption
    else match OutputFormat.ofName? value with
      | some f => .ok { d with format := some f }
      | none => .error .invalidValue
  | .color =>
    if d.color.isSome then .error .repeatedOption
    else match ColorChoice.ofName? false value with
      | some c => .ok { d with color := some c }
      | none => .error .invalidValue
  | .ext => .ok { d with extensions := d.extensions ++ Text.splitText ',' value }

/-- Takes an argument as the value that is waited for, and holds its fault back. -/
def supply (d : Draft) (s : Setting) (value : String) : Draft :=
  match { d with awaiting := none }.assign s value with
  | .ok d' => d'
  | .error e => { d with awaiting := none, held := some (.value e) }

/-- Takes an argument as a file. -/
def addFile (d : Draft) (file : String) : Except UsageError Draft :=
  if d.awaiting.isSome then .error .invalidValue
  else match d.held with
    | some (.value e) => .error e
    | held =>
      .ok { d with
        files := d.files ++ [file]
        held := if file = "" then some .emptyFile else held }

/-- Takes all arguments as files. -/
def addFiles (d : Draft) : List String → Except UsageError Draft
  | [] => .ok d
  | file :: rest => (d.addFile file).bind (·.addFiles rest)

/-- Takes an option, with its value if there is one behind `=`. -/
def option (d : Draft) (o : Switch) (value : Option String) : Except Stop Draft :=
  match o, value with
  | .setting s, some v => (d.settle.bind (·.assign s v)).mapError .usage
  | .setting s, none => (d.settle.map ({ · with awaiting := some s })).mapError .usage
  | _, some _ => .error (.usage .unexpectedValue)
  | .flag f, none => (d.settle.bind (·.raise f)).mapError .usage
  | .help, none => (d.settle.mapError .usage).bind fun _ => .error .help
  | .version, none => (d.settle.mapError .usage).bind fun _ => .error .version

/-- Takes an option that may not exist. -/
def option? (d : Draft) (o : Option Switch) (value : Option String) : Except Stop Draft :=
  match o with
  | some o => d.option o value
  | none => .error (.usage .unknownOption)

/-- Takes a file, or the value that is waited for. -/
def word (d : Draft) (arg : String) : Except Stop Draft :=
  match d.awaiting with
  | some s => .ok (d.supply s arg)
  | none => (d.addFile arg).mapError .usage

/-- Takes all arguments. -/
def takeAll (d : Draft) : List String → Except Stop Draft
  | [] => d.settle.mapError .usage
  | arg :: rest =>
    match Token.ofArgument arg with
    | .separator => ((d.addFiles rest).bind settle).mapError .usage
    | .long name value => (d.option? (Switch.ofName? name) value).bind (·.takeAll rest)
    | .short letter => (d.option? (Switch.ofLetter? letter) none).bind (·.takeAll rest)
    | .word => (d.word arg).bind (·.takeAll rest)

/-- The configuration, with what was not given set to its default. -/
def config (d : Draft) : Except UsageError Config :=
  if d.files = [] then .error .missingFile
  else .ok {
    files := d.files
    format := d.format.getD .json
    color := d.color.getD .auto
    noUnused := d.noUnused
    attributeUnused := d.attributeUnused
    strict := d.strict
    extensions := if d.extensions = [] then ["metta"] else d.extensions }

end Draft

/-- The configuration that the arguments ask for. -/
def parse (argv : List String) : Except Stop Config :=
  (Draft.empty.takeAll argv).bind fun d => d.config.mapError .usage

end DefUse.CommandLine
