import DefUse.Text.Letter

/-!
# The environment of a run

Variables of the environment switch colours and logging.
-/

namespace DefUse

/-- The variables that are set, with their values. -/
structure Environment where
  settings : List (String × String)
deriving DecidableEq

namespace Environment

def get? (env : Environment) (name : String) : Option String :=
  env.settings.lookup name

/-- Whether colours are taken on a stream that is a terminal or not.  `CLICOLOR_FORCE` turns them on
unless it is `0`; else `NO_COLOR` turns them off, with any value; else a terminal takes them unless
`CLICOLOR` is `0`. -/
def takesColors (env : Environment) (terminal : Bool) : Bool :=
  if (env.get? "CLICOLOR_FORCE").any (· ≠ "0") then true
  else if (env.get? "NO_COLOR").isSome then false
  else terminal && (env.get? "CLICOLOR").all (· ≠ "0")

/-- The variables that a run looks at. -/
def watched : List String :=
  ["CLICOLOR", "CLICOLOR_FORCE", "NO_COLOR", "METTALINT_LOG", "METTALINT_LOG_FORMAT", "RUST_LOG"]

end Environment

/-! ## Logging -/

/-- How log lines are written. -/
inductive LogFormat where
  | text
  | tree
  | json
deriving DecidableEq

/-- The format with the given name, in any case; text for every other name. -/
def LogFormat.ofName (name : String) : LogFormat :=
  if Text.equalIgnoringCase name "tree" then tree
  else if Text.equalIgnoringCase name "json" then json
  else text

/-- The filter that logging is asked for with, if it is asked for.  A filter for this program comes
before the general one. -/
def requestedFilter (own general : Option String) : Option String :=
  own.or general

/-- The filter that the environment asks for. -/
def Environment.logFilter (env : Environment) : Option String :=
  requestedFilter (env.get? "METTALINT_LOG") (env.get? "RUST_LOG")

/-- The log format that the environment asks for. -/
def Environment.logFormat (env : Environment) : LogFormat :=
  LogFormat.ofName ((env.get? "METTALINT_LOG_FORMAT").getD "")

end DefUse
