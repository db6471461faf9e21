import DefUse.Diagnostic.Template

/-!
# Diagnostics

A diagnostic is one record of a report: a line, a message, its code and severity, and the file
when the report covers several.  The messages come from a table of three rules; a `Finding` is what
the checker has found, and says which rule and which arguments make its message.
-/

namespace DefUse

inductive Severity where
  | warning
  | error
deriving DecidableEq

def Severity.label : Severity → String
  | warning => "warning"
  | error => "error"

/-- One record of a report. -/
structure Diagnostic where
  /-- Zero for no particular line. -/
  line : Nat
  message : String
  code : Nat
  severity : Severity
  /-- Empty when the report covers one file only. -/
  file : String
deriving DecidableEq

/-- A code with its severity and the template of its message. -/
structure MessageRule where
  code : Nat
  severity : Severity
  template : String
deriving DecidableEq

namespace MessageRule

def undefinedUse : MessageRule :=
  ⟨1001, .error, "Variable '\x7b0\x7d' used without definition"⟩

def unusedDefinition : MessageRule :=
  ⟨1002, .warning, "Variable '\x7b0\x7d' defined but never used"⟩

def neverClosed : MessageRule :=
  ⟨1003, .error, "Expression starting here is never closed (unclosed depth \x7b0\x7d)"⟩

/-- All rules. -/
def table : List MessageRule := [undefinedUse, unusedDefinition, neverClosed]

/-- The rule with the given code. -/
def ofCode? (code : Nat) : Option MessageRule :=
  table.find? (·.code == code)

/-- The diagnostic that a rule makes of a line and the arguments of its message. -/
def diagnostic (rule : MessageRule) (line : Nat) (args : List String) : Diagnostic :=
  ⟨line, Template.fill rule.template args, rule.code, rule.severity, ""⟩

end MessageRule

namespace Diagnostic

def withFile (d : Diagnostic) (file : String) : Diagnostic := { d with file := file }

def isError (d : Diagnostic) : Bool := d.severity = .error

end Diagnostic

/-- What the checker reports. -/
inductive Finding where
  /-- A use of a name that has no definition so far. -/
  | undefinedUse (name : String)
  /-- A name that is defined and never used. -/
  | unusedDefinition (name : String)
  /-- An expression that is still open at the end, at the given depth. -/
  | neverClosed (depth : Int)
deriving DecidableEq

namespace Finding

def rule : Finding → MessageRule
  | undefinedUse _ => .undefinedUse
  | unusedDefinition _ => .unusedDefinition
  | neverClosed _ => .neverClosed

/-- The arguments of the message. -/
def arguments : Finding → List String
  | undefinedUse name => [name]
  | unusedDefinition name => [name]
  | neverClosed depth => [Text.Decimal.ofInt depth]

/-- The diagnostic that reports the finding on a line. -/
def diagnostic (f : Finding) (line : Nat) : Diagnostic :=
  f.rule.diagnostic line f.arguments

end Finding

end DefUse
