import DefUse.Binding
import DefUse.Diagnostic
import DefUse.Reader
import DefUse.Scope

/-!
# Checking

The checker takes the expressions of a file one after another.  The bindings of an expression are
defined before its references are looked at, so a name bound anywhere in it is visible in all of
it, and stays visible for the expressions that follow.  Each reference without a definition is
reported; each reference is a use of its name, except where it introduces the name.

At the end the definitions without a use are reported, in the order of definition, and then the
expression that is still open, each if the options ask for it.
-/

namespace DefUse

/-- The line on which an unused definition is reported. -/
inductive UnusedLine where
  /-- No particular line. -/
  | unattributed
  /-- The start line of the expression that first binds the name. -/
  | firstBinding
deriving DecidableEq

/-- What a check reports. -/
structure CheckOptions where
  /-- Report definitions that are never used. -/
  reportUnused : Bool := true
  unusedLine : UnusedLine := .unattributed
  /-- Report an expression that is still open at the end. -/
  reportUnterminated : Bool := false
deriving DecidableEq

/-- What a check has counted. -/
structure CheckStats where
  /-- Complete expressions. -/
  expressions : Nat
  /-- References in them. -/
  references : Nat
  /-- Distinct names defined. -/
  definitions : Nat
  /-- Whether the source ends inside an expression. -/
  unterminated : Bool
deriving DecidableEq

/-- The outcome of a check. -/
structure CheckResult where
  /-- In the order in which they were found. -/
  diagnostics : List Diagnostic
  stats : CheckStats
deriving DecidableEq

/-- How many of the diagnostics are errors. -/
def CheckResult.errorCount (r : CheckResult) : Nat :=
  r.diagnostics.countP Diagnostic.isError

/-- A check in progress. -/
structure Checker (σ : Type) where
  options : CheckOptions
  scope : σ
  diagnostics : List Diagnostic
  /-- Expressions checked. -/
  expressions : Nat
  /-- References seen in them. -/
  references : Nat

namespace Checker

variable {σ : Type} [Scope σ]

/-- A check that starts from a given scope. -/
def start (options : CheckOptions) (scope : σ) : Checker σ :=
  ⟨options, scope, [], 0, 0⟩

/-- Looks at a reference in an expression that starts on `line`: reports it unless its name is
defined, and notes a use of the name unless the reference introduces it. -/
def checkReference (bindings : Bindings) (line : Nat) (c : Checker σ) (r : Reference) : Checker σ :=
  { c with
    scope :=
      if bindings.isIntroductionSite r.offset then c.scope else Scope.recordUse c.scope r.name
    diagnostics :=
      if Scope.isDefined c.scope r.name then c.diagnostics
      else c.diagnostics ++ [(Finding.undefinedUse r.name).diagnostic line]
    references := c.references + 1 }

/-- Checks one complete expression. -/
def checkExpression (c : Checker σ) (e : Expression) : Checker σ :=
  let bindings := Bindings.ofText e.text
  let scope := bindings.sites.foldl (fun s b => Scope.define s b.name e.startLine) c.scope
  (Reference.scan e.text).foldl (checkReference bindings e.startLine)
    { c with scope := scope, expressions := c.expressions + 1 }

/-- Checks expressions one after another. -/
def checkAll (c : Checker σ) (es : List Expression) : Checker σ :=
  es.foldl checkExpression c

/-- The line on which the options want an unused definition reported. -/
def lineOfUnused (options : CheckOptions) (d : Definition) : Nat :=
  match options.unusedLine with
  | .unattributed => 0
  | .firstBinding => d.line

/-- The reports on definitions without a use. -/
def unusedReports (c : Checker σ) : List Diagnostic :=
  if c.options.reportUnused then
    (Scope.unused c.scope).map fun d =>
      (Finding.unusedDefinition d.name).diagnostic (lineOfUnused c.options d)
  else []

/-- The report on what is left open. -/
def openReports (c : Checker σ) (remainder : Option Remainder) : List Diagnostic :=
  match remainder with
  | some r =>
    if c.options.reportUnterminated then [(Finding.neverClosed r.depth).diagnostic r.startLine]
    else []
  | none => []

/-- Ends the check of a source that leaves `remainder` open. -/
def finish (c : Checker σ) (remainder : Option Remainder) : CheckResult where
  diagnostics := c.diagnostics ++ c.unusedReports ++ c.openReports remainder
  stats := {
    expressions := c.expressions
    references := c.references
    definitions := Scope.definitionCount c.scope
    unterminated := remainder.isSome }

end Checker

/-- Checks a whole source in a scope of its own. -/
def check (source : String) (options : CheckOptions) : CheckResult :=
  let reading := read source
  ((Checker.start options FileScope.empty).checkAll reading.expressions).finish reading.remainder

end DefUse
