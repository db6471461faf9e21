import DefUse.Report
import DefUse.Report.Palette

/-!
# Reports as text

One line for each diagnostic, `file:line - severity MLcode: message`, and a summary at the end.  A
diagnostic on no particular line gives the file alone.
-/

namespace DefUse.Report.Listing

open DefUse.Text

/-- The place of a diagnostic in `file`. -/
def location (file : String) (d : Diagnostic) : String :=
  if d.line = 0 then file else file ++ ":" ++ Decimal.ofNat d.line

def severityStyle : Severity → Style
  | .error => .boldRed
  | .warning => .boldYellow

/-- The line for a diagnostic of `file`. -/
def line (p : Palette) (file : String) (d : Diagnostic) : String :=
  p.paint .cyan (location file d) ++ " - " ++
    p.paint (severityStyle d.severity) d.severity.label ++ " " ++
    p.paint .brightBlack ("ML" ++ Decimal.ofNat d.code) ++ ": " ++ d.message

/-- A counted noun, with an `s` unless there is exactly one. -/
def counted (n : Nat) (noun : String) : String :=
  Decimal.ofNat n ++ " " ++ noun ++ if n = 1 then "" else "s"

/-- The last line of a report. -/
def summary (p : Palette) (errors warnings : Nat) : String :=
  if errors = 0 ∧ warnings = 0 then "No problems found."
  else p.paint .bold
    ("Found " ++ counted errors "error" ++ " and " ++ counted warnings "warning" ++ ".")

/-- How many diagnostics of the reports have the given severity. -/
def count (severity : Severity) (reports : List FileReport) : Nat :=
  (reports.flatMap (·.result.diagnostics)).countP (·.severity = severity)

/-- The whole report. -/
def render (p : Palette) (reports : List FileReport) : String :=
  let lines := reports.flatMap fun r => r.result.diagnostics.map (line p r.file)
  "\n".intercalate (lines ++ [summary p (count .error reports) (count .warning reports)])

end DefUse.Report.Listing
