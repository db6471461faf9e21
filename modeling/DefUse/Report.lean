import DefUse.Checker

/-!
# Reports on several files

Each file is checked on its own.  A run holds the reports in the order of the inputs, and says
whether the records of the run should name their files.
-/

namespace DefUse

/-- The outcome of the check of one file. -/
structure FileReport where
  file : String
  result : CheckResult
deriving DecidableEq

/-- The reports of a run, in input order. -/
structure LintRun where
  reports : List FileReport
  /-- Whether records carry the name of their file. -/
  nameFiles : Bool
deriving DecidableEq

/-- Checks named sources, each on its own. -/
def checkSources (sources : List (String × String)) (options : CheckOptions) : List FileReport :=
  sources.map fun (file, text) => ⟨file, check text options⟩

/-- The records of a report, with the name of its file if `nameFiles`. -/
def FileReport.records (nameFiles : Bool) (report : FileReport) : List Diagnostic :=
  report.result.diagnostics.map fun d => if nameFiles then d.withFile report.file else d

namespace LintRun

/-- All records of the run, in input order. -/
def diagnostics (run : LintRun) : List Diagnostic :=
  run.reports.flatMap (FileReport.records run.nameFiles)

/-- The number of diagnostics of the run. -/
def diagnosticCount (run : LintRun) : Nat :=
  run.reports.foldr (fun r n => r.result.diagnostics.length + n) 0

/-- No record is lost or added. -/
theorem length_diagnostics (run : LintRun) :
    run.diagnostics.length = run.diagnosticCount := by
  obtain ⟨reports, nameFiles⟩ := run
  induction reports with
  | nil => rfl
  | cons r rs ih =>
    have ih : (rs.flatMap (FileReport.records nameFiles)).length =
      rs.foldr (fun r n => r.result.diagnostics.length + n) 0 := ih
    simp [diagnostics, diagnosticCount, FileReport.records, ih]

end LintRun

end DefUse
