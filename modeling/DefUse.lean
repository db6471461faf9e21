import DefUse.Text.Blank
import DefUse.Text.Decimal
import DefUse.Text.Letter
import DefUse.Text.Line
import DefUse.Text.Offset
import DefUse.Text.Order
import DefUse.Text.Replace
import DefUse.Text.Split
import DefUse.Nesting
import DefUse.Reference
import DefUse.Expression
import DefUse.Reader
import DefUse.Form
import DefUse.Binding
import DefUse.Scope
import DefUse.Diagnostic.Template
import DefUse.Diagnostic
import DefUse.Checker
import DefUse.Report
import DefUse.Report.Json
import DefUse.Report.Palette
import DefUse.Report.Listing
import DefUse.CommandLine.Choice
import DefUse.CommandLine.Arguments
import DefUse.FileTree
import DefUse.Lint
import DefUse.Environment
import DefUse.Program
import DefUse.Main
import DefUse.Proofs.Encoding
import DefUse.Proofs.Occurrence
import DefUse.Proofs.Position
import DefUse.Proofs.BindingSites
import DefUse.Proofs.CheckRun
import DefUse.Proofs.UndefinedUses
import DefUse.Proofs.Introduction
import DefUse.Proofs.UnusedDefinitions
import DefUse.Proofs.LinePartition
import DefUse.Proofs.ReportBlocks
import DefUse.Proofs.Renumbering
import DefUse.Proofs.Concatenation
import DefUse.Proofs.Alignment
import DefUse.Proofs.FormGrammar
import DefUse.Proofs.AlignedBindings
import DefUse.Proofs.Renaming
import DefUse.Proofs.FlowInsensitivity
import DefUse.Proofs.ScopeHistory
import DefUse.Proofs.Consistency
import DefUse.Proofs.LintRun
import DefUse.Proofs.ByteAccess
import DefUse.Proofs.ReferenceSearch
import DefUse.Proofs.ReferenceScanner
import DefUse.Proofs.BytewiseBinding
import DefUse.Proofs.FaultFreedom
import DefUse.Proofs.ClosedGroups
import DefUse.Proofs.IntroducedNames
import DefUse.Proofs.StepwiseReading
import DefUse.Proofs.LinewiseScan
import DefUse.Proofs.BlankVariants
import DefUse.Proofs.LineEndings
import DefUse.Proofs.TemplateFilling
import DefUse.Proofs.ColourStripping
import DefUse.Proofs.JsonReadBack
import DefUse.Proofs.DirectoryWalk
import DefUse.Proofs.PathResolution
import DefUse.Proofs.InputCollection
import DefUse.Proofs.ArgumentOrder
