import DefUse.Proofs.LinePartition
import DefUse.Proofs.CheckRun
import Mathlib.Algebra.Group.Nat.Defs

/-!
# Line numbers

Nothing that is read or checked depends on the numbers of the lines.  Reading renumbered lines gives
the same expressions with renumbered ends (`readFrom_renumber`), and checking renumbered expressions
gives the same reports on renumbered lines, one expression at a time (`checkExpression_renumber`) and
so for a run of them (`checkAll_renumber`).  A source that is read as another one but for the numbers
is therefore checked like it (`check_renumber`), as long as zero, which stands for no line, keeps its
place.

A line that is skipped is the case in which the numbers behind it go up by one
(`idle_line_only_moves_numbers`).
-/

namespace DefUse

section

variable (f : Nat → Nat)

def SourceLine.renumber (line : SourceLine) : SourceLine :=
  { line with number := f line.number }

def Block.renumber (b : Block) : Block :=
  { b with startLine := f b.startLine }

def Expression.renumber (e : Expression) : Expression :=
  { e with startLine := f e.startLine, endLine := f e.endLine }

def Remainder.renumber (r : Remainder) : Remainder :=
  { r with startLine := f r.startLine }

/-- The same texts with other line numbers. -/
def Reading.renumber (r : Reading) : Reading :=
  ⟨r.expressions.map (Expression.renumber f), r.remainder.map (Remainder.renumber f)⟩

def Definition.renumber (d : Definition) : Definition :=
  { d with line := f d.line }

def FileScope.renumber (s : FileScope) : FileScope :=
  { s with definitions := s.definitions.map (Definition.renumber f) }

def Diagnostic.renumber (d : Diagnostic) : Diagnostic :=
  { d with line := f d.line }

def Checker.renumber (c : Checker FileScope) : Checker FileScope :=
  { c with
    scope := c.scope.renumber f
    diagnostics := c.diagnostics.map (Diagnostic.renumber f) }

/-- The same diagnostics on other lines, and the same counts. -/
def CheckResult.renumber (r : CheckResult) : CheckResult :=
  { r with diagnostics := r.diagnostics.map (Diagnostic.renumber f) }

end

variable (f : Nat → Nat)

/-! ## Reading -/

theorem Block.extend_renumber (block : Option Block) (line : SourceLine) :
    Block.extend (block.map (Block.renumber f)) (line.renumber f) =
      (Block.extend block line).renumber f := by
  cases block <;> rfl

/-- Renumbered lines are read into renumbered expressions. -/
theorem readFrom_renumber (block : Option Block) (lines : List SourceLine) :
    readFrom (block.map (Block.renumber f)) (lines.map (SourceLine.renumber f)) =
      (readFrom block lines).renumber f := by
  induction lines generalizing block with
  | nil => cases block <;> rfl
  | cons line lines ih =>
    have hextend := Block.extend_renumber f block line
    have hdepth : (Block.extend (block.map (Block.renumber f)) (line.renumber f)).depth =
        (Block.extend block line).depth := by
      rw [hextend]
      rfl
    rw [List.map_cons]
    by_cases hskip : line.isSkipped = true
    · have hskip' : (line.renumber f).isSkipped = true := hskip
      rw [readFrom_skipped hskip, readFrom_skipped hskip', ih]
    · have hskip' : ¬ (line.renumber f).isSkipped = true := hskip
      by_cases hzero : (Block.extend block line).depth = 0
      · rw [readFrom_complete hskip hzero, readFrom_complete hskip' (hdepth.trans hzero), hextend]
        have htail := ih none
        rw [Option.map_none] at htail
        rw [htail]
        rfl
      · rw [readFrom_open hskip hzero, readFrom_open hskip' (hdepth ▸ hzero), hextend]
        exact ih (some (Block.extend block line))

/-- A skipped line may as well be left out, whatever is gathered when it is met. -/
theorem readFrom_skip (block : Option Block) {line : SourceLine} (h : line.isSkipped = true)
    (before behind : List SourceLine) :
    readFrom block (before ++ line :: behind) = readFrom block (before ++ behind) := by
  induction before generalizing block with
  | nil => rw [List.nil_append, List.nil_append, readFrom_skipped h]
  | cons first before ih =>
    rw [List.cons_append, List.cons_append]
    by_cases hskip : first.isSkipped = true
    · rw [readFrom_skipped hskip, readFrom_skipped hskip, ih]
    · by_cases hzero : (Block.extend block first).depth = 0
      · rw [readFrom_complete hskip hzero, readFrom_complete hskip hzero, ih]
      · rw [readFrom_open hskip hzero, readFrom_open hskip hzero, ih]

/-! ## Checking -/

theorem FileScope.isDefined_renumber (s : FileScope) (name : String) :
    (s.renumber f).isDefined name = s.isDefined name := by
  unfold isDefined renumber
  rw [List.any_map]
  rfl

theorem FileScope.define_renumber (s : FileScope) (name : String) (line : Nat) :
    (s.renumber f).define name (f line) = (s.define name line).renumber f := by
  unfold define
  rw [isDefined_renumber]
  split
  · rfl
  · unfold renumber
    rw [List.map_append]
    rfl

theorem FileScope.unused_renumber (s : FileScope) :
    (s.renumber f).unused = s.unused.map (Definition.renumber f) := by
  unfold unused renumber
  rw [List.filter_map]
  rfl

namespace Checker

variable (c : Checker FileScope)

/-- A renumbered reference is reported on the renumbered line. -/
theorem checkReference_renumber (bindings : Bindings) (line : Nat) (r : Reference) :
    checkReference bindings (f line) (c.renumber f) r =
      (checkReference bindings line c r).renumber f := by
  have htest : Scope.isDefined (c.scope.renumber f) r.name = Scope.isDefined c.scope r.name :=
    FileScope.isDefined_renumber f c.scope r.name
  unfold checkReference Checker.renumber
  dsimp only
  rw [htest]
  congr 1
  · split <;> rfl
  · split
    · rfl
    · rw [List.map_append]
      rfl

theorem foldl_checkReference_renumber (bindings : Bindings) (line : Nat) (rs : List Reference) :
    rs.foldl (checkReference bindings (f line)) (c.renumber f) =
      (rs.foldl (checkReference bindings line) c).renumber f :=
  List.foldl_hom (Checker.renumber f) fun c r => checkReference_renumber f c bindings line r

/-- A renumbered expression is checked in the same way, with reports on the renumbered line. -/
theorem checkExpression_renumber (e : Expression) :
    (c.renumber f).checkExpression (e.renumber f) = (c.checkExpression e).renumber f := by
  have hdefine : (Bindings.ofText e.text).sites.foldl
      (fun s b => Scope.define s b.name (f e.startLine)) (c.scope.renumber f) =
      ((Bindings.ofText e.text).sites.foldl
        (fun s b => Scope.define s b.name e.startLine) c.scope).renumber f :=
    List.foldl_hom (FileScope.renumber f) fun s b => FileScope.define_renumber f s b.name e.startLine
  unfold checkExpression
  dsimp only
  rw [← foldl_checkReference_renumber]
  unfold Checker.renumber Expression.renumber
  dsimp only
  rw [hdefine]

theorem checkAll_renumber (es : List Expression) :
    (c.renumber f).checkAll (es.map (Expression.renumber f)) = (c.checkAll es).renumber f := by
  induction es generalizing c with
  | nil => rfl
  | cons e es ih => rw [List.map_cons, checkAll_cons, checkAll_cons, checkExpression_renumber, ih]

theorem lineOfUnused_renumber (hf : f 0 = 0) (options : CheckOptions) (d : Definition) :
    lineOfUnused options (d.renumber f) = f (lineOfUnused options d) := by
  unfold lineOfUnused
  cases options.unusedLine with
  | unattributed => exact hf.symm
  | firstBinding => rfl

/-- The reports at the end move too, if the line 0 for no line stays. -/
theorem finish_renumber (hf : f 0 = 0) (remainder : Option Remainder) :
    (c.renumber f).finish (remainder.map (Remainder.renumber f)) =
      (c.finish remainder).renumber f := by
  have hunused : (c.renumber f).unusedReports = c.unusedReports.map (Diagnostic.renumber f) := by
    unfold unusedReports
    show (if c.options.reportUnused = true then
      ((c.scope.renumber f).unused.map fun d =>
        (Finding.unusedDefinition d.name).diagnostic (lineOfUnused c.options d)) else []) = _
    rw [FileScope.unused_renumber, List.map_map]
    split
    · rw [List.map_map]
      apply List.map_congr_left
      intro d _
      show (Finding.unusedDefinition d.name).diagnostic (lineOfUnused c.options (d.renumber f)) = _
      rw [lineOfUnused_renumber f hf]
      rfl
    · rfl
  have hopen : (c.renumber f).openReports (remainder.map (Remainder.renumber f)) =
      (c.openReports remainder).map (Diagnostic.renumber f) := by
    unfold openReports
    cases remainder with
    | none => rfl
    | some r =>
      show (if c.options.reportUnterminated = true then _ else _) = List.map _ (if _ then _ else _)
      split <;> rfl
  have hcount : Scope.definitionCount (c.renumber f).scope = Scope.definitionCount c.scope :=
    List.length_map _
  unfold finish CheckResult.renumber
  rw [hunused, hopen, hcount, Option.isSome_map, List.map_append, List.map_append]
  rfl

end Checker

/-- If one source reads as another with renumbered lines, its reports are the renumbered ones. -/
theorem check_renumber (hf : f 0 = 0) {source source' : String}
    (h : read source' = (read source).renumber f) (options : CheckOptions) :
    check source' options = (check source options).renumber f := by
  unfold check
  dsimp only
  rw [h, ← Checker.finish_renumber f _ hf, ← Checker.checkAll_renumber]
  rfl

/-! ## The numbers of an append -/

theorem length_numberedLines (source : String) :
    (numberedLines source).length = (Text.lines source).length := by
  unfold numberedLines
  rw [List.length_map, List.length_zipIdx]

theorem number_le_of_mem {source : String} {line : SourceLine} (h : line ∈ numberedLines source) :
    1 ≤ line.number ∧ line.number ≤ (Text.lines source).length := by
  obtain ⟨⟨text, n⟩, hn, rfl⟩ := List.mem_map.1 h
  have hle := List.le_snd_of_mem_zipIdx hn
  have hlt := List.snd_lt_add_of_mem_zipIdx hn
  dsimp only at hle hlt ⊢
  omega

/-- Behind a text that ends a line, the numbers go on from its last. -/
theorem numberedLines_append {a : String} (h : Text.EndsLine a.toList) (b : String) :
    numberedLines (a ++ b) = numberedLines a ++
      (numberedLines b).map (SourceLine.renumber (· + (Text.lines a).length)) := by
  unfold numberedLines
  rw [Text.lines_append h, List.zipIdx_append, List.map_append, Nat.add_comm 1,
    ← List.map_snd_add_zipIdx_eq_zipIdx, List.map_map, List.map_map]
  rfl

theorem read_eq_of_length {source : String} (h : (Text.lines source).length < UInt32.size) :
    read source = readFrom none (numberedLines source) := by
  rw [read, ofSource_eq h]

/-! ## A skipped line -/

/-- The numbers behind the first `n` lines go up by one. -/
def moveBehind (n l : Nat) : Nat := if n < l then l + 1 else l

theorem Text.trim_concat {c : Char} (h : isWhite c = true) (cs : List Char) :
    trim (cs ++ [c]) = trim cs := by
  unfold trim
  rw [List.dropWhile_append]
  split
  · rename_i hnil
    rw [List.isEmpty_iff.1 hnil, List.dropWhile_cons, if_pos h]
    rfl
  · exact List.rdropWhile_concat_pos _ _ _ h

/-- A carriage return before the line feed is white, so it makes no difference to the trimmed line. -/
theorem Text.trim_chomp (cs : List Char) : trim (chomp (cs ++ ['\n'])) = trim cs := by
  by_cases h : cs.getLast? = some '\r'
  · obtain ⟨init, rfl⟩ := List.getLast?_eq_some_iff.1 h
    rw [List.append_assoc, List.singleton_append, chomp_carriage, trim_concat (by decide)]
  · rw [chomp_feed h]

theorem Text.lines_line {c : String} (h : '\n' ∉ c.toList) :
    lines (c ++ "\n") = [String.ofList (chomp (c.toList ++ ['\n']))] := by
  unfold lines
  rw [String.toList_append]
  show List.map _ (segments (c.toList ++ ['\n'])) = _
  rw [segments_line h]
  rfl

/-- The numbers that the lines of `a` and `b` have when one more line stands between them. -/
theorem renumber_moveBehind {a : String} (ha : Text.EndsLine a.toList) (b : String) :
    (numberedLines (a ++ b)).map (SourceLine.renumber (moveBehind (Text.lines a).length)) =
      numberedLines a ++
        (numberedLines b).map (SourceLine.renumber (· + ((Text.lines a).length + 1))) := by
  rw [numberedLines_append ha, List.map_append, List.map_map]
  congr 1
  · refine (List.map_congr_left ?_).trans (List.map_id _)
    intro line hline
    have hle := number_le_of_mem hline
    unfold SourceLine.renumber moveBehind
    rw [if_neg (by omega)]
    rfl
  · refine List.map_congr_left ?_
    intro line hline
    have hle := number_le_of_mem hline
    show SourceLine.mk (moveBehind _ (line.number + _)) line.text = SourceLine.mk _ line.text
    unfold moveBehind
    rw [if_pos (by omega), Nat.add_assoc]

/-- A line between `a` and `b` is numbered like any other. -/
theorem numberedLines_insert {a c : String} (ha : Text.EndsLine a.toList) (hc : '\n' ∉ c.toList)
    (b : String) :
    numberedLines (a ++ c ++ "\n" ++ b) = numberedLines a ++
      ⟨(Text.lines a).length + 1, String.ofList (Text.chomp (c.toList ++ ['\n']))⟩ ::
        (numberedLines b).map (SourceLine.renumber (· + ((Text.lines a).length + 1))) := by
  have hline : Text.EndsLine (c ++ "\n").toList := by
    rw [String.toList_append]
    exact .concat c.toList
  have hone : numberedLines (c ++ "\n") =
      [⟨1, String.ofList (Text.chomp (c.toList ++ ['\n']))⟩] := by
    unfold numberedLines
    rw [Text.lines_line hc]
    rfl
  have hassoc : a ++ c ++ "\n" ++ b = a ++ (c ++ "\n" ++ b) := by
    rw [String.append_assoc, String.append_assoc, String.append_assoc]
  rw [hassoc, numberedLines_append ha, numberedLines_append hline, hone, Text.lines_line hc,
    List.map_append, List.map_map]
  congr 1
  show _ :: List.map _ _ = _ :: List.map _ _
  congr 1
  · show SourceLine.mk (1 + _) _ = _
    rw [Nat.add_comm]
  · refine List.map_congr_left ?_
    intro line _
    show SourceLine.mk (line.number + 1 + _) line.text = SourceLine.mk (line.number + _) line.text
    rw [Nat.add_assoc, Nat.add_comm 1]

/-- An idle line is not read; it only moves the lines behind it. -/
theorem read_insert {a c : String} (ha : Text.EndsLine a.toList) (hc : '\n' ∉ c.toList)
    (hidle : Text.trim c.toList = [] ∨ (Text.trim c.toList).head? = some ';') (b : String)
    (hlength : (Text.lines (a ++ b)).length + 1 < UInt32.size) :
    read (a ++ c ++ "\n" ++ b) = (read (a ++ b)).renumber (moveBehind (Text.lines a).length) := by
  have hinsert := numberedLines_insert ha hc b
  have hcount : (Text.lines (a ++ c ++ "\n" ++ b)).length = (Text.lines (a ++ b)).length + 1 := by
    rw [← length_numberedLines, ← length_numberedLines, hinsert, numberedLines_append ha]
    simp only [List.length_append, List.length_cons, List.length_map]
    omega
  have hskip : (SourceLine.mk ((Text.lines a).length + 1)
      (String.ofList (Text.chomp (c.toList ++ ['\n'])))).isSkipped = true := by
    rw [SourceLine.isSkipped_iff]
    unfold SourceLine.IsIdle
    rwa [String.toList_ofList, Text.trim_chomp]
  rw [read_eq_of_length (by omega), read_eq_of_length (by omega), hinsert, readFrom_skip none hskip,
    ← renumber_moveBehind ha]
  exact readFrom_renumber _ none _

/-- A blank or comment line put between two lines of a source, wherever that is, moves the numbers
behind it by one and changes nothing else. -/
theorem idle_line_only_moves_numbers (a b c : String)
    (ha : a = "" ∨ a.toList.getLast? = some '\n') (hc : '\n' ∉ c.toList)
    (hidle : Text.trim c.toList = [] ∨ (Text.trim c.toList).head? = some ';')
    (hlength : (Text.lines (a ++ b)).length < 2 ^ 32 - 1) :
    read (a ++ c ++ "\n" ++ b) = (read (a ++ b)).renumber (moveBehind (Text.lines a).length) ∧
    ∀ options, check (a ++ c ++ "\n" ++ b) options =
      (check (a ++ b) options).renumber (moveBehind (Text.lines a).length) := by
  have hends : Text.EndsLine a.toList := ha.imp_left fun h => by rw [h]; rfl
  have hread := read_insert hends hc hidle b (by unfold UInt32.size; omega)
  exact ⟨hread, check_renumber _ rfl hread⟩

theorem idle_line_only_moves_numbers_sample :
    read ("(= (f $x)\n" ++ " ; $y ((\r" ++ "\n" ++ " $x)\n\n(") =
      ⟨[⟨1, 3, "(= (f $x)\n $x)\n"⟩], some ⟨5, "(\n", 1⟩⟩ := by
  rw [(idle_line_only_moves_numbers "(= (f $x)\n" " $x)\n\n(" " ; $y ((\r" (by decide) (by decide)
    (by decide) (by decide)).1]
  decide

end DefUse
