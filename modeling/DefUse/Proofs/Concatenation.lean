import DefUse.Proofs.Renumbering
import DefUse.Proofs.ReportBlocks

/-!
# One source behind another

A source that leaves nothing open can be followed by another one: the lines of the second are read as
if they stood alone, with numbers that count on (`read_append`).  What the check of the whole reports
is made of the two checks, where the names of the one part count against the reports on the other:

- a use in the second part is not undefined if the first part binds its name
  (`undefinedBlock_append`);
- a definition of the first part is not unused if the second part uses its name, and one of the
  second part is reported only if its name does not occur in the first (`unusedBlock_append`).

A name occurs in an expression exactly if the expression binds it or uses it (`occurs_iff`).  This is
why one test on the first part stands for both what is defined and what is used there.
-/

namespace DefUse

/-! ## Reading -/

/-- Lines behind others that leave nothing open are read from a fresh start. -/
theorem readFrom_append {block : Option Block} {lines : List SourceLine}
    (h : (readFrom block lines).remainder = none) (more : List SourceLine) :
    readFrom block (lines ++ more) =
      ⟨(readFrom block lines).expressions ++ (readFrom none more).expressions,
        (readFrom none more).remainder⟩ := by
  induction lines generalizing block with
  | nil =>
    obtain rfl : block = none := Option.map_eq_none_iff.1 h
    rfl
  | cons line lines ih =>
    rw [List.cons_append]
    by_cases hskip : line.isSkipped = true
    · rw [readFrom_skipped hskip] at h ⊢
      rw [readFrom_skipped hskip, ih h]
    · by_cases hzero : (Block.extend block line).depth = 0
      · rw [readFrom_complete hskip hzero] at h
        rw [readFrom_complete hskip hzero, readFrom_complete hskip hzero, ih h]
        rfl
      · rw [readFrom_open hskip hzero] at h ⊢
        rw [readFrom_open hskip hzero, ih h]

section

variable {a : String} (ha : Text.EndsLine a.toList) (b : String)
  (hlength : (Text.lines (a ++ b)).length < UInt32.size)

include ha hlength

theorem length_parts_lt :
    (Text.lines a).length < UInt32.size ∧ (Text.lines b).length < UInt32.size := by
  rw [Text.lines_append ha, List.length_append] at hlength
  omega

/-- Behind a source that leaves nothing open, another is read as if alone, with its lines moved. -/
theorem read_append (hclosed : (read a).remainder = none) :
    read (a ++ b) =
      ⟨(read a).expressions ++ ((read b).renumber (· + (Text.lines a).length)).expressions,
        ((read b).renumber (· + (Text.lines a).length)).remainder⟩ := by
  obtain ⟨hlengtha, hlengthb⟩ := length_parts_lt ha b hlength
  rw [read_eq_of_length hlengtha] at hclosed
  rw [read_eq_of_length hlength, numberedLines_append ha, readFrom_append hclosed,
    read_eq_of_length hlengtha, read_eq_of_length hlengthb, ← readFrom_renumber]
  rfl

end

/-! ## Undefined uses -/

section

variable (es fs : List Expression)

theorem undefinedBlock_renumber (f : Nat → Nat) :
    undefinedBlock (es.map (Expression.renumber f)) =
      (undefinedBlock es).map (Diagnostic.renumber f) := by
  rw [← diagnostics_run {}, ← diagnostics_run {}]
  exact congrArg Checker.diagnostics
    (Checker.checkAll_renumber f (Checker.start {} FileScope.empty) es)

/-- What is defined from the start only takes away from the undefined uses. -/
theorem undefinedUses_eq_filter (s : FileScope) :
    undefinedUses s es =
      (undefinedUses FileScope.empty es).filter fun u => !s.isDefined u.2.name := by
  unfold undefinedUses
  rw [List.filter_flatMap]
  congr 1
  funext i
  rw [List.filter_map, List.filter_filter]
  congr 1
  apply List.filter_congr
  intro r _
  rw [Bool.eq_iff_iff, Bool.and_eq_true, decide_eq_true_eq, decide_eq_true_eq]
  show Undefined s es i r.name ↔ (!s.isDefined r.name) = true ∧ Undefined FileScope.empty es i r.name
  unfold Undefined
  rw [Bool.not_eq_true']
  refine and_congr_right fun _ => ?_
  exact (and_iff_right (by simp [FileScope.isDefined, FileScope.empty])).symm

/-- Bindings of the first part make uses in the second defined, and nothing else changes. -/
theorem undefinedBlock_append :
    undefinedBlock (es ++ fs) = undefinedBlock es ++ (undefinedBlock fs).filter fun d =>
      ¬ ∃ e ∈ es, ∃ b ∈ (Bindings.ofText e.text).sites, d.message = undefinedMessage b.name := by
  have hrun : Checker.checkAll (Checker.start {} FileScope.empty) (es ++ fs) =
      ((Checker.start {} FileScope.empty).checkAll es).checkAll fs := List.foldl_append
  rw [← diagnostics_run {}, hrun, Checker.diagnostics_checkAll, diagnostics_run,
    undefinedUses_eq_filter]
  congr 1
  unfold undefinedBlock
  rw [List.filter_map]
  congr 1
  apply List.filter_congr
  rintro ⟨i, r⟩ -
  have hdefined := Checker.isDefined_checkAll (Checker.start {} FileScope.empty) es r.name
  have hempty : ¬ (Checker.start {} FileScope.empty).scope.isDefined r.name = true := by
    simp [Checker.start, FileScope.isDefined, FileScope.empty]
  rw [or_iff_right hempty] at hdefined
  rw [Bool.eq_iff_iff, Bool.not_eq_true', ← Bool.not_eq_true, hdefined]
  show ¬ (∃ e ∈ es, Binds e r.name) ↔ decide (¬ _) = true
  rw [decide_eq_true_eq, not_iff_not]
  refine exists_congr fun e => and_congr_right fun _ => exists_congr fun b => and_congr_right fun _ => ?_
  constructor
  · intro h
    rw [h]
    rfl
  · intro h
    exact (undefinedMessage_inj h).symm

end

/-! ## Unused definitions -/

/-- Definitions added to others are those that would be kept anyway, without the names that are
there already. -/
theorem foldl_addTo_append (ds new : List Definition) :
    new.foldl Definition.addTo ds = ds ++ (new.foldl Definition.addTo []).filter fun d =>
      ¬ ∃ x ∈ ds, x.name = d.name := by
  induction new using List.reverseRecOn with
  | nil => exact (List.append_nil ds).symm
  | append_singleton new d ih =>
    rw [List.foldl_append, List.foldl_append, List.foldl_cons, List.foldl_nil, List.foldl_cons,
      List.foldl_nil]
    by_cases hold : ∃ x ∈ ds, x.name = d.name
    · have hthere : ∃ x ∈ new.foldl Definition.addTo ds, x.name = d.name :=
        exists_name_foldl_addTo.2 (Or.inl hold)
      rw [Definition.addTo_of_exists hthere, ih]
      by_cases hnew : ∃ x ∈ new.foldl Definition.addTo [], x.name = d.name
      · rw [Definition.addTo_of_exists hnew]
      · rw [Definition.addTo_of_not_exists hnew, List.filter_append,
          List.filter_cons_of_neg (by simpa using hold), List.filter_nil, List.append_nil]
    · by_cases hnew : ∃ x ∈ new, x.name = d.name
      · have hthere : ∃ x ∈ new.foldl Definition.addTo ds, x.name = d.name :=
          exists_name_foldl_addTo.2 (Or.inr hnew)
        rw [Definition.addTo_of_exists hthere, ih,
          Definition.addTo_of_exists (exists_name_foldl_addTo.2 (Or.inr hnew))]
      · rw [Definition.addTo_of_not_exists, ih, Definition.addTo_of_not_exists, List.filter_append,
          List.filter_cons_of_pos (by simpa using hold), List.filter_nil, List.append_assoc]
        · rw [exists_name_foldl_addTo]
          simpa using hnew
        · rw [exists_name_foldl_addTo]
          exact not_or.2 ⟨hold, hnew⟩

/-- The unused definitions of a file made of the given expressions. -/
def unusedIn (es : List Expression) : List Definition :=
  ((Checker.start {} FileScope.empty).checkAll es).scope.unused

section

variable (es fs : List Expression)

/-- The unused definitions are the first ones of their names that no expression uses. -/
theorem unusedIn_eq :
    unusedIn es = ((es.flatMap Expression.definitions).foldl Definition.addTo []).filter fun d =>
      ¬ ∃ e ∈ es, Uses e d.name := by
  unfold unusedIn FileScope.unused
  rw [Checker.definitions_checkAll]
  apply List.filter_congr
  intro d _
  rw [Bool.eq_iff_iff, Bool.not_eq_true', ← Bool.not_eq_true, Checker.isUsed_checkAll,
    decide_eq_true_eq, not_iff_not]
  exact or_iff_right (by simp [Checker.start, FileScope.isUsed, FileScope.empty])

/-- Uses in either part make definitions of the other used; a name that occurs in the first part is
not defined again by the second. -/
theorem unusedIn_append :
    unusedIn (es ++ fs) =
      ((unusedIn es).filter fun d => ¬ ∃ e ∈ fs, Uses e d.name) ++
        (unusedIn fs).filter fun d => ¬ ∃ e ∈ es, ∃ r ∈ Reference.scan e.text, r.name = d.name := by
  have huses : ∀ name, (∃ e ∈ es ++ fs, Uses e name) ↔
      (∃ e ∈ es, Uses e name) ∨ ∃ e ∈ fs, Uses e name := by
    intro name
    simp only [List.mem_append, or_and_right, exists_or]
  have hbinds : ∀ name, (∃ x ∈ (es.flatMap Expression.definitions).foldl Definition.addTo [],
      x.name = name) ↔ ∃ e ∈ es, Binds e name := by
    intro name
    rw [exists_name_foldl_addTo]
    simp only [List.not_mem_nil, false_and, exists_false, false_or, List.mem_flatMap,
      ← exists_name_definitions]
    constructor
    · rintro ⟨x, ⟨e, he, hx⟩, hname⟩
      exact ⟨e, he, x, hx, hname⟩
    · rintro ⟨e, he, x, hx, hname⟩
      exact ⟨x, ⟨e, he, hx⟩, hname⟩
  rw [unusedIn_eq, List.flatMap_append, List.foldl_append, foldl_addTo_append, List.filter_append,
    unusedIn_eq es, unusedIn_eq fs, List.filter_filter, List.filter_filter, List.filter_filter]
  congr 1
  · apply List.filter_congr
    intro d _
    rw [Bool.eq_iff_iff, Bool.and_eq_true, decide_eq_true_eq, decide_eq_true_eq, decide_eq_true_eq,
      huses, not_or, and_comm]
  · apply List.filter_congr
    intro d _
    rw [Bool.eq_iff_iff, Bool.and_eq_true, Bool.and_eq_true, decide_eq_true_eq, decide_eq_true_eq,
      decide_eq_true_eq, decide_eq_true_eq, huses, hbinds]
    simp only [occurs_iff, and_or_left, exists_or, not_or]
    constructor
    · rintro ⟨⟨huses, huses'⟩, hbinds⟩
      exact ⟨⟨hbinds, huses⟩, huses'⟩
    · rintro ⟨⟨hbinds, huses⟩, huses'⟩
      exact ⟨⟨huses, huses'⟩, hbinds⟩

theorem unusedIn_renumber (f : Nat → Nat) :
    unusedIn (es.map (Expression.renumber f)) = (unusedIn es).map (Definition.renumber f) := by
  unfold unusedIn
  rw [← FileScope.unused_renumber]
  exact congrArg (fun c => c.scope.unused)
    (Checker.checkAll_renumber f (Checker.start {} FileScope.empty) es)

end

/-- The report on an unused definition. -/
def unusedDiagnostic (place : UnusedLine) (d : Definition) : Diagnostic :=
  ⟨match place with
    | .unattributed => 0
    | .firstBinding => d.line, unusedMessage d.name, 1002, .warning, ""⟩

/-- Where the options put it, a report behind the first `n` lines moves with its line. -/
def moveUnused (place : UnusedLine) (n : Nat) (d : Diagnostic) : Diagnostic :=
  match place with
  | .unattributed => d
  | .firstBinding => d.renumber (· + n)

section

variable (place : UnusedLine) (es fs : List Expression)

theorem unusedBlock_eq : unusedBlock place es = (unusedIn es).map (unusedDiagnostic place) := by
  unfold unusedBlock unusedIn
  rw [unused_run, List.map_map]
  rfl

theorem unusedBlock_renumber (n : Nat) :
    unusedBlock place (es.map (Expression.renumber (· + n))) =
      (unusedBlock place es).map (moveUnused place n) := by
  rw [unusedBlock_eq, unusedBlock_eq, unusedIn_renumber, List.map_map, List.map_map]
  cases place <;> rfl

/-- Names in reports are told apart by the messages. -/
theorem filter_unusedBlock (p : String → Prop) [DecidablePred p] (q : Diagnostic → Prop)
    [DecidablePred q] (h : ∀ d : Definition, q (unusedDiagnostic place d) ↔ p d.name) :
    ((unusedIn es).filter fun d => p d.name).map (unusedDiagnostic place) =
      (unusedBlock place es).filter q := by
  rw [unusedBlock_eq, List.filter_map]
  congr 1
  apply List.filter_congr
  intro d _
  rw [Function.comp_apply, decide_eq_decide]
  exact (h d).symm

/-- The reports on unused definitions of two parts, with those cancelled that the other part uses or
defines. -/
theorem unusedBlock_append :
    unusedBlock place (es ++ fs) =
      ((unusedBlock place es).filter fun d => ¬ ∃ e ∈ fs, ∃ r ∈ Reference.scan e.text,
        (Bindings.ofText e.text).isIntroductionSite r.offset = false ∧
          d.message = unusedMessage r.name) ++
      (unusedBlock place fs).filter fun d => ¬ ∃ e ∈ es, ∃ r ∈ Reference.scan e.text,
        d.message = unusedMessage r.name := by
  have hmessage : ∀ (d : Definition) (r : Reference),
      (unusedDiagnostic place d).message = unusedMessage r.name ↔ r.name = d.name := by
    intro d r
    constructor
    · intro h
      exact (unusedMessage_inj h).symm
    · intro h
      rw [h]
      rfl
  rw [unusedBlock_eq, unusedIn_append, List.map_append]
  congr 1
  · refine filter_unusedBlock place es (fun name => ¬ ∃ e ∈ fs, Uses e name) _ fun d => ?_
    simp only [hmessage, Uses, and_comm]
  · refine filter_unusedBlock place fs
      (fun name => ¬ ∃ e ∈ es, ∃ r ∈ Reference.scan e.text, r.name = name) _ fun d => ?_
    simp only [hmessage]

end

/-! ## The whole check -/

/-- The diagnostics of a check with a given code. -/
def CheckResult.coded (r : CheckResult) (code : Nat) : List Diagnostic :=
  r.diagnostics.filter (·.code = code)

section

variable (source : String) (options : CheckOptions)

theorem coded_undefined : (check source options).coded 1001 = undefinedBlock (read source).expressions :=
  filter_check_undefined source options

theorem coded_unused : (check source options).coded 1002 =
    if options.reportUnused then unusedBlock options.unusedLine (read source).expressions else [] := by
  unfold CheckResult.coded check
  dsimp only
  rw [(Checker.filter_finish (fun d hd => Checker.code_of_mem_checkAll hd) _).2, unusedReports_start]

theorem coded_open : (check source options).coded 1003 =
    if options.reportUnterminated then ((read source).remainder.map openReport).toList else [] := by
  unfold CheckResult.coded
  rw [diagnostics_check, List.filter_append, List.filter_eq_nil_iff.2, List.nil_append,
    List.filter_eq_self.2]
  · intro d hd
    split at hd
    · rw [Option.mem_toList, Option.map_eq_some_iff] at hd
      obtain ⟨r, -, rfl⟩ := hd
      rfl
    · cases hd
  · intro d hd
    rcases List.mem_append.1 hd with hd | hd
    · obtain ⟨u, -, rfl⟩ := List.mem_map.1 hd
      simp [undefinedReport]
    · split at hd
      · obtain ⟨u, -, rfl⟩ := List.mem_map.1 hd
        simp [unusedReport]
      · cases hd

end

/-- The first line of an expression is a line of the source. -/
theorem startLine_le_length {source : String} {e : Expression}
    (hlength : (Text.lines source).length < UInt32.size) (h : e ∈ (read source).expressions) :
    e.startLine ≤ (Text.lines source).length := by
  obtain ⟨line, hline, heq⟩ := exists_line_of_mem h
  rw [ofSource_eq hlength] at hline
  rw [← heq]
  exact (number_le_of_mem hline).2

/-- Reports on a source are on its lines, so the parts can be told apart by them. -/
theorem line_le_of_mem_undefinedBlock {source : String} {d : Diagnostic}
    (hlength : (Text.lines source).length < UInt32.size)
    (h : d ∈ undefinedBlock (read source).expressions) : d.line ≤ (Text.lines source).length := by
  obtain ⟨⟨i, r⟩, -, rfl⟩ := List.mem_map.1 h
  exact startLine_le_length hlength (List.getElem_mem i.2)

section

variable {a : String} (ha : Text.EndsLine a.toList) (b : String)
  (hlength : (Text.lines (a ++ b)).length < UInt32.size) (hclosed : (read a).remainder = none)
  (options : CheckOptions)

include ha hlength hclosed

/-- Undefined uses of two sources, from those of each. -/
theorem coded_undefined_append :
    (check (a ++ b) options).coded 1001 =
      (check a options).coded 1001 ++
        (((check b options).coded 1001).filter fun d =>
          ¬ ∃ e ∈ (read a).expressions, ∃ b ∈ (Bindings.ofText e.text).sites,
            d.message = undefinedMessage b.name).map
          (Diagnostic.renumber (· + (Text.lines a).length)) := by
  rw [coded_undefined, coded_undefined, coded_undefined, read_append ha b hlength hclosed]
  show undefinedBlock (_ ++ List.map _ _) = _
  rw [undefinedBlock_append, undefinedBlock_renumber, List.filter_map]
  rfl

/-- Unused definitions of two sources, from those of each. -/
theorem coded_unused_append :
    (check (a ++ b) options).coded 1002 =
      (((check a options).coded 1002).filter fun d =>
        ¬ ∃ e ∈ (read b).expressions, ∃ r ∈ Reference.scan e.text,
          (Bindings.ofText e.text).isIntroductionSite r.offset = false ∧
            d.message = unusedMessage r.name) ++
        (((check b options).coded 1002).filter fun d =>
          ¬ ∃ e ∈ (read a).expressions, ∃ r ∈ Reference.scan e.text,
            d.message = unusedMessage r.name).map
          (moveUnused options.unusedLine (Text.lines a).length) := by
  have hmessage : ∀ d : Diagnostic,
      (moveUnused options.unusedLine (Text.lines a).length d).message = d.message := by
    intro d
    unfold moveUnused
    split <;> rfl
  rw [coded_unused, coded_unused, coded_unused, read_append ha b hlength hclosed]
  split
  · show unusedBlock _ (_ ++ List.map _ _) = _
    rw [unusedBlock_append, unusedBlock_renumber, List.filter_map]
    refine congrArg₂ (· ++ ·) ?_ (congrArg (List.map _) ?_)
    · apply List.filter_congr
      intro d _
      rw [decide_eq_decide, not_iff_not]
      simp only [List.mem_map, exists_exists_and_eq_and]
      rfl
    · apply List.filter_congr
      intro d _
      rw [Function.comp_apply, hmessage]
  · rfl

/-- Only the second source can leave an expression open. -/
theorem coded_open_append :
    (check (a ++ b) options).coded 1003 =
      ((check b options).coded 1003).map (Diagnostic.renumber (· + (Text.lines a).length)) := by
  rw [coded_open, coded_open, read_append ha b hlength hclosed]
  show (if _ then ((Option.map _ (read b).remainder).map openReport).toList else []) = _
  split
  · cases (read b).remainder <;> rfl
  · rfl

theorem counts_append :
    (check (a ++ b) options).stats.expressions =
      (check a options).stats.expressions + (check b options).stats.expressions ∧
    (check (a ++ b) options).stats.references =
      (check a options).stats.references + (check b options).stats.references ∧
    (check (a ++ b) options).stats.unterminated = (check b options).stats.unterminated := by
  rw [stats_check, stats_check, stats_check, read_append ha b hlength hclosed]
  show List.length (_ ++ List.map _ _) = _ ∧ List.sum (List.map _ (_ ++ List.map _ _)) = _ ∧
    Option.isSome (Option.map _ _) = _
  refine ⟨?_, ?_, Option.isSome_map⟩
  · rw [List.length_append, List.length_map]
  · rw [List.map_append, List.sum_append, List.map_map]
    rfl

end

/-- What stands up to a line and what stands behind it can be told apart by the line. -/
theorem filter_line_append {n : Nat} {ds ds' : List Diagnostic} (h : ∀ d ∈ ds, d.line ≤ n)
    (h' : ∀ d ∈ ds', ¬ d.line ≤ n) :
    (ds ++ ds').filter (·.line ≤ n) = ds ∧ (ds ++ ds').filter (¬ ·.line ≤ n) = ds' := by
  constructor
  · rw [List.filter_append, List.filter_eq_self.2, List.filter_eq_nil_iff.2, List.append_nil]
    · intro d hd
      simpa using h' d hd
    · intro d hd
      simpa using h d hd
  · rw [List.filter_append, List.filter_eq_nil_iff.2, List.filter_eq_self.2, List.nil_append]
    · intro d hd
      simpa using h' d hd
    · intro d hd
      simpa using h d hd

/-- The check of a source that leaves nothing open and of another one behind it can be read off the
two checks.  Uses in the second part lose their report if the first part binds their name, unused
definitions of the first part lose it if the second part uses them, those of the second if their
names occur in the first, and the lines of the second part count on from the first. -/
theorem check_append_from_parts (s₁ s₂ : String)
    (hends : s₁ = "" ∨ s₁.toList.getLast? = some '\n') (hclosed : (read s₁).remainder = none)
    (hlength : (Text.lines (s₁ ++ s₂)).length < 2 ^ 32) (options : CheckOptions) :
    (check (s₁ ++ s₂) options).coded 1001 =
      (check s₁ options).coded 1001 ++
        (((check s₂ options).coded 1001).filter fun d =>
          ¬ ∃ e ∈ (read s₁).expressions, ∃ b ∈ (Bindings.ofText e.text).sites,
            d.message = undefinedMessage b.name).map
          (Diagnostic.renumber (· + (Text.lines s₁).length)) ∧
    (check (s₁ ++ s₂) options).coded 1002 =
      (((check s₁ options).coded 1002).filter fun d =>
        ¬ ∃ e ∈ (read s₂).expressions, ∃ r ∈ Reference.scan e.text,
          (Bindings.ofText e.text).isIntroductionSite r.offset = false ∧
            d.message = unusedMessage r.name) ++
        (((check s₂ options).coded 1002).filter fun d =>
          ¬ ∃ e ∈ (read s₁).expressions, ∃ r ∈ Reference.scan e.text,
            d.message = unusedMessage r.name).map
          (moveUnused options.unusedLine (Text.lines s₁).length) ∧
    (read (s₁ ++ s₂)).remainder =
      (read s₂).remainder.map (Remainder.renumber (· + (Text.lines s₁).length)) ∧
    (check (s₁ ++ s₂) options).stats.unterminated = (check s₂ options).stats.unterminated ∧
    (check (s₁ ++ s₂) options).coded 1003 =
      ((check s₂ options).coded 1003).map (Diagnostic.renumber (· + (Text.lines s₁).length)) ∧
    (check (s₁ ++ s₂) options).stats.expressions =
      (check s₁ options).stats.expressions + (check s₂ options).stats.expressions ∧
    (check (s₁ ++ s₂) options).stats.references =
      (check s₁ options).stats.references + (check s₂ options).stats.references ∧
    ((check (s₁ ++ s₂) options).coded 1001).filter (·.line ≤ (Text.lines s₁).length) =
      (check s₁ options).coded 1001 ∧
    (((check (s₁ ++ s₂) options).coded 1001).filter (¬ ·.line ≤ (Text.lines s₁).length)).Sublist
      (((check s₂ options).coded 1001).map
        (Diagnostic.renumber (· + (Text.lines s₁).length))) := by
  have ha : Text.EndsLine s₁.toList := hends.imp_left fun h => by rw [h]; rfl
  have hundefined := coded_undefined_append ha s₂ hlength hclosed options
  obtain ⟨hexpressions, hreferences, hopen⟩ := counts_append ha s₂ hlength hclosed options
  -- the reports of the first part stand on its lines, and those of the second behind them
  have hfirst : ∀ d ∈ (check s₁ options).coded 1001, d.line ≤ (Text.lines s₁).length := by
    intro d hd
    rw [coded_undefined] at hd
    exact line_le_of_mem_undefinedBlock (length_parts_lt ha s₂ hlength).1 hd
  have hsecond : ∀ d ∈ (((check s₂ options).coded 1001).filter fun d =>
      ¬ ∃ e ∈ (read s₁).expressions, ∃ b ∈ (Bindings.ofText e.text).sites,
        d.message = undefinedMessage b.name).map
      (Diagnostic.renumber (· + (Text.lines s₁).length)), ¬ d.line ≤ (Text.lines s₁).length := by
    intro d hd
    obtain ⟨x, hx, rfl⟩ := List.mem_map.1 hd
    have hmem := (List.mem_filter.1 hx).1
    rw [coded_undefined] at hmem
    have hline := one_le_line_undefinedBlock hmem
    show ¬ x.line + _ ≤ _
    omega
  have hlines := filter_line_append hfirst hsecond
  refine ⟨hundefined, coded_unused_append ha s₂ hlength hclosed options, ?_, hopen,
    coded_open_append ha s₂ hlength hclosed options, hexpressions, hreferences, ?_, ?_⟩
  · rw [read_append ha s₂ hlength hclosed]
    rfl
  · rw [hundefined]
    exact hlines.1
  · rw [hundefined, hlines.2]
    exact List.filter_sublist.map _

theorem check_append_from_parts_sample :
    (check ("(= (f $x) $y)\n" ++ "(g $x $z)\n\n(") {}).stats.references = 4 ∧
      (read ("(= (f $x) $y)\n" ++ "(g $x $z)\n\n(")).remainder = some ⟨4, "(\n", 1⟩ := by
  obtain ⟨-, -, hremainder, -, -, -, hreferences, -⟩ :=
    check_append_from_parts "(= (f $x) $y)\n" "(g $x $z)\n\n(" (by decide) (by decide)
      (by decide) {}
  constructor
  · rw [hreferences]
    decide
  · rw [hremainder]
    decide

end DefUse
