import DefUse.Proofs.LinePartition
import DefUse.Proofs.UnusedDefinitions
import Mathlib.Algebra.GroupWithZero.Nat
import Mathlib.Data.List.Dedup

/-!
# The blocks of a report

The diagnostics of a check come in three blocks: undefined uses, unused definitions and the
expression that is still open.  The options decide which of the last two are reported and on which
line an unused definition stands, and nothing else:

    diagnostics  =  undefined uses  ++  unused definitions, if asked  ++  open end, if asked
                                                                            (diagnostics_check)

What a check counts does not depend on the options at all (`stats_check`).  The numbers of the first
lines of the expressions never decrease, also where a source has more lines than there are numbers
(`pairwise_startLine`).
-/

namespace DefUse

/-! ## The numbers of the lines -/

theorem one_le_number {source : String} {line : SourceLine}
    (h : line ∈ SourceLine.ofSource source) : 1 ≤ line.number := by
  unfold SourceLine.ofSource at h
  obtain ⟨⟨text, n⟩, hn, rfl⟩ := List.mem_map.1 h
  have hle := List.le_snd_of_mem_zipIdx hn
  show 1 ≤ min n maxLineNumber
  unfold maxLineNumber
  dsimp only at hle
  omega

theorem pairwise_number (source : String) :
    (SourceLine.ofSource source).Pairwise fun l m => l.number ≤ m.number := by
  unfold SourceLine.ofSource
  rw [List.pairwise_map]
  refine (pairwise_zipIdx (Text.lines source)).imp ?_
  rintro ⟨text, n⟩ ⟨text', n'⟩ hlt
  show min n maxLineNumber ≤ min n' maxLineNumber
  dsimp only at hlt
  omega

/-- The expressions of a source are blocks of its lines, however many lines there are. -/
theorem exists_blocks (source : String) :
    ∃ (blocks : List (List SourceLine)) (hne : ∀ block ∈ blocks, block ≠ []),
      blocks.flatten.Sublist (SourceLine.ofSource source) ∧
        (read source).expressions = blocks.pmap expressionOf hne := by
  obtain ⟨blocks, rest, p, hread⟩ := readFrom_partition [] (SourceLine.ofSource source) .nil
  refine ⟨blocks, p.ne_nil, ?_, ?_⟩
  · have hparts : blocks.flatten ++ rest =
        (SourceLine.ofSource source).filter fun line => ¬ line.IsIdle := p.flatten
    refine (List.sublist_append_left _ rest).trans ?_
    rw [hparts]
    exact List.filter_sublist
  · exact congrArg Reading.expressions hread

theorem exists_line_of_mem {source : String} {e : Expression} (h : e ∈ (read source).expressions) :
    ∃ line ∈ SourceLine.ofSource source, line.number = e.startLine := by
  obtain ⟨blocks, hne, hsub, hread⟩ := exists_blocks source
  rw [hread] at h
  obtain ⟨block, hblock, rfl⟩ := List.mem_pmap.1 h
  have hmem : block.head (hne block hblock) ∈ blocks.flatten :=
    List.mem_flatten.2 ⟨block, hblock, List.head_mem _⟩
  exact ⟨_, hsub.subset hmem, rfl⟩

theorem one_le_startLine {source : String} {e : Expression} (h : e ∈ (read source).expressions) :
    1 ≤ e.startLine := by
  obtain ⟨line, hline, heq⟩ := exists_line_of_mem h
  rw [← heq]
  exact one_le_number hline

theorem pairwise_startLine (source : String) :
    (read source).expressions.Pairwise fun e f => e.startLine ≤ f.startLine := by
  obtain ⟨blocks, hne, hsub, hread⟩ := exists_blocks source
  have hlines := (pairwise_number source).sublist hsub
  rw [List.pairwise_flatten] at hlines
  rw [hread, List.pairwise_pmap]
  refine hlines.2.imp ?_
  intro b c hbc hb hc
  exact hbc _ (List.head_mem hb) _ (List.head_mem hc)

/-! ## The three blocks -/

/-- The message on a use without a definition. -/
def undefinedMessage (name : String) : String := "Variable '" ++ name ++ "' used without definition"

theorem undefinedMessage_inj {a b : String} (h : undefinedMessage a = undefinedMessage b) : a = b :=
  append_append_inj h

/-- The reports on undefined uses. -/
def undefinedBlock (es : List Expression) : List Diagnostic :=
  (undefinedUses FileScope.empty es).map (undefinedReport es)

/-- The reports on unused definitions, each on a line as asked. -/
def unusedBlock (place : UnusedLine) (es : List Expression) : List Diagnostic :=
  (unusedBindings es).map (unusedReport { unusedLine := place } es)

/-- The report on what is left open. -/
def openReport (r : Remainder) : Diagnostic :=
  ⟨r.startLine, "Expression starting here is never closed (unclosed depth " ++
    Text.Decimal.ofInt r.depth ++ ")", 1003, .error, ""⟩

theorem neverClosed_diagnostic (depth : Int) (line : Nat) :
    (Finding.neverClosed depth).diagnostic line =
      ⟨line, "Expression starting here is never closed (unclosed depth " ++
        Text.Decimal.ofInt depth ++ ")", 1003, .error, ""⟩ := by
  rw [← Template.fill_single (by decide) (by decide)]
  rfl

section

variable (options : CheckOptions) (es : List Expression)

/-- The first block: undefined uses, whatever the options. -/
theorem diagnostics_run :
    ((Checker.start options FileScope.empty).checkAll es).diagnostics = undefinedBlock es := by
  rw [Checker.diagnostics_checkAll]
  exact List.nil_append _

/-- The second block: unused definitions, if the options ask for them. -/
theorem unusedReports_start :
    ((Checker.start options FileScope.empty).checkAll es).unusedReports =
      if options.reportUnused then unusedBlock options.unusedLine es else [] := by
  by_cases hon : options.reportUnused = true
  · rw [unusedReports_run options hon, if_pos hon]
    rfl
  · unfold Checker.unusedReports
    rw [Checker.options_checkAll, if_neg hon]
    exact if_neg hon

/-- The third block: the open expression, if the options ask for it. -/
theorem openReports_start (remainder : Option Remainder) :
    ((Checker.start options FileScope.empty).checkAll es).openReports remainder =
      if options.reportUnterminated then (remainder.map openReport).toList else [] := by
  unfold Checker.openReports
  rw [Checker.options_checkAll]
  cases remainder with
  | none => simp
  | some r =>
    dsimp only
    rw [neverClosed_diagnostic]
    rfl

end

/-- A check reports the three blocks one after another. -/
theorem diagnostics_check (source : String) (options : CheckOptions) :
    (check source options).diagnostics =
      undefinedBlock (read source).expressions ++
        (if options.reportUnused then unusedBlock options.unusedLine (read source).expressions
          else []) ++
        (if options.reportUnterminated then ((read source).remainder.map openReport).toList
          else []) := by
  unfold check Checker.finish
  dsimp only
  rw [diagnostics_run, unusedReports_start, openReports_start]

/-! ## The counts -/

/-- The names that the expressions bind, with repetitions. -/
def boundNames (es : List Expression) : List String :=
  es.flatMap fun e => (Bindings.ofText e.text).sites.map Binding.name

theorem map_name_definitions (es : List Expression) :
    (es.flatMap Expression.definitions).map Definition.name = boundNames es := by
  unfold boundNames Expression.definitions
  rw [List.map_flatMap]
  simp only [List.map_map]
  rfl

theorem nodup_addTo {ds : List Definition} (h : (ds.map Definition.name).Nodup) (d : Definition) :
    ((Definition.addTo ds d).map Definition.name).Nodup := by
  by_cases hd : ∃ x ∈ ds, x.name = d.name
  · rwa [Definition.addTo_of_exists hd]
  · rw [Definition.addTo_of_not_exists hd, List.map_append]
    refine h.append (List.nodup_singleton _) ?_
    rw [List.map_singleton, List.disjoint_singleton]
    intro hmem
    obtain ⟨x, hx, hname⟩ := List.mem_map.1 hmem
    exact hd ⟨x, hx, hname⟩

theorem nodup_foldl_addTo {ds new : List Definition} (h : (ds.map Definition.name).Nodup) :
    ((new.foldl Definition.addTo ds).map Definition.name).Nodup := by
  induction new generalizing ds with
  | nil => exact h
  | cons d new ih => exact ih (nodup_addTo h d)

/-- Every name that is added is there, and no other. -/
theorem mem_names_foldl_addTo {new : List Definition} {name : String} :
    name ∈ (new.foldl Definition.addTo []).map Definition.name ↔
      name ∈ new.map Definition.name := by
  rw [List.mem_map, exists_name_foldl_addTo, List.mem_map]
  simp

/-- One definition is kept for each distinct name. -/
theorem length_foldl_addTo (new : List Definition) :
    (new.foldl Definition.addTo []).length = (new.map Definition.name).dedup.length := by
  have hnodup : ((new.foldl Definition.addTo []).map Definition.name).Nodup :=
    nodup_foldl_addTo List.nodup_nil
  rw [← List.length_map Definition.name]
  apply List.Perm.length_eq
  rw [List.perm_ext_iff_of_nodup hnodup (List.nodup_dedup _)]
  intro name
  rw [List.mem_dedup, mem_names_foldl_addTo]

namespace Checker

theorem expressions_checkAll (c : Checker FileScope) (es : List Expression) :
    (c.checkAll es).expressions = c.expressions + es.length := by
  induction es generalizing c with
  | nil => rfl
  | cons e es ih =>
    rw [checkAll_cons, ih, List.length_cons, expressions_checkExpression]
    omega

theorem references_checkAll (c : Checker FileScope) (es : List Expression) :
    (c.checkAll es).references =
      c.references + (es.map fun e => (Reference.scan e.text).length).sum := by
  induction es generalizing c with
  | nil => rfl
  | cons e es ih =>
    rw [checkAll_cons, ih, List.map_cons, List.sum_cons, references_checkExpression]
    omega

end Checker

/-- What is counted does not depend on the options. -/
theorem stats_check (source : String) (options : CheckOptions) :
    (check source options).stats =
      { expressions := (read source).expressions.length
        references := ((read source).expressions.map fun e => (Reference.scan e.text).length).sum
        definitions := (boundNames (read source).expressions).dedup.length
        unterminated := (read source).remainder.isSome } := by
  have hdefinitions : ∀ es : List Expression,
      Scope.definitionCount ((Checker.start options FileScope.empty).checkAll es).scope =
        (boundNames es).dedup.length := by
    intro es
    show List.length _ = _
    rw [Checker.definitions_checkAll, ← map_name_definitions]
    exact length_foldl_addTo _
  unfold check Checker.finish
  dsimp only
  rw [Checker.expressions_checkAll, Checker.references_checkAll, hdefinitions]
  simp [Checker.start]

/-! ## What is in the blocks -/

theorem pairwise_undefinedBlock (source : String) :
    (undefinedBlock (read source).expressions).Pairwise fun d d' => d.line ≤ d'.line := by
  have hlines := List.pairwise_iff_getElem.1 (pairwise_startLine source)
  unfold undefinedBlock
  rw [List.pairwise_map]
  refine (pairwise_undefinedUses _ _).imp ?_
  rintro ⟨i, r⟩ ⟨j, t⟩ (hlt | ⟨heq, -⟩)
  · exact hlines i j i.2 j.2 hlt
  · obtain rfl : i = j := heq
    exact Nat.le_refl _

theorem one_le_line_undefinedBlock {source : String} {d : Diagnostic}
    (h : d ∈ undefinedBlock (read source).expressions) : 1 ≤ d.line := by
  obtain ⟨⟨i, r⟩, -, rfl⟩ := List.mem_map.1 h
  exact one_le_startLine (List.getElem_mem i.2)

/-- The two places for unused definitions differ in the line only. -/
theorem unusedBlock_unattributed (es : List Expression) :
    unusedBlock .unattributed es =
      (unusedBlock .firstBinding es).map fun d => { d with line := 0 } := by
  unfold unusedBlock
  rw [List.map_map]
  rfl

/-- Of the expressions, `e` is the first that binds the name. -/
def FirstBinds (es : List Expression) (e : Expression) (name : String) : Prop :=
  ∃ before after, es = before ++ e :: after ∧ Binds e name ∧ ∀ f ∈ before, ¬ Binds f name

/-- An unused definition is reported on the line of the expression that first binds it. -/
theorem exists_first_of_mem_unusedBlock {es : List Expression} {d : Diagnostic}
    (h : d ∈ unusedBlock .firstBinding es) :
    ∃ e name, FirstBinds es e name ∧ d.message = unusedMessage name ∧ d.line = e.startLine := by
  obtain ⟨⟨i, b⟩, hu, rfl⟩ := List.mem_map.1 h
  obtain ⟨hb, hfirst, -⟩ := mem_unusedBindings.1 hu
  refine ⟨es.get i, b.name, ⟨es.take i, es.drop (i + 1), ?_, ⟨b, hb, rfl⟩, ?_⟩, rfl, rfl⟩
  · rw [List.get_eq_getElem, List.getElem_cons_drop, List.take_append_drop]
  · rintro e he ⟨b', hb', hname⟩
    obtain ⟨j, hj, rfl⟩ := List.mem_take_iff_getElem.1 he
    have hlater := hfirst ⟨j, by omega⟩ b' hb' hname
    rw [Fin.lt_def, Fin.ext_iff] at hlater
    dsimp only at hlater
    omega

theorem file_of_mem_check {source : String} {options : CheckOptions} {d : Diagnostic}
    (h : d ∈ (check source options).diagnostics) : d.file = "" := by
  rw [diagnostics_check, List.mem_append, List.mem_append] at h
  rcases h with (h | h) | h
  · obtain ⟨u, -, rfl⟩ := List.mem_map.1 h
    rfl
  · split at h
    · obtain ⟨u, -, rfl⟩ := List.mem_map.1 h
      rfl
    · cases h
  · split at h
    · rw [Option.mem_toList, Option.map_eq_some_iff] at h
      obtain ⟨r, -, rfl⟩ := h
      rfl
    · cases h

/-- The options of a check select blocks of one analysis and say on which lines its second block
stands.  What they do not ask for is left out, what they do is the same for all of them, and so are
the counts. -/
theorem options_select_fixed_blocks (source : String) :
    ∃ (U : List Diagnostic) (N : UnusedLine → List Diagnostic) (T : Option Diagnostic),
      (∀ options, (check source options).diagnostics =
        U ++ (if options.reportUnused then N options.unusedLine else []) ++
          (if options.reportUnterminated then T.toList else [])) ∧
      (∀ d ∈ U, d.code = 1001 ∧ 1 ≤ d.line) ∧
      (U.Pairwise fun d d' => d.line ≤ d'.line) ∧
      (∀ place, ∀ d ∈ N place, d.code = 1002) ∧
      N .unattributed = (N .firstBinding).map (fun d => { d with line := 0 }) ∧
      (∀ d ∈ N .firstBinding, 1 ≤ d.line ∧
        ∃ e name, FirstBinds (read source).expressions e name ∧ d.message = unusedMessage name ∧
          d.line = e.startLine) ∧
      T = (read source).remainder.map openReport ∧
      (∀ options, (check source options).stats =
        { expressions := (read source).expressions.length
          references := ((read source).expressions.map fun e => (Reference.scan e.text).length).sum
          definitions := (boundNames (read source).expressions).dedup.length
          unterminated := (read source).remainder.isSome }) ∧
      ∀ options, ∀ d ∈ (check source options).diagnostics, d.file = "" := by
  refine ⟨undefinedBlock (read source).expressions,
    fun place => unusedBlock place (read source).expressions,
    (read source).remainder.map openReport, diagnostics_check source, ?_,
    pairwise_undefinedBlock source, ?_, unusedBlock_unattributed _, ?_, rfl, stats_check source,
    fun options d hd => file_of_mem_check hd⟩
  · intro d hd
    refine ⟨?_, one_le_line_undefinedBlock hd⟩
    obtain ⟨u, -, rfl⟩ := List.mem_map.1 hd
    rfl
  · intro place d hd
    obtain ⟨u, -, rfl⟩ := List.mem_map.1 hd
    rfl
  · intro d hd
    obtain ⟨e, name, hfirst, hmessage, hline⟩ := exists_first_of_mem_unusedBlock hd
    refine ⟨?_, e, name, hfirst, hmessage, hline⟩
    obtain ⟨before, after, hparts, -⟩ := hfirst
    rw [hline]
    exact one_le_startLine (by rw [hparts]; simp)

end DefUse
