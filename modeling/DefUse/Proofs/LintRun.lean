import DefUse.Program
import DefUse.Proofs.ReportBlocks
import Mathlib.Data.List.OfFn

/-!
# Runs over several inputs

All inputs of a run are read before any is checked.  What reading an input gives is said by its place
among the inputs (`contentAt`): standard input goes to the first that asks for it, and the others that
do find nothing left.  An input is readable if this is the encoding of a text, and `Rejects` says why
it is not: the system gives no bytes, or the bytes are no text.  Then a run ends

- with the fault of the first input that cannot be read (`lint_eq_error`), and writes nothing;
- or, if there is none, with one report for each input, in order, each made from the text of its
  input alone (`lint_eq_ok`).
-/

namespace DefUse

/-! ## The content of an input -/

namespace Input

def isStdin : Input → Bool
  | stdin => true
  | file _ _ => false

/-- The path under which an error names an input. -/
def path? : Input → Option String
  | stdin => none
  | file path _ => some path

theorem isStdin_iff {input : Input} : input.isStdin = true ↔ input = .stdin := by
  cases input with
  | stdin => simp [isStdin]
  | file path content => simp [isStdin]

/-- What an input leaves of standard input for those behind it. -/
def leaves (stdin : Content) (input : Input) : Content :=
  if input.isStdin then .ok ByteArray.empty else stdin

end Input

/-- What reading input `i` gives. -/
def contentAt (stdin : Content) (inputs : List Input) (i : Fin inputs.length) : Content :=
  match inputs[i] with
  | .stdin => if (inputs.take i).any Input.isStdin then .ok ByteArray.empty else stdin
  | .file _ content => content

/-- Why a content is not a text. -/
inductive Rejects : Content → ReadFault → Prop
  /-- There is no file, or the system does not let it be read. -/
  | access (fault : AccessFault) : Rejects (.error fault) (.access fault)
  /-- The bytes are not the encoding of any text. -/
  | invalidText (bytes : ByteArray) (h : ∀ text : String, text.toUTF8 ≠ bytes) :
    Rejects (.ok bytes) .invalidText

/-- The result of reading input `i`. -/
def readAt (stdin : Content) (inputs : List Input) (i : Fin inputs.length) :
    Except ReadError String :=
  (readText (contentAt stdin inputs i)).mapError (⟨inputs[i].path?, ·⟩)

section

variable (stdin : Content) (input : Input) (inputs : List Input)

/-- The inputs behind the first see what it leaves of standard input. -/
theorem contentAt_succ (i : Fin inputs.length) :
    contentAt stdin (input :: inputs) i.succ = contentAt (input.leaves stdin) inputs i := by
  show (match inputs[i] with
    | .stdin => if ((input :: inputs).take (i + 1)).any Input.isStdin then _ else stdin
    | .file _ content => content) = _
  unfold contentAt
  cases inputs[i] with
  | file path content => rfl
  | stdin =>
    dsimp only
    rw [List.take_succ_cons, List.any_cons]
    unfold Input.leaves
    cases input.isStdin <;> simp

theorem readAt_succ (i : Fin inputs.length) :
    readAt stdin (input :: inputs) i.succ = readAt (input.leaves stdin) inputs i := by
  unfold readAt
  rw [contentAt_succ]
  rfl

theorem readInputs_cons :
    readInputs stdin (input :: inputs) =
      readAt stdin (input :: inputs) ⟨0, Nat.succ_pos _⟩ ::
        readInputs (input.leaves stdin) inputs := by
  cases input with
  | stdin => rfl
  | file path content => rfl

/-- Reading the inputs one after another gives what each holds by its place. -/
theorem readInputs_eq : readInputs stdin inputs = List.ofFn (readAt stdin inputs) := by
  induction inputs generalizing stdin with
  | nil => rfl
  | cons input inputs ih =>
    rw [readInputs_cons, ih]
    refine Eq.trans ?_ (List.ofFn_succ (f := readAt stdin (input :: inputs))).symm
    congr 2
    funext i
    exact (readAt_succ stdin input inputs i).symm

/-- Standard input goes to the first input that asks for it. -/
theorem contentAt_of_first {i : Fin inputs.length} (h : inputs[i] = .stdin)
    (hfirst : ∀ j < i, inputs[j] ≠ .stdin) : contentAt stdin inputs i = stdin := by
  have hnone : (inputs.take i).any Input.isStdin = false := by
    rw [List.any_eq_false]
    intro x hx hstdin
    obtain ⟨j, hj, rfl⟩ := List.mem_take_iff_getElem.1 hx
    exact hfirst ⟨j, by omega⟩ (by rw [Fin.lt_def]; dsimp only; omega) (Input.isStdin_iff.1 hstdin)
  unfold contentAt
  rw [h, hnone]
  rfl

/-- Later inputs that ask for standard input find it empty. -/
theorem contentAt_of_later {i : Fin inputs.length} (h : inputs[i] = .stdin)
    (hlater : ∃ j < i, inputs[j] = .stdin) : contentAt stdin inputs i = .ok "".toUTF8 := by
  have hsome : (inputs.take i).any Input.isStdin = true := by
    obtain ⟨j, hj, hstdin⟩ := hlater
    rw [List.any_eq_true]
    refine ⟨inputs[j], ?_, Input.isStdin_iff.2 hstdin⟩
    rw [List.mem_take_iff_getElem]
    exact ⟨j, by rw [Fin.lt_def] at hj; omega, rfl⟩
  unfold contentAt
  rw [h, hsome]
  rfl

end

/-! ## Reading a content -/

theorem decodeText_eq_ok {bytes : ByteArray} {text : String} :
    decodeText bytes = .ok text ↔ bytes = text.toUTF8 := by
  unfold decodeText String.fromUTF8?
  by_cases h : bytes.IsValidUTF8
  · rw [dif_pos h]
    constructor
    · intro heq
      rw [← Except.ok.inj heq]
      rfl
    · rintro rfl
      rfl
  · rw [dif_neg h]
    constructor
    · intro heq
      cases heq
    · rintro rfl
      exact absurd text.isValidUTF8 h

/-- Bytes that cannot be decoded have one fault only. -/
theorem fault_of_decodeText {bytes : ByteArray} {fault : ReadFault}
    (h : decodeText bytes = .error fault) : fault = .invalidText := by
  unfold decodeText at h
  split at h
  · cases h
  · exact (Except.error.inj h).symm

/-- A content reads as a text exactly if it is the encoding of that text. -/
theorem readText_eq_ok {content : Content} {text : String} :
    readText content = .ok text ↔ content = .ok text.toUTF8 := by
  cases content with
  | error fault => simp [readText]
  | ok bytes =>
    show decodeText bytes = .ok text ↔ _
    rw [decodeText_eq_ok, Except.ok.injEq]

/-- A content cannot be read exactly if something rejects it, and for that reason. -/
theorem readText_eq_error {content : Content} {fault : ReadFault} :
    readText content = .error fault ↔ Rejects content fault := by
  constructor
  · intro h
    cases content with
    | error accessFault =>
      obtain rfl := Except.error.inj h
      exact .access accessFault
    | ok bytes =>
      rw [fault_of_decodeText h]
      refine .invalidText bytes fun text heq => ?_
      rw [readText_eq_ok.2 (congrArg Except.ok heq.symm)] at h
      cases h
  · rintro (⟨accessFault⟩ | ⟨bytes, h⟩)
    · rfl
    · cases hread : readText (.ok bytes) with
      | ok text => exact absurd (Except.ok.inj (readText_eq_ok.1 hread)).symm (h text)
      | error fault => rw [fault_of_decodeText hread]

section

variable {stdin : Content} {inputs : List Input} {i : Fin inputs.length}

theorem readAt_eq_ok {text : String} :
    readAt stdin inputs i = .ok text ↔ contentAt stdin inputs i = .ok text.toUTF8 := by
  rw [← readText_eq_ok]
  unfold readAt
  cases readText (contentAt stdin inputs i) <;> simp [Except.mapError]

/-- The error of an input names its path and why its content is rejected. -/
theorem readAt_eq_error {e : ReadError} :
    readAt stdin inputs i = .error e ↔
      e.path = inputs[i].path? ∧ Rejects (contentAt stdin inputs i) e.fault := by
  obtain ⟨path, fault⟩ := e
  rw [← readText_eq_error]
  unfold readAt
  cases readText (contentAt stdin inputs i) <;> simp [Except.mapError, eq_comm]

theorem not_readable_iff :
    (∀ text : String, contentAt stdin inputs i ≠ .ok text.toUTF8) ↔
      ∃ e, readAt stdin inputs i = .error e := by
  simp only [ne_eq, ← readAt_eq_ok]
  cases readAt stdin inputs i <;> simp

end

/-! ## All or the first error -/

section

variable {ε α : Type} {n : Nat} {f : Fin n → Except ε α}

theorem except_map_eq_error {β : Type} {g : α → β} {x : Except ε α} {e : ε} :
    x.map g = .error e ↔ x = .error e := by
  cases x <;> simp [Except.map]

theorem except_map_eq_ok {β : Type} {g : α → β} {x : Except ε α} {b : β} :
    x.map g = .ok b ↔ ∃ a, x = .ok a ∧ b = g a := by
  cases x <;> simp [Except.map, eq_comm]

/-- Results in order fail with the first error among them. -/
theorem allOk_ofFn_eq_error {e : ε} :
    allOk (List.ofFn f) = .error e ↔ ∃ i, f i = .error e ∧ ∀ j < i, ∃ a, f j = .ok a := by
  induction n with
  | zero =>
    constructor
    · intro h
      cases h
    · rintro ⟨i, -⟩
      exact i.elim0
  | succ n ih =>
    rw [List.ofFn_succ]
    cases h0 : f 0 with
    | error e₀ =>
      -- an error in front hides all that follows
      show Except.error e₀ = .error e ↔ _
      constructor
      · rintro ⟨rfl⟩
        exact ⟨0, h0, fun j hj => absurd hj (Fin.not_lt_zero j)⟩
      · rintro ⟨i, hi, hbefore⟩
        cases i using Fin.cases with
        | zero =>
          rw [h0] at hi
          rw [Except.error.inj hi]
        | succ i =>
          obtain ⟨a, ha⟩ := hbefore 0 (Fin.succ_pos i)
          rw [h0] at ha
          cases ha
    | ok a =>
      show (allOk (List.ofFn fun i => f i.succ)).map (a :: ·) = .error e ↔ _
      rw [except_map_eq_error, ih]
      constructor
      · rintro ⟨i, hi, hbefore⟩
        refine ⟨i.succ, hi, fun j hj => ?_⟩
        cases j using Fin.cases with
        | zero => exact ⟨a, h0⟩
        | succ j => exact hbefore j (Fin.succ_lt_succ_iff.1 hj)
      · rintro ⟨i, hi, hbefore⟩
        cases i using Fin.cases with
        | zero =>
          rw [h0] at hi
          cases hi
        | succ i => exact ⟨i, hi, fun j hj => hbefore j.succ (Fin.succ_lt_succ_iff.2 hj)⟩

theorem allOk_ofFn_eq_ok {as : List α} :
    allOk (List.ofFn f) = .ok as ↔ ∃ g : Fin n → α, (∀ i, f i = .ok (g i)) ∧ as = List.ofFn g := by
  induction n generalizing as with
  | zero =>
    constructor
    · intro h
      refine ⟨Fin.elim0, fun i => i.elim0, ?_⟩
      exact (Except.ok.inj h).symm
    · rintro ⟨g, -, rfl⟩
      rfl
  | succ n ih =>
    rw [List.ofFn_succ]
    cases h0 : f 0 with
    | error e₀ =>
      show Except.error e₀ = .ok as ↔ _
      constructor
      · intro h
        cases h
      · rintro ⟨g, hg, -⟩
        rw [hg 0] at h0
        cases h0
    | ok a =>
      show (allOk (List.ofFn fun i => f i.succ)).map (a :: ·) = .ok as ↔ _
      rw [except_map_eq_ok]
      constructor
      · rintro ⟨rest, hrest, rfl⟩
        obtain ⟨g, hg, rfl⟩ := ih.1 hrest
        refine ⟨Fin.cons a g, fun i => ?_, ?_⟩
        · cases i using Fin.cases with
          | zero => exact h0
          | succ i => exact hg i
        · rw [List.ofFn_succ]
          rfl
      · rintro ⟨g, hg, rfl⟩
        refine ⟨List.ofFn fun i => g i.succ, ih.2 ⟨_, fun i => hg i.succ, rfl⟩, ?_⟩
        rw [hg 0] at h0
        rw [List.ofFn_succ, Except.ok.inj h0]

end

/-! ## Runs -/

section

variable (lookup : String → Except AccessFault Node) (stdin : Content) (config : CommandLine.Config)

/-- The inputs of a run. -/
def inputsOf : List Input := (InputSet.collect lookup config.extensions config.files).inputs

/-- Each text is checked alone, and reported under the name of its input. -/
theorem checkSources_ofFn (inputs : List Input) (text : Fin inputs.length → String)
    (options : CheckOptions) :
    checkSources ((inputs.map Input.name).zip (List.ofFn text)) options =
      List.ofFn fun i => ⟨inputs[i].name, check (text i) options⟩ := by
  unfold checkSources
  apply List.ext_getElem
  · simp
  · intro i hi hi'
    simp

/-- A run fails with the error of an input exactly if that is the first that cannot be read. -/
theorem lint_eq_error {e : ReadError} :
    lint lookup stdin config = .error e ↔
      ∃ i, e.path = (inputsOf lookup config)[i].path? ∧
        Rejects (contentAt stdin (inputsOf lookup config) i) e.fault ∧
        ∀ j < i, ∃ text : String, contentAt stdin (inputsOf lookup config) j = .ok text.toUTF8 := by
  unfold lint
  dsimp only
  rw [except_map_eq_error, readInputs_eq, allOk_ofFn_eq_error]
  simp only [readAt_eq_ok, readAt_eq_error, and_assoc]
  rfl

/-- A run succeeds exactly if all inputs are texts, with one report for each. -/
theorem lint_eq_ok {run : LintRun} :
    lint lookup stdin config = .ok run ↔
      ∃ text : Fin (inputsOf lookup config).length → String,
        (∀ i, contentAt stdin (inputsOf lookup config) i = .ok (text i).toUTF8) ∧
        run = ⟨List.ofFn fun i =>
            ⟨(inputsOf lookup config)[i].name, check (text i) config.checkOptions⟩,
          (InputSet.collect lookup config.extensions config.files).nameFiles⟩ := by
  unfold lint
  dsimp only
  rw [except_map_eq_ok, readInputs_eq]
  constructor
  · rintro ⟨texts, htexts, rfl⟩
    obtain ⟨text, htext, rfl⟩ := allOk_ofFn_eq_ok.1 htexts
    refine ⟨text, fun i => readAt_eq_ok.1 (htext i), ?_⟩
    rw [checkSources_ofFn]
    rfl
  · rintro ⟨text, htext, rfl⟩
    refine ⟨List.ofFn text, allOk_ofFn_eq_ok.2 ⟨text, fun i => readAt_eq_ok.2 (htext i), rfl⟩, ?_⟩
    exact congrArg (LintRun.mk · _) (checkSources_ofFn _ text _).symm

/-- A run fails exactly if some input is not the encoding of a text. -/
theorem lint_fails_iff :
    (∃ e, lint lookup stdin config = .error e) ↔
      ∃ i, ∀ text : String, contentAt stdin (inputsOf lookup config) i ≠ .ok text.toUTF8 := by
  constructor
  · rintro ⟨e, h⟩
    obtain ⟨i, hpath, hfault, -⟩ := (lint_eq_error lookup stdin config).1 h
    exact ⟨i, not_readable_iff.2 ⟨e, readAt_eq_error.2 ⟨hpath, hfault⟩⟩⟩
  · rintro ⟨i, hi⟩
    cases h : lint lookup stdin config with
    | error e => exact ⟨e, rfl⟩
    | ok run =>
      obtain ⟨text, htext, -⟩ := (lint_eq_ok lookup stdin config).1 h
      exact absurd (htext i) (hi (text i))

end

theorem records_eq {report : FileReport} {source : String} {options : CheckOptions}
    (h : report.result = check source options) (nameFiles : Bool) :
    report.records nameFiles = report.result.diagnostics.map fun d =>
      { d with file := if nameFiles then report.file else "" } := by
  unfold FileReport.records
  apply List.map_congr_left
  intro d hd
  cases nameFiles with
  | true => rfl
  | false =>
    rw [h] at hd
    have hfile := file_of_mem_check hd
    obtain ⟨line, message, code, severity, file⟩ := d
    rw [show file = "" from hfile]
    rfl

/-- The records of a run are those of its reports, one after another. -/
theorem diagnostics_of_lint {lookup : String → Except AccessFault Node} {stdin : Content}
    {config : CommandLine.Config} {run : LintRun} (h : lint lookup stdin config = .ok run) :
    run.diagnostics = run.reports.flatMap fun report => report.result.diagnostics.map fun d =>
      { d with file := if run.nameFiles then report.file else "" } := by
  obtain ⟨text, -, rfl⟩ := (lint_eq_ok lookup stdin config).1 h
  unfold LintRun.diagnostics
  apply List.flatMap_congr
  intro report hreport
  obtain ⟨i, rfl⟩ := (List.mem_ofFn' _ _).1 hreport
  exact records_eq rfl _

/-- A run writes nothing to its output exactly if it fails. -/
theorem stdout_eq_empty_iff {world : Program.World} {argv : List String}
    {config : CommandLine.Config} (hparse : CommandLine.parse argv = .ok config) :
    (Program.run world argv).stdout = "" ↔ ∃ e, lint world.lookup world.stdin config = .error e := by
  unfold Program.run
  rw [hparse]
  dsimp only
  cases lint world.lookup world.stdin config with
  | error e => exact ⟨fun _ => ⟨e, rfl⟩, fun _ => rfl⟩
  | ok run =>
    constructor
    · intro h
      have hlength := congrArg String.length h
      simp at hlength
    · rintro ⟨e, he⟩
      cases he

/-- A run over several inputs gives all reports or none.  It fails exactly if some input is not the
encoding of a text, with the fault of the first such input, and then writes nothing.  Else there is
one report for each input, in order, with the name of the input and the check of its text alone.
Standard input goes to the first input that asks for it, and the later ones find it empty.  The
records of the run are those of its reports in order, with the name of the file if the run names
files. -/
theorem lint_all_or_nothing (world : Program.World) (config : CommandLine.Config) :
    ((∃ e, lint world.lookup world.stdin config = .error e) ↔
      ∃ i, ∀ text : String,
        contentAt world.stdin (inputsOf world.lookup config) i ≠ .ok text.toUTF8) ∧
    (∀ e, lint world.lookup world.stdin config = .error e ↔
      ∃ i, e.path = (inputsOf world.lookup config)[i].path? ∧
        Rejects (contentAt world.stdin (inputsOf world.lookup config) i) e.fault ∧
        ∀ j < i, ∃ text : String,
          contentAt world.stdin (inputsOf world.lookup config) j = .ok text.toUTF8) ∧
    (∀ argv, CommandLine.parse argv = .ok config →
      ((Program.run world argv).stdout = "" ↔
        ∃ e, lint world.lookup world.stdin config = .error e)) ∧
    (∀ run, lint world.lookup world.stdin config = .ok run ↔
      ∃ text : Fin (inputsOf world.lookup config).length → String,
        (∀ i, contentAt world.stdin (inputsOf world.lookup config) i = .ok (text i).toUTF8) ∧
        run = ⟨List.ofFn fun i =>
            ⟨(inputsOf world.lookup config)[i].name, check (text i) config.checkOptions⟩,
          (InputSet.collect world.lookup config.extensions config.files).nameFiles⟩) ∧
    (∀ i, (inputsOf world.lookup config)[i] = .stdin →
      ((∀ j < i, (inputsOf world.lookup config)[j] ≠ .stdin) →
        contentAt world.stdin (inputsOf world.lookup config) i = world.stdin) ∧
      ((∃ j < i, (inputsOf world.lookup config)[j] = .stdin) →
        contentAt world.stdin (inputsOf world.lookup config) i = .ok "".toUTF8)) ∧
    ∀ run, lint world.lookup world.stdin config = .ok run →
      run.diagnostics = run.reports.flatMap (fun report => report.result.diagnostics.map fun d =>
        { d with file := if run.nameFiles then report.file else "" }) ∧
      run.diagnostics.length = run.diagnosticCount := by
  refine ⟨lint_fails_iff _ _ _, fun e => lint_eq_error _ _ _, fun argv => stdout_eq_empty_iff,
    fun run => lint_eq_ok _ _ _, ?_, ?_⟩
  · intro i hstdin
    exact ⟨contentAt_of_first _ _ hstdin, contentAt_of_later _ _ hstdin⟩
  · intro run hrun
    exact ⟨diagnostics_of_lint hrun, run.length_diagnostics⟩

/-- The answer of the system for a file that may not be read. -/
def denied : Content := .error (.system "Permission denied (os error 13)")

/-- A file `a`, a directory `d` with a file that may not be read, and a text on standard input. -/
def sealedWorld : Program.World where
  lookup path :=
    if path = "a" then .ok (.file (.ok "(f $x)".toUTF8))
    else if path = "d" then .ok (.directory [("b.metta", .file denied)])
    else .error .notFound
  stdin := .ok "(f $y)".toUTF8
  environment := ⟨[]⟩
  terminal := false

def sealedConfig : CommandLine.Config :=
  ⟨["a", "-", "d", "c"], .json, .auto, false, false, false, ["metta"]⟩

def sealedInputs : List Input :=
  [.file "a" (.ok "(f $x)".toUTF8), .stdin, .file "d/b.metta" denied, .file "c" (.error .notFound)]

theorem inputsOf_sealedWorld : inputsOf sealedWorld.lookup sealedConfig = sealedInputs := by
  have hwalk : (Node.directory [("b.metta", .file denied)]).walk = [(["b.metta"], denied)] := by
    show Node.gather [("b.metta", [([], denied)])] = _
    unfold Node.gather
    rw [List.mergeSort_singleton]
    rfl
  show .file "a" _ :: .stdin ::
    (InputSet.ofDirectory ["metta"] "d" (.directory [("b.metta", .file denied)]) ++ [.file "c" _]) = _
  unfold InputSet.ofDirectory
  rw [hwalk]
  rfl

/-- The file in the directory is the first input that cannot be read, and the missing `c` is not
reported. -/
theorem lint_all_or_nothing_sample :
    CommandLine.parse ["a", "-", "d", "c"] = .ok sealedConfig ∧
    lint sealedWorld.lookup sealedWorld.stdin sealedConfig =
      .error ⟨some "d/b.metta", .access (.system "Permission denied (os error 13)")⟩ ∧
    (Program.run sealedWorld ["a", "-", "d", "c"]).stdout = "" := by
  have hparse : CommandLine.parse ["a", "-", "d", "c"] = .ok sealedConfig := rfl
  obtain ⟨-, herror, hstdout, -⟩ := lint_all_or_nothing sealedWorld sealedConfig
  have hfirst : ∀ inputs, inputs = sealedInputs →
      ∃ i : Fin inputs.length, some "d/b.metta" = inputs[i].path? ∧
        Rejects (contentAt sealedWorld.stdin inputs i)
          (.access (.system "Permission denied (os error 13)")) ∧
        ∀ j < i, ∃ text : String, contentAt sealedWorld.stdin inputs j = .ok text.toUTF8 := by
    rintro _ rfl
    refine ⟨⟨2, by decide⟩, rfl, .access _, ?_⟩
    rintro ⟨j, hj⟩ hlt
    rw [Fin.lt_def] at hlt
    dsimp only at hlt
    obtain rfl | rfl : j = 0 ∨ j = 1 := by omega
    · exact ⟨"(f $x)", rfl⟩
    · exact ⟨"(f $y)", rfl⟩
  have hfails := (herror ⟨some "d/b.metta", _⟩).2 (hfirst _ inputsOf_sealedWorld)
  exact ⟨hparse, hfails, (hstdout _ hparse).2 ⟨_, hfails⟩⟩

end DefUse
