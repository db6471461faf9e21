import DefUse.Checker
import Mathlib.Data.List.Basic

/-!
# What a run of the checker leaves behind

One expression defines the names it binds (`Binds`) and uses the names that occur in it other than
where they are introduced (`Uses`).  The references of an expression are looked at one after another
(`foldl_checkReference`); a use defines nothing, so it does not matter for the reports on the others
(`diagnostics_foldl_checkReference`).  The step lemmas say what `checkExpression` does to the scope of
a file in these terms, and the run lemmas what `checkAll` does:

- the definitions are those from before and, of the bindings that follow, the first of each name
  (`definitions_checkAll`);
- a name is used if it was before or some expression uses it (`isUsed_checkAll`).

Uses never touch the definitions and definitions never touch the uses.
-/

namespace DefUse

/-- The expression binds the name. -/
def Binds (e : Expression) (name : String) : Prop :=
  ∃ b ∈ (Bindings.ofText e.text).sites, b.name = name

instance (e : Expression) (name : String) : Decidable (Binds e name) :=
  inferInstanceAs (Decidable (∃ b ∈ (Bindings.ofText e.text).sites, b.name = name))

/-- The expression uses the name. -/
def Uses (e : Expression) (name : String) : Prop :=
  ∃ r ∈ Reference.scan e.text, r.name = name ∧
    (Bindings.ofText e.text).isIntroductionSite r.offset = false

instance (e : Expression) (name : String) : Decidable (Uses e name) :=
  inferInstanceAs (Decidable (∃ r ∈ Reference.scan e.text, r.name = name ∧
    (Bindings.ofText e.text).isIntroductionSite r.offset = false))

/-- The definitions that an expression asks for, in the order of its bindings. -/
def Expression.definitions (e : Expression) : List Definition :=
  (Bindings.ofText e.text).sites.map fun b => ⟨b.name, e.startLine⟩

/-- Adds a definition unless there is one of its name. -/
def Definition.addTo (ds : List Definition) (d : Definition) : List Definition :=
  if ds.any (·.name == d.name) then ds else ds ++ [d]

/-! ## Messages -/

theorem digits_zero : Text.Decimal.digits 0 = ['0'] := by
  rw [Text.Decimal.digits, if_pos (by decide)]
  rfl

/-- A template with one place and no further brace. -/
theorem Template.fill_single {pre post : String} (hpre : '\x7b' ∉ pre.toList)
    (hpost : '\x7b' ∉ post.toList) (arg : String) :
    fill (pre ++ "\x7b0\x7d" ++ post) [arg] = pre ++ arg ++ post := by
  have hplace : Text.replace '\x7b' ['0', '\x7d'] arg.toList ('\x7b' :: '0' :: '\x7d' :: post.toList) =
      arg.toList ++ Text.replace '\x7b' ['0', '\x7d'] arg.toList post.toList := rfl
  apply String.toList_inj.1
  unfold fill fillFrom fillFrom
  rw [digits_zero, String.toList_ofList, String.toList_append, String.toList_append,
    String.toList_append, String.toList_append, List.append_assoc, List.append_assoc,
    Text.replace_append_of_not_mem hpre]
  show _ ++ Text.replace '\x7b' ['0', '\x7d'] arg.toList ('\x7b' :: '0' :: '\x7d' :: post.toList) = _
  rw [hplace, Text.replace_of_not_mem hpost]

/-- What stands between two fixed texts can be read off. -/
theorem append_append_inj {pre post a b : String} (h : pre ++ a ++ post = pre ++ b ++ post) :
    a = b := by
  have h := congrArg String.toList h
  rw [String.toList_append, String.toList_append, String.toList_append, String.toList_append] at h
  exact String.toList_inj.1 (List.append_cancel_left (List.append_cancel_right h))

theorem undefinedUse_diagnostic (name : String) (line : Nat) :
    (Finding.undefinedUse name).diagnostic line =
      ⟨line, "Variable '" ++ name ++ "' used without definition", 1001, .error, ""⟩ := by
  rw [← Template.fill_single (by decide) (by decide)]
  rfl

theorem unusedDefinition_diagnostic (name : String) (line : Nat) :
    (Finding.unusedDefinition name).diagnostic line =
      ⟨line, "Variable '" ++ name ++ "' defined but never used", 1002, .warning, ""⟩ := by
  rw [← Template.fill_single (by decide) (by decide)]
  rfl

/-! ## Scopes -/

namespace FileScope

theorem isDefined_iff {s : FileScope} {name : String} :
    s.isDefined name = true ↔ ∃ d ∈ s.definitions, d.name = name := by
  simp [isDefined]

theorem isUsed_iff {s : FileScope} {name : String} : s.isUsed name = true ↔ name ∈ s.uses := by
  simp [isUsed]

theorem definitions_define (s : FileScope) (name : String) (line : Nat) :
    (s.define name line).definitions = Definition.addTo s.definitions ⟨name, line⟩ := by
  unfold define Definition.addTo isDefined
  split <;> rfl

theorem uses_define (s : FileScope) (name : String) (line : Nat) :
    (s.define name line).uses = s.uses := by
  unfold define
  split <;> rfl

theorem definitions_recordUse (s : FileScope) (name : String) :
    (s.recordUse name).definitions = s.definitions := rfl

theorem mem_uses_recordUse {s : FileScope} {name used : String} :
    name ∈ (s.recordUse used).uses ↔ name ∈ s.uses ∨ name = used := by
  rw [recordUse, List.mem_insert_iff, or_comm]

theorem definitions_foldl_define (s : FileScope) (bs : List Binding) (line : Nat) :
    (bs.foldl (fun s b => Scope.define s b.name line) s).definitions =
      (bs.map fun b => (⟨b.name, line⟩ : Definition)).foldl Definition.addTo s.definitions := by
  induction bs generalizing s with
  | nil => rfl
  | cons b bs ih =>
    rw [List.foldl_cons, ih, List.map_cons, List.foldl_cons]
    show List.foldl _ (s.define b.name line).definitions _ = _
    rw [definitions_define]

theorem uses_foldl_define (s : FileScope) (bs : List Binding) (line : Nat) :
    (bs.foldl (fun s b => Scope.define s b.name line) s).uses = s.uses := by
  induction bs generalizing s with
  | nil => rfl
  | cons b bs ih =>
    rw [List.foldl_cons, ih]
    exact uses_define s b.name line

theorem definitions_foldl_recordUse (s : FileScope) (rs : List Reference) :
    (rs.foldl (fun s r => Scope.recordUse s r.name) s).definitions = s.definitions := by
  induction rs generalizing s with
  | nil => rfl
  | cons r rs ih =>
    rw [List.foldl_cons, ih]
    exact definitions_recordUse s r.name

theorem mem_uses_foldl_recordUse {s : FileScope} {rs : List Reference} {name : String} :
    name ∈ (rs.foldl (fun s r => Scope.recordUse s r.name) s).uses ↔
      name ∈ s.uses ∨ ∃ r ∈ rs, r.name = name := by
  induction rs generalizing s with
  | nil => simp
  | cons r rs ih =>
    rw [List.foldl_cons, ih]
    show name ∈ (s.recordUse r.name).uses ∨ _ ↔ _
    rw [mem_uses_recordUse, List.exists_mem_cons_iff, or_assoc, eq_comm]

end FileScope

theorem Definition.addTo_of_exists {ds : List Definition} {d : Definition}
    (h : ∃ x ∈ ds, x.name = d.name) : addTo ds d = ds :=
  if_pos (by simpa using h)

theorem Definition.addTo_of_not_exists {ds : List Definition} {d : Definition}
    (h : ¬ ∃ x ∈ ds, x.name = d.name) : addTo ds d = ds ++ [d] :=
  if_neg (by simpa using h)

theorem exists_name_addTo {ds : List Definition} {d : Definition} {name : String} :
    (∃ x ∈ Definition.addTo ds d, x.name = name) ↔ (∃ x ∈ ds, x.name = name) ∨ d.name = name := by
  by_cases h : ∃ x ∈ ds, x.name = d.name
  · rw [Definition.addTo_of_exists h]
    constructor
    · exact Or.inl
    · rintro (h' | rfl)
      · exact h'
      · exact h
  · rw [Definition.addTo_of_not_exists h]
    simp [or_and_right, exists_or]

theorem exists_name_foldl_addTo {ds new : List Definition} {name : String} :
    (∃ x ∈ new.foldl Definition.addTo ds, x.name = name) ↔
      (∃ x ∈ ds, x.name = name) ∨ ∃ x ∈ new, x.name = name := by
  induction new generalizing ds with
  | nil => simp
  | cons d new ih =>
    rw [List.foldl_cons, ih, exists_name_addTo, List.exists_mem_cons_iff, or_assoc]

theorem exists_name_definitions {e : Expression} {name : String} :
    (∃ x ∈ e.definitions, x.name = name) ↔ Binds e name := by
  unfold Expression.definitions Binds
  constructor
  · rintro ⟨x, hx, rfl⟩
    obtain ⟨b, hb, rfl⟩ := List.mem_map.1 hx
    exact ⟨b, hb, rfl⟩
  · rintro ⟨b, hb, rfl⟩
    exact ⟨_, List.mem_map_of_mem hb, rfl⟩

/-! ## One expression -/

namespace Checker

section

variable {σ : Type} [Scope σ] (bindings : Bindings) (line : Nat) (rs : List Reference) (c : Checker σ)

/-- In any scope, looking at references records the uses one after another and counts the references;
only the reports depend on what the scope answers in between. -/
theorem foldl_checkReference :
    rs.foldl (checkReference bindings line) c =
      { c with
        scope := (rs.filter fun r => !bindings.isIntroductionSite r.offset).foldl
          (fun s r => Scope.recordUse s r.name) c.scope
        diagnostics := (rs.foldl (checkReference bindings line) c).diagnostics
        references := c.references + rs.length } := by
  induction rs generalizing c with
  | nil => rfl
  | cons r rs ih =>
    rw [List.foldl_cons, ih, List.length_cons, List.filter_cons]
    unfold checkReference
    cases bindings.isIntroductionSite r.offset <;>
      simp only [Bool.not_true, Bool.not_false, Bool.false_eq_true, if_true, if_false, List.foldl_cons,
        Nat.add_assoc, Nat.add_comm 1]

end

/-- A use defines nothing.  So each reference is tested against the names that were defined when the
first one was looked at. -/
theorem diagnostics_foldl_checkReference (bindings : Bindings) (line : Nat) (rs : List Reference)
    (c : Checker FileScope) :
    (rs.foldl (checkReference bindings line) c).diagnostics = c.diagnostics ++
      (rs.filter fun r => !c.scope.isDefined r.name).map
        fun r => (Finding.undefinedUse r.name).diagnostic line := by
  induction rs generalizing c with
  | nil => exact (List.append_nil _).symm
  | cons r rs ih =>
    have htest : ∀ name, (checkReference bindings line c r).scope.isDefined name =
        c.scope.isDefined name := by
      intro name
      unfold checkReference
      dsimp only
      split <;> rfl
    have hstep : (checkReference bindings line c r).diagnostics = c.diagnostics ++
        if c.scope.isDefined r.name then []
        else [(Finding.undefinedUse r.name).diagnostic line] := by
      show (if c.scope.isDefined r.name then _ else _) = _
      split
      · exact (List.append_nil _).symm
      · rfl
    rw [List.foldl_cons, ih, hstep, List.append_assoc, List.filter_cons]
    simp only [htest]
    cases c.scope.isDefined r.name <;> rfl

section

variable {σ : Type} [Scope σ] (c : Checker σ) (e : Expression)

/-- The bindings of an expression are defined first, and then its uses recorded. -/
theorem scope_checkExpression :
    (c.checkExpression e).scope =
      ((Reference.scan e.text).filter fun r =>
        !(Bindings.ofText e.text).isIntroductionSite r.offset).foldl
          (fun s r => Scope.recordUse s r.name)
          ((Bindings.ofText e.text).sites.foldl (fun s b => Scope.define s b.name e.startLine)
            c.scope) := by
  unfold checkExpression
  rw [foldl_checkReference]

theorem options_checkExpression : (c.checkExpression e).options = c.options := by
  unfold checkExpression
  rw [foldl_checkReference]

theorem expressions_checkExpression : (c.checkExpression e).expressions = c.expressions + 1 := by
  unfold checkExpression
  rw [foldl_checkReference]

theorem references_checkExpression :
    (c.checkExpression e).references = c.references + (Reference.scan e.text).length := by
  unfold checkExpression
  rw [foldl_checkReference]

end

variable (c : Checker FileScope) (e : Expression) (es : List Expression)

/-- An expression adds the definitions of its bindings. -/
theorem definitions_checkExpression :
    (c.checkExpression e).scope.definitions =
      e.definitions.foldl Definition.addTo c.scope.definitions := by
  rw [scope_checkExpression, FileScope.definitions_foldl_recordUse, FileScope.definitions_foldl_define]
  rfl

/-- After an expression, what it binds is defined besides what was before. -/
theorem isDefined_checkExpression (name : String) :
    (c.checkExpression e).scope.isDefined name = true ↔
      c.scope.isDefined name = true ∨ Binds e name := by
  rw [FileScope.isDefined_iff, FileScope.isDefined_iff, definitions_checkExpression,
    exists_name_foldl_addTo, exists_name_definitions]

/-- The names visible to the references of an expression: those from before and those it binds. -/
theorem isDefined_foldl_define (s : FileScope) (name : String) :
    Scope.isDefined ((Bindings.ofText e.text).sites.foldl
      (fun s b => Scope.define s b.name e.startLine) s) name = true ↔
      s.isDefined name = true ∨ Binds e name := by
  show FileScope.isDefined _ name = true ↔ _
  rw [FileScope.isDefined_iff, FileScope.isDefined_iff, FileScope.definitions_foldl_define,
    ← Expression.definitions, exists_name_foldl_addTo, exists_name_definitions]

/-- After an expression, what it uses is used besides what was before. -/
theorem isUsed_checkExpression (name : String) :
    (c.checkExpression e).scope.isUsed name = true ↔ c.scope.isUsed name = true ∨ Uses e name := by
  rw [FileScope.isUsed_iff, FileScope.isUsed_iff, scope_checkExpression,
    FileScope.mem_uses_foldl_recordUse, FileScope.uses_foldl_define]
  simp [Uses, and_assoc, and_comm]

/-! ## A run -/

theorem checkAll_cons : c.checkAll (e :: es) = (c.checkExpression e).checkAll es := rfl

theorem options_checkAll : (c.checkAll es).options = c.options := by
  induction es generalizing c with
  | nil => rfl
  | cons e es ih => rw [checkAll_cons, ih, options_checkExpression]

/-- A run adds the definitions of all bindings, the first of each name. -/
theorem definitions_checkAll :
    (c.checkAll es).scope.definitions =
      (es.flatMap Expression.definitions).foldl Definition.addTo c.scope.definitions := by
  induction es generalizing c with
  | nil => rfl
  | cons e es ih =>
    rw [checkAll_cons, ih, definitions_checkExpression, List.flatMap_cons, List.foldl_append]

theorem isDefined_checkAll (name : String) :
    (c.checkAll es).scope.isDefined name = true ↔
      c.scope.isDefined name = true ∨ ∃ e ∈ es, Binds e name := by
  induction es generalizing c with
  | nil => simp [checkAll]
  | cons e es ih =>
    rw [checkAll_cons, ih, isDefined_checkExpression, List.exists_mem_cons_iff, or_assoc]

/-- After a run a name is used if it was before or some expression uses it. -/
theorem isUsed_checkAll (name : String) :
    (c.checkAll es).scope.isUsed name = true ↔
      c.scope.isUsed name = true ∨ ∃ e ∈ es, Uses e name := by
  induction es generalizing c with
  | nil => simp [checkAll]
  | cons e es ih =>
    rw [checkAll_cons, ih, isUsed_checkExpression, List.exists_mem_cons_iff, or_assoc]

/-! ## The three kinds of reports -/

theorem code_of_mem_unusedReports {c : Checker FileScope} {d : Diagnostic}
    (h : d ∈ c.unusedReports) : d.code = 1002 := by
  unfold unusedReports at h
  split at h
  · obtain ⟨x, -, rfl⟩ := List.mem_map.1 h
    rfl
  · cases h

theorem code_of_mem_openReports {c : Checker FileScope} {remainder : Option Remainder}
    {d : Diagnostic} (h : d ∈ c.openReports remainder) : d.code = 1003 := by
  unfold openReports at h
  split at h
  · split at h
    · rw [List.mem_singleton.1 h]
      rfl
    · cases h
  · cases h

/-- The reports of a check can be told apart by their codes. -/
theorem filter_finish {c : Checker FileScope} (hc : ∀ d ∈ c.diagnostics, d.code = 1001)
    (remainder : Option Remainder) :
    (c.finish remainder).diagnostics.filter (·.code = 1001) = c.diagnostics ∧
      (c.finish remainder).diagnostics.filter (·.code = 1002) = c.unusedReports := by
  have hunused : ∀ d ∈ c.unusedReports, d.code = 1002 := fun d hd => code_of_mem_unusedReports hd
  have hopen : ∀ d ∈ c.openReports remainder, d.code = 1003 := fun d hd => code_of_mem_openReports hd
  unfold finish
  constructor
  · rw [List.filter_append, List.filter_append, List.filter_eq_self.2, List.filter_eq_nil_iff.2,
      List.filter_eq_nil_iff.2, List.append_nil, List.append_nil]
    · intro d hd
      simp [hopen d hd]
    · intro d hd
      simp [hunused d hd]
    · intro d hd
      simp [hc d hd]
  · rw [List.filter_append, List.filter_append, List.filter_eq_nil_iff.2, List.filter_eq_self.2,
      List.filter_eq_nil_iff.2, List.append_nil, List.nil_append]
    · intro d hd
      simp [hopen d hd]
    · intro d hd
      simp [hunused d hd]
    · intro d hd
      simp [hc d hd]

end Checker

end DefUse
