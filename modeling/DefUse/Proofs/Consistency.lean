import DefUse.Proofs.ReportBlocks

/-!
# Undefined and unused

Undefined uses are reported while the expressions are checked, unused definitions at the end, and the
two come from different data.  Still no name is reported as both.  The bindings of an expression are
defined before its references are looked at, so a reference that is reported is not bound anywhere in
its expression (`name_ne_of_mem_undefinedIn`), and what is not bound is used.  Hence every name
reported as undefined counts as used (`Accountable`), whatever the scope was at the start and whether
or not the name is defined later; and what counts as used is never reported as unused.
-/

namespace DefUse

/-- A record says that the name is used without definition. -/
def ReportsUndefined (ds : List Diagnostic) (name : String) : Prop :=
  ∃ d ∈ ds, d.code = 1001 ∧ d.message = undefinedMessage name

/-- A record says that the name is defined but never used. -/
def ReportsUnused (ds : List Diagnostic) (name : String) : Prop :=
  ∃ d ∈ ds, d.code = 1002 ∧ d.message = unusedMessage name

theorem binds_of_isBindingSite {e : Expression} {r : Reference} (hr : r ∈ Reference.scan e.text)
    (h : (Bindings.ofText e.text).isBindingSite r.offset = true) : Binds e r.name := by
  unfold Bindings.isBindingSite at h
  obtain ⟨b, hb, hoff⟩ := List.any_eq_true.1 h
  rw [beq_iff_eq] at hoff
  have hbr : b.reference = r := Reference.eq_of_mem_scan (Bindings.mem_sites.1 hb).1 hr hoff
  exact ⟨b, hb, by rw [Binding.name, hbr]⟩

/-- A name that is not bound in an expression is used by it. -/
theorem uses_of_not_binds {e : Expression} {r : Reference} (hr : r ∈ Reference.scan e.text)
    (h : ¬ Binds e r.name) : Uses e r.name :=
  (occurs_iff.1 ⟨r, hr, rfl⟩).resolve_left h

namespace Checker

variable {c : Checker FileScope}

/-! ## One expression -/

/-- The references of an expression that are reported as undefined. -/
def undefinedIn (c : Checker FileScope) (e : Expression) : List Reference :=
  (Reference.scan e.text).filter fun r => !(c.checkExpression e).scope.isDefined r.name

theorem diagnostics_checkExpression_eq (c : Checker FileScope) (e : Expression) :
    (c.checkExpression e).diagnostics = c.diagnostics ++ (c.undefinedIn e).map fun r =>
      ⟨e.startLine, undefinedMessage r.name, 1001, .error, ""⟩ := by
  rw [diagnostics_checkExpression]
  simp only [undefinedUse_diagnostic]
  rfl

/-- A reported reference is to a name that the expression does not bind. -/
theorem not_binds_of_mem_undefinedIn {e : Expression} {r : Reference} (h : r ∈ c.undefinedIn e) :
    r ∈ Reference.scan e.text ∧ ¬ Binds e r.name := by
  obtain ⟨hscan, hundefined⟩ := List.mem_filter.1 h
  rw [Bool.not_eq_true', ← Bool.not_eq_true, isDefined_checkExpression, not_or] at hundefined
  exact ⟨hscan, hundefined.2⟩

/-- A name that is bound anywhere in an expression is not reported in it. -/
theorem name_ne_of_mem_undefinedIn {e : Expression} {r t : Reference}
    (hr : r ∈ Reference.scan e.text)
    (hsite : (Bindings.ofText e.text).isBindingSite r.offset = true) (ht : t ∈ c.undefinedIn e) :
    t.name ≠ r.name := by
  intro hname
  apply (not_binds_of_mem_undefinedIn ht).2
  rw [hname]
  exact binds_of_isBindingSite hr hsite

/-! ## The invariant -/

/-- Every name that has been reported as undefined counts as used. -/
def Accountable (c : Checker FileScope) : Prop :=
  ∀ name, ReportsUndefined c.diagnostics name → c.scope.isUsed name = true

theorem accountable_start (options : CheckOptions) (s : FileScope) :
    (start options s).Accountable := by
  rintro name ⟨d, hd, -⟩
  cases hd

/-- A name that is reported as undefined is used by the expression that reports it. -/
theorem Accountable.checkExpression (h : c.Accountable) (e : Expression) :
    (c.checkExpression e).Accountable := by
  rintro name ⟨d, hd, hcode, hmessage⟩
  rw [isUsed_checkExpression]
  rw [diagnostics_checkExpression_eq, List.mem_append] at hd
  rcases hd with hd | hd
  · exact Or.inl (h name ⟨d, hd, hcode, hmessage⟩)
  · -- a new report: its name is bound nowhere in the expression, so it is used there
    obtain ⟨r, hr, rfl⟩ := List.mem_map.1 hd
    obtain rfl : r.name = name := undefinedMessage_inj hmessage
    obtain ⟨hscan, hfree⟩ := not_binds_of_mem_undefinedIn hr
    exact Or.inr (uses_of_not_binds hscan hfree)

theorem Accountable.checkAll (h : c.Accountable) (es : List Expression) :
    (c.checkAll es).Accountable := by
  induction es generalizing c with
  | nil => exact h
  | cons e es ih => exact ih (h.checkExpression e)

/-! ## The end of a check -/

section

variable (hc : ∀ d ∈ c.diagnostics, d.code = 1001) {remainder : Option Remainder} {name : String}

include hc

theorem reportsUndefined_of_finish (h : ReportsUndefined (c.finish remainder).diagnostics name) :
    ReportsUndefined c.diagnostics name := by
  obtain ⟨d, hd, hcode, hmessage⟩ := h
  refine ⟨d, ?_, hcode, hmessage⟩
  rw [← (filter_finish hc remainder).1]
  exact List.mem_filter.2 ⟨hd, by simpa using hcode⟩

/-- A name that is reported as unused has no recorded use. -/
theorem isUsed_of_finish (h : ReportsUnused (c.finish remainder).diagnostics name) :
    c.scope.isUsed name = false := by
  obtain ⟨d, hd, hcode, hmessage⟩ := h
  have hunused : d ∈ c.unusedReports := by
    rw [← (filter_finish hc remainder).2]
    exact List.mem_filter.2 ⟨hd, by simpa using hcode⟩
  unfold unusedReports at hunused
  split at hunused
  · obtain ⟨x, hx, rfl⟩ := List.mem_map.1 hunused
    rw [unusedDefinition_diagnostic] at hmessage
    obtain rfl : x.name = name := unusedMessage_inj hmessage
    simpa using (List.mem_filter.1 hx).2
  · cases hunused

end

end Checker

/-- No name is reported both as undefined and as unused, whatever the scope at the start, the
expressions and the options.  At every point of a check the names reported as undefined count as
used, and the next expression adds a report for each reference without a definition, none of which
has a name that the expression binds. -/
theorem no_name_undefined_and_unused (s : FileScope) (options : CheckOptions)
    (es : List Expression) :
    (∀ remainder name,
      ¬ (ReportsUndefined
          (((Checker.start options s).checkAll es).finish remainder).diagnostics name ∧
        ReportsUnused
          (((Checker.start options s).checkAll es).finish remainder).diagnostics name)) ∧
    (∀ name, ReportsUndefined ((Checker.start options s).checkAll es).diagnostics name →
      ((Checker.start options s).checkAll es).scope.isUsed name = true) ∧
    ∀ e : Expression,
      (((Checker.start options s).checkAll es).checkExpression e).diagnostics =
        ((Checker.start options s).checkAll es).diagnostics ++
          (((Checker.start options s).checkAll es).undefinedIn e).map (fun r =>
            ⟨e.startLine, undefinedMessage r.name, 1001, .error, ""⟩) ∧
      ∀ r ∈ Reference.scan e.text, (Bindings.ofText e.text).isBindingSite r.offset = true →
        ∀ t ∈ ((Checker.start options s).checkAll es).undefinedIn e, t.name ≠ r.name := by
  have hcodes : ∀ d ∈ ((Checker.start options s).checkAll es).diagnostics, d.code = 1001 :=
    fun d hd => Checker.code_of_mem_checkAll hd
  have haccountable := (Checker.accountable_start options s).checkAll es
  refine ⟨?_, haccountable, ?_⟩
  · rintro remainder name ⟨hundefined, hunused⟩
    have hused := haccountable name (Checker.reportsUndefined_of_finish hcodes hundefined)
    rw [Checker.isUsed_of_finish hcodes hunused] at hused
    cases hused
  · intro e
    exact ⟨Checker.diagnostics_checkExpression_eq _ e,
      fun r hr hsite t ht => Checker.name_ne_of_mem_undefinedIn hr hsite ht⟩

/-- A use before the only definition is reported, and counts for that definition. -/
example : (check "(f $x)\n(= (g $x) 1)\n" {}).diagnostics.map (fun d => (d.line, d.code)) =
    [(1, 1001)] := by
  decide

end DefUse
