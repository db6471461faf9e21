import DefUse.Proofs.CheckRun
import DefUse.Proofs.Occurrence

/-!
# Undefined uses

A reference in expression `i` is undefined if its name is neither in the scope at the start nor bound
by one of the expressions up to and including `i`.  `undefinedUses` lists these references by
expression and offset, and the checker reports exactly them, one record each
(`diagnostics_checkAll`).  What is still open at the end of a source is no expression, so it takes no
part.
-/

namespace DefUse

variable (s : FileScope) (es : List Expression)

/-- No definition of the name is visible in expression `i`. -/
def Undefined (i : Fin es.length) (name : String) : Prop :=
  s.isDefined name = false ∧ ∀ j ≤ i, ¬ Binds es[j] name

instance (i : Fin es.length) (name : String) : Decidable (Undefined s es i name) :=
  inferInstanceAs (Decidable (_ ∧ _))

/-- The undefined references, each with the expression in which it stands. -/
def undefinedUses : List (Fin es.length × Reference) :=
  (List.finRange es.length).flatMap fun i =>
    ((Reference.scan es[i].text).filter fun r => Undefined s es i r.name).map fun r => (i, r)

/-- The report on an undefined reference. -/
def undefinedReport (u : Fin es.length × Reference) : Diagnostic :=
  ⟨es[u.1].startLine, "Variable '" ++ u.2.name ++ "' used without definition", 1001, .error, ""⟩

/-! ## The list -/

section

variable {α β : Type} {n : Nat}

/-- Lists given one by one, and ordered each, are ordered all together by index first. -/
theorem pairwise_flatMap_finRange {f : Fin n → List α} {offset : α → Nat}
    (h : ∀ i, (f i).Pairwise fun a b => offset a < offset b) :
    ((List.finRange n).flatMap fun i => (f i).map fun a => (i, a)).Pairwise fun u v =>
      u.1 < v.1 ∨ u.1 = v.1 ∧ offset u.2 < offset v.2 := by
  rw [List.pairwise_flatMap]
  refine ⟨?_, ?_⟩
  · intro i _
    rw [List.pairwise_map]
    exact (h i).imp fun hlt => Or.inr ⟨rfl, hlt⟩
  · refine (List.pairwise_lt_finRange n).imp ?_
    intro i j hij u hu v hv
    obtain ⟨a, -, rfl⟩ := List.mem_map.1 hu
    obtain ⟨b, -, rfl⟩ := List.mem_map.1 hv
    exact Or.inl hij

theorem flatMap_finRange_succ (f : Fin (n + 1) → List β) :
    (List.finRange (n + 1)).flatMap f = f 0 ++ (List.finRange n).flatMap fun i => f i.succ := by
  rw [List.finRange_succ, List.flatMap_cons, List.flatMap_map]

end

theorem mem_undefinedUses {i : Fin es.length} {r : Reference} :
    (i, r) ∈ undefinedUses s es ↔ r ∈ Reference.scan es[i].text ∧ Undefined s es i r.name := by
  unfold undefinedUses
  simp [List.mem_flatMap]

theorem pairwise_undefinedUses :
    (undefinedUses s es).Pairwise fun u v =>
      u.1 < v.1 ∨ u.1 = v.1 ∧ u.2.offset < v.2.offset :=
  pairwise_flatMap_finRange fun _ => (Reference.pairwise_scan _).filter _

variable {s es}

/-- In the first expression only its own bindings count besides the scope. -/
theorem undefined_zero {e : Expression} {name : String} :
    Undefined s (e :: es) ⟨0, Nat.succ_pos _⟩ name ↔ ¬ (s.isDefined name = true ∨ Binds e name) := by
  unfold Undefined
  rw [not_or, Bool.not_eq_true]
  refine and_congr_right fun _ => ?_
  constructor
  · intro h
    exact h ⟨0, Nat.succ_pos _⟩ (Nat.le_refl 0)
  · rintro h ⟨j, hj⟩ hle
    obtain rfl : j = 0 := Nat.le_zero.1 hle
    exact h

/-- For the expressions behind `e`, what `e` binds counts as if it had been there at the start. -/
theorem undefined_succ {e : Expression} {t : FileScope} {name : String}
    (ht : t.isDefined name = true ↔ s.isDefined name = true ∨ Binds e name) (i : Fin es.length) :
    Undefined s (e :: es) i.succ name ↔ Undefined t es i name := by
  unfold Undefined
  rw [← Bool.not_eq_true, ← Bool.not_eq_true, ht, not_or, and_assoc]
  refine and_congr_right fun _ => ?_
  constructor
  · intro h
    exact ⟨h 0 (Fin.zero_le _), fun j hj => h j.succ (Fin.succ_le_succ_iff.2 hj)⟩
  · rintro ⟨h₀, h⟩ j hj
    cases j using Fin.cases with
    | zero => exact h₀
    | succ j => exact h j (Fin.succ_le_succ_iff.1 hj)

/-! ## The checker -/

theorem map_undefinedReport :
    (undefinedUses s es).map (undefinedReport es) =
      (List.finRange es.length).flatMap fun i =>
        ((Reference.scan es[i].text).filter fun r => Undefined s es i r.name).map fun r =>
          (Finding.undefinedUse r.name).diagnostic es[i].startLine := by
  simp only [undefinedUses, List.map_flatMap, List.map_map, undefinedUse_diagnostic]
  rfl

/-- The reports on a list of expressions are those on the first, and then those on the others from
the scope that it leaves. -/
theorem undefinedReports_cons {e : Expression} {t : FileScope}
    (ht : ∀ name, t.isDefined name = true ↔ s.isDefined name = true ∨ Binds e name) :
    (undefinedUses s (e :: es)).map (undefinedReport (e :: es)) =
      ((Reference.scan e.text).filter fun r => !t.isDefined r.name).map
          (fun r => (Finding.undefinedUse r.name).diagnostic e.startLine) ++
        (undefinedUses t es).map (undefinedReport es) := by
  rw [map_undefinedReport, map_undefinedReport]
  refine (flatMap_finRange_succ _).trans ?_
  congr 1
  · show List.map _ ((Reference.scan e.text).filter fun r => Undefined s (e :: es) 0 r.name) = _
    congr 1
    apply List.filter_congr
    intro r _
    rw [Bool.eq_iff_iff, decide_eq_true_eq, Bool.not_eq_true', ← Bool.not_eq_true, ht]
    exact undefined_zero
  · congr 1
    funext i
    show List.map _ ((Reference.scan es[i].text).filter
      fun r => Undefined s (e :: es) i.succ r.name) = _
    congr 1
    apply List.filter_congr
    intro r _
    rw [decide_eq_decide]
    exact undefined_succ (ht r.name) i

namespace Checker

/-- An expression adds one report for each reference that is undefined even after its bindings. -/
theorem diagnostics_checkExpression (c : Checker FileScope) (e : Expression) :
    (c.checkExpression e).diagnostics = c.diagnostics ++
      ((Reference.scan e.text).filter fun r => !(c.checkExpression e).scope.isDefined r.name).map
        fun r => (Finding.undefinedUse r.name).diagnostic e.startLine := by
  -- the uses that are recorded after the test define nothing
  have htest : ∀ name, (c.checkExpression e).scope.isDefined name =
      Scope.isDefined ((Bindings.ofText e.text).sites.foldl
        (fun s b => Scope.define s b.name e.startLine) c.scope) name := by
    intro name
    rw [Bool.eq_iff_iff, isDefined_checkExpression, isDefined_foldl_define]
  simp only [htest]
  exact diagnostics_foldl_checkReference _ e.startLine _ _

/-- A run adds exactly the reports on the listed uses. -/
theorem diagnostics_checkAll (c : Checker FileScope) (es : List Expression) :
    (c.checkAll es).diagnostics =
      c.diagnostics ++ (undefinedUses c.scope es).map (undefinedReport es) := by
  induction es generalizing c with
  | nil => exact (List.append_nil _).symm
  | cons e es ih =>
    rw [checkAll_cons, ih, undefinedReports_cons (isDefined_checkExpression c e), ← List.append_assoc,
      diagnostics_checkExpression]

end Checker

/-- A run that starts with no reports has only reports on undefined uses. -/
theorem Checker.code_of_mem_checkAll {options : CheckOptions} {d : Diagnostic}
    (h : d ∈ ((start options s).checkAll es).diagnostics) : d.code = 1001 := by
  rw [diagnostics_checkAll] at h
  obtain ⟨u, -, rfl⟩ := List.mem_map.1 h
  rfl

/-- In the check of a source the reports with code 1001 are those on the listed uses. -/
theorem filter_check_undefined (source : String) (options : CheckOptions) :
    (check source options).diagnostics.filter (·.code = 1001) =
      (undefinedUses FileScope.empty (read source).expressions).map
        (undefinedReport (read source).expressions) := by
  unfold check
  dsimp only
  rw [(Checker.filter_finish (fun d hd => Checker.code_of_mem_checkAll hd) _).1,
    Checker.diagnostics_checkAll]
  exact List.nil_append _

/-- The undefined uses that a check reports are exactly those without a definition so far, one report
for each, in the order of the expressions and of the offsets inside them. -/
theorem undefined_uses_reported_exactly :
    (∀ (c : Checker FileScope) (es : List Expression),
      (c.checkAll es).diagnostics =
        c.diagnostics ++ (undefinedUses c.scope es).map (undefinedReport es)) ∧
    (∀ (s : FileScope) (es : List Expression),
      ((undefinedUses s es).Pairwise fun u v =>
        u.1 < v.1 ∨ u.1 = v.1 ∧ u.2.offset < v.2.offset) ∧
      ∀ i r, (i, r) ∈ undefinedUses s es ↔ r ∈ Reference.scan es[i].text ∧
        s.isDefined r.name = false ∧
        ∀ j ≤ i, ¬ ∃ b ∈ (Bindings.ofText es[j].text).sites, b.name = r.name) ∧
    ∀ (source : String) (options : CheckOptions),
      (check source options).diagnostics.filter (·.code = 1001) =
        (undefinedUses FileScope.empty (read source).expressions).map
          (undefinedReport (read source).expressions) :=
  ⟨Checker.diagnostics_checkAll,
    fun s es => ⟨pairwise_undefinedUses s es, fun _ _ => mem_undefinedUses s es⟩,
    filter_check_undefined⟩

end DefUse
