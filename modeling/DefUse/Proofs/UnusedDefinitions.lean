import DefUse.Proofs.Introduction
import DefUse.Proofs.UndefinedUses
import Mathlib.Data.List.Induction

/-!
# Unused definitions

The scope of a file is made of a list of definitions and a set of uses.  Which names it ends up
calling unused can be said without either: a name is `OnlyIntroduced` if it occurs, and in every
expression in which it occurs it does so once, as a binding that introduces it.  A check reports
exactly these names, each once, in the order of their first bindings
(`unused_definitions_reported_exactly`).

The definitions of a file are the first bindings of the names in it (`foldl_addTo_eq`).
-/

namespace DefUse

/-- A name that occurs, and in each expression at most once, where it is introduced. -/
def OnlyIntroduced (es : List Expression) (name : String) : Prop :=
  (∃ e ∈ es, occurrences e name ≠ []) ∧
  ∀ e ∈ es, occurrences e name ≠ [] →
    ∃ b ∈ (Bindings.ofText e.text).sites, b.form ≠ .matching ∧ occurrences e name = [b.reference]

instance (es : List Expression) (name : String) : Decidable (OnlyIntroduced es name) :=
  inferInstanceAs (Decidable (_ ∧ _))

/-! ## The bindings of a list of expressions -/

/-- All bindings, each with the expression in which it stands. -/
def allBindings (es : List Expression) : List (Fin es.length × Binding) :=
  (List.finRange es.length).flatMap fun i =>
    (Bindings.ofText (es.get i).text).sites.map fun b => (i, b)

/-- The order of bindings by expression and offset. -/
def Before {n : Nat} (u v : Fin n × Binding) : Prop :=
  u.1 < v.1 ∨ u.1 = v.1 ∧ u.2.offset < v.2.offset

instance {n : Nat} (u v : Fin n × Binding) : Decidable (Before u v) :=
  inferInstanceAs (Decidable (_ ∨ _))

/-- A binding before which its name is not bound. -/
def FirstBinding (es : List Expression) (u : Fin es.length × Binding) : Prop :=
  u ∈ allBindings es ∧ ∀ v ∈ allBindings es, v.2.name = u.2.name → ¬ Before v u

instance (es : List Expression) (u : Fin es.length × Binding) : Decidable (FirstBinding es u) :=
  inferInstanceAs (Decidable (_ ∧ _))

/-- The first bindings of names that are only introduced. -/
def unusedBindings (es : List Expression) : List (Fin es.length × Binding) :=
  (allBindings es).filter fun u => FirstBinding es u ∧ OnlyIntroduced es u.2.name

variable (es : List Expression)

theorem mem_allBindings {i : Fin es.length} {b : Binding} :
    (i, b) ∈ allBindings es ↔ b ∈ (Bindings.ofText (es.get i).text).sites := by
  unfold allBindings
  simp [List.mem_flatMap]

theorem pairwise_allBindings : (allBindings es).Pairwise Before :=
  pairwise_flatMap_finRange fun _ => Bindings.pairwise_sites _

theorem Before.asymm {n : Nat} {u v : Fin n × Binding} (h : Before u v) : ¬ Before v u := by
  unfold Before at *
  omega

/-- The definition that a binding asks for. -/
def definitionOf (u : Fin es.length × Binding) : Definition := ⟨u.2.name, es[u.1].startLine⟩

theorem flatMap_eq_finRange {α β : Type} (l : List α) (f : α → List β) :
    l.flatMap f = (List.finRange l.length).flatMap fun i => f l[i] := by
  induction l with
  | nil => rfl
  | cons a l ih =>
    rw [List.flatMap_cons, ih]
    exact (flatMap_finRange_succ fun i : Fin (a :: l).length => f (a :: l)[i]).symm

theorem flatMap_definitions :
    es.flatMap Expression.definitions = (allBindings es).map (definitionOf es) := by
  rw [flatMap_eq_finRange, allBindings, List.map_flatMap]
  simp only [List.map_map]
  rfl

/-! ## First bindings -/

section

variable {α : Type} (f : α → Definition) {R : α → α → Prop} (hR : ∀ a b, R a b → ¬ R b a)
  {l : List α} {x : α}

include hR

/-- What comes last is the first of its name if that name has not been added so far. -/
theorem first_concat_iff (hx : ∀ a ∈ l, R a x) :
    (∀ b ∈ l ++ [x], (f b).name = (f x).name → ¬ R b x) ↔
      ¬ ∃ d ∈ (l.map f).foldl Definition.addTo [], d.name = (f x).name := by
  rw [exists_name_foldl_addTo]
  constructor
  · rintro h (⟨d, hd, -⟩ | ⟨d, hd, hname⟩)
    · cases hd
    · obtain ⟨a, ha, rfl⟩ := List.mem_map.1 hd
      exact h a (List.mem_append_left _ ha) hname (hx a ha)
  · intro h b hb hname hbx
    rcases List.mem_append.1 hb with hb | hb
    · exact h (Or.inr ⟨f b, List.mem_map_of_mem hb, hname⟩)
    · rw [List.mem_singleton.1 hb] at hbx
      exact hR x x hbx hbx

variable [DecidableRel R]

/-- What comes last leaves those before it the first of their names. -/
theorem filter_first_concat (hx : ∀ a ∈ l, R a x) :
    (l.filter fun a => ∀ b ∈ l ++ [x], (f b).name = (f a).name → ¬ R b a) =
      l.filter fun a => ∀ b ∈ l, (f b).name = (f a).name → ¬ R b a := by
  apply List.filter_congr
  intro a ha
  rw [decide_eq_decide]
  constructor
  · intro h b hb
    exact h b (List.mem_append_left _ hb)
  · intro h b hb
    rcases List.mem_append.1 hb with hb | hb
    · exact h b hb
    · rw [List.mem_singleton.1 hb]
      exact fun _ => hR a x (hx a ha)

/-- Adding definitions in order keeps, of each name, the one that comes first. -/
theorem foldl_addTo_eq (hl : l.Pairwise R) :
    (l.map f).foldl Definition.addTo [] =
      (l.filter fun a => ∀ b ∈ l, (f b).name = (f a).name → ¬ R b a).map f := by
  induction l using List.reverseRecOn with
  | nil => rfl
  | append_singleton l x ih =>
    obtain ⟨hl, -, hlast⟩ := List.pairwise_append.1 hl
    have hx : ∀ a ∈ l, R a x := fun a ha => hlast a ha x (List.mem_singleton_self x)
    have hfirst := first_concat_iff f hR hx
    rw [List.map_append, List.foldl_append, List.filter_append, filter_first_concat f hR hx,
      List.map_append, ← ih hl, List.map_singleton, List.foldl_cons, List.foldl_nil,
      List.filter_cons]
    by_cases h : ∃ d ∈ (l.map f).foldl Definition.addTo [], d.name = (f x).name
    · rw [Definition.addTo_of_exists h,
        if_neg (by rw [decide_eq_true_eq, hfirst]; exact not_not.2 h)]
      exact (List.append_nil _).symm
    · rw [Definition.addTo_of_not_exists h, if_pos (by rw [decide_eq_true_eq, hfirst]; exact h)]
      rfl

end

variable (options : CheckOptions)

/-- The definitions after a run are those of the first bindings, in the order of the text. -/
theorem definitions_run :
    ((Checker.start options FileScope.empty).checkAll es).scope.definitions =
      ((allBindings es).filter fun u => FirstBinding es u).map (definitionOf es) := by
  rw [Checker.definitions_checkAll, flatMap_definitions]
  refine (foldl_addTo_eq (definitionOf es) (fun _ _ => Before.asymm)
    (pairwise_allBindings es)).trans ?_
  congr 1
  apply List.filter_congr
  intro u hu
  rw [decide_eq_decide]
  exact ⟨fun h => ⟨hu, h⟩, fun h => h.2⟩

/-- A name that is bound has a first binding. -/
theorem exists_firstBinding {name : String} (h : ∃ e ∈ es, Binds e name) :
    ∃ u, FirstBinding es u ∧ u.2.name = name := by
  have hdefined : ∃ d ∈ ((Checker.start {} FileScope.empty).checkAll es).scope.definitions,
      d.name = name := by
    obtain ⟨e, he, hbinds⟩ := h
    rw [Checker.definitions_checkAll, exists_name_foldl_addTo]
    obtain ⟨d, hd, hname⟩ := exists_name_definitions.2 hbinds
    exact Or.inr ⟨d, List.mem_flatMap.2 ⟨e, he, hd⟩, hname⟩
  obtain ⟨d, hd, hname⟩ := hdefined
  rw [definitions_run] at hd
  obtain ⟨u, hu, rfl⟩ := List.mem_map.1 hd
  exact ⟨u, by simpa using (List.mem_filter.1 hu).2, hname⟩

/-! ## Names that are only introduced -/

variable {es}

/-- A name is only introduced if some expression binds it and none uses it. -/
theorem onlyIntroduced_iff {name : String} :
    OnlyIntroduced es name ↔ (∃ e ∈ es, Binds e name) ∧ ∀ e ∈ es, ¬ Uses e name := by
  constructor
  · rintro ⟨⟨e, he, hocc⟩, hall⟩
    refine ⟨⟨e, he, ?_⟩, ?_⟩
    · obtain ⟨b, hb, -, hsingle⟩ := hall e he hocc
      have hmem : b.reference ∈ occurrences e name := by
        rw [hsingle]
        exact List.mem_singleton_self _
      exact ⟨b, hb, (mem_occurrences.1 hmem).2⟩
    · intro e he
      rw [not_uses_iff]
      by_cases hocc : occurrences e name = []
      · exact Or.inl hocc
      · exact Or.inr (hall e he hocc)
  · rintro ⟨⟨e, he, b, hb, hname⟩, hall⟩
    refine ⟨⟨e, he, ?_⟩, ?_⟩
    · apply List.ne_nil_of_mem
      exact mem_occurrences.2 ⟨(Bindings.mem_sites.1 hb).1, hname⟩
    · intro e he hocc
      rcases not_uses_iff.1 (hall e he) with h | h
      · exact absurd h hocc
      · exact h

/-- A `match` introduces no name: each reference in it is a use. -/
theorem not_onlyIntroduced_of_matching {e : Expression} (he : e ∈ es)
    (hform : (Bindings.ofText e.text).form = some .matching) {r : Reference}
    (hr : r ∈ Reference.scan e.text) : ¬ OnlyIntroduced es r.name := by
  rintro ⟨-, hall⟩
  obtain ⟨b, hb, hne, -⟩ := hall e he (List.ne_nil_of_mem (mem_occurrences.2 ⟨hr, rfl⟩))
  obtain ⟨-, k, hk, -⟩ := Bindings.mem_sites.1 hb
  rw [Bindings.form_ofText, hk] at hform
  exact hne (Option.some.inj hform)

/-- Of two occurrences in one expression at most one introduces the name. -/
theorem not_onlyIntroduced_of_repeated {e : Expression} (he : e ∈ es) {r t : Reference}
    (hr : r ∈ Reference.scan e.text) (ht : t ∈ Reference.scan e.text) (hne : r ≠ t)
    (hname : r.name = t.name) : ¬ OnlyIntroduced es r.name := by
  rintro ⟨-, hall⟩
  have hr' := mem_occurrences.2 ⟨hr, rfl⟩
  have ht' := mem_occurrences.2 ⟨ht, hname.symm⟩
  obtain ⟨b, -, -, hsingle⟩ := hall e he (List.ne_nil_of_mem hr')
  rw [hsingle, List.mem_singleton] at hr' ht'
  exact hne (hr'.trans ht'.symm)

/-! ## Reports -/

/-- The message on a name that is never used. -/
def unusedMessage (name : String) : String := "Variable '" ++ name ++ "' defined but never used"

/-- The report on a name that is never used, at its first binding. -/
def unusedReport (options : CheckOptions) (es : List Expression) (u : Fin es.length × Binding) :
    Diagnostic :=
  ⟨match options.unusedLine with
    | .unattributed => 0
    | .firstBinding => es[u.1].startLine, unusedMessage u.2.name, 1002, .warning, ""⟩

/-- The reports on unused definitions in a check that is asked for them. -/
def unusedRecords (source : String) (options : CheckOptions) : List Diagnostic :=
  (check source { options with reportUnused := true }).diagnostics.filter (·.code = 1002)

theorem unusedMessage_inj {a b : String} (h : unusedMessage a = unusedMessage b) : a = b :=
  append_append_inj h

theorem mem_unusedBindings {i : Fin es.length} {b : Binding} :
    (i, b) ∈ unusedBindings es ↔ b ∈ (Bindings.ofText (es.get i).text).sites ∧
      (∀ j, ∀ d ∈ (Bindings.ofText (es.get j).text).sites, d.name = b.name →
        i < j ∨ i = j ∧ b.offset ≤ d.offset) ∧
      OnlyIntroduced es b.name := by
  unfold unusedBindings FirstBinding
  rw [List.mem_filter, decide_eq_true_eq, ← and_assoc, ← and_assoc, and_self, mem_allBindings,
    and_assoc]
  refine and_congr_right fun _ => and_congr_left fun _ => ?_
  constructor
  · intro h j d hd hname
    have := h (j, d) ((mem_allBindings es).2 hd) hname
    unfold Before at this
    dsimp only at this
    omega
  · rintro h ⟨j, d⟩ hd hname
    have := h j d ((mem_allBindings es).1 hd) hname
    unfold Before
    dsimp only
    omega

theorem pairwise_unusedBindings : (unusedBindings es).Pairwise Before :=
  (pairwise_allBindings es).filter _

theorem nodup_unusedBindings : ((unusedBindings es).map fun u => u.2.name).Nodup := by
  rw [List.Nodup, List.pairwise_map]
  refine pairwise_unusedBindings.imp_of_mem ?_
  intro u v hu hv hbefore hname
  have hfirst : FirstBinding es v := by
    have := (List.mem_filter.1 hv).2
    rw [decide_eq_true_eq] at this
    exact this.1
  exact hfirst.2 u (List.mem_filter.1 hu).1 hname hbefore

/-- The unused definitions after a run are those of the names that are only introduced. -/
theorem unused_run :
    ((Checker.start options FileScope.empty).checkAll es).scope.unused =
      (unusedBindings es).map (definitionOf es) := by
  unfold FileScope.unused unusedBindings
  rw [definitions_run, List.filter_map, List.filter_filter]
  congr 1
  apply List.filter_congr
  intro u hu
  have hbinds : ∃ e ∈ es, Binds e u.2.name :=
    ⟨es[u.1], List.getElem_mem _, u.2, (mem_allBindings es).1 hu, rfl⟩
  have hused : (!((Checker.start options FileScope.empty).checkAll es).scope.isUsed u.2.name) = true ↔
      OnlyIntroduced es u.2.name := by
    rw [onlyIntroduced_iff, Bool.not_eq_true', ← Bool.not_eq_true, Checker.isUsed_checkAll]
    simp only [hbinds, true_and, not_or, not_exists, not_and]
    exact ⟨fun h => h.2, fun h => ⟨by simp [Checker.start, FileScope.isUsed, FileScope.empty], h⟩⟩
  rw [Bool.eq_iff_iff, Bool.and_eq_true, decide_eq_true_eq, decide_eq_true_eq, and_comm]
  exact and_congr_right fun _ => hused

theorem unusedReports_run (hon : options.reportUnused = true) :
    ((Checker.start options FileScope.empty).checkAll es).unusedReports =
      (unusedBindings es).map (unusedReport options es) := by
  unfold Checker.unusedReports
  rw [Checker.options_checkAll]
  show (if options.reportUnused = true then List.map _ (FileScope.unused _) else []) = _
  rw [if_pos hon, unused_run, List.map_map]
  apply List.map_congr_left
  intro u _
  show (Finding.unusedDefinition u.2.name).diagnostic _ = _
  rw [unusedDefinition_diagnostic]
  rfl

/-- In the check of a source the reports with code 1002 are those on the unused bindings. -/
theorem unusedRecords_eq (source : String) :
    unusedRecords source options =
      (unusedBindings (read source).expressions).map
        (unusedReport options (read source).expressions) := by
  unfold unusedRecords check
  dsimp only
  rw [(Checker.filter_finish (fun d hd => Checker.code_of_mem_checkAll hd) _).2,
    unusedReports_run _ rfl]
  rfl

/-- A name is reported as unused exactly if it is only introduced. -/
theorem reported_iff (source : String) (name : String) :
    (∃ d ∈ unusedRecords source options, d.message = unusedMessage name) ↔
      OnlyIntroduced (read source).expressions name := by
  rw [unusedRecords_eq]
  constructor
  · rintro ⟨d, hd, hmessage⟩
    obtain ⟨u, hu, rfl⟩ := List.mem_map.1 hd
    rw [← unusedMessage_inj hmessage]
    exact (mem_unusedBindings.1 hu).2.2
  · intro h
    obtain ⟨u, hfirst, rfl⟩ := exists_firstBinding _ (onlyIntroduced_iff.1 h).1
    have hu : u ∈ unusedBindings (read source).expressions := by
      refine List.mem_filter.2 ⟨hfirst.1, ?_⟩
      rw [decide_eq_true_eq]
      exact ⟨hfirst, h⟩
    exact ⟨_, List.mem_map_of_mem hu, rfl⟩

/-- A check that is asked for unused definitions reports the names that occur only where they are
introduced, at most once in an expression: each of them once, in the order of their first bindings.
So a name that occurs in a `match`, or twice in one expression, is never among them. -/
theorem unused_definitions_reported_exactly (source : String) (options : CheckOptions) :
    (∀ name, (∃ d ∈ unusedRecords source options, d.message = unusedMessage name) ↔
      OnlyIntroduced (read source).expressions name) ∧
    unusedRecords source options =
      (unusedBindings (read source).expressions).map
        (unusedReport options (read source).expressions) ∧
    (∀ i b, (i, b) ∈ unusedBindings (read source).expressions ↔
      b ∈ (Bindings.ofText (read source).expressions[i].text).sites ∧
      (∀ j, ∀ d ∈ (Bindings.ofText (read source).expressions[j].text).sites, d.name = b.name →
        i < j ∨ i = j ∧ b.offset ≤ d.offset) ∧
      OnlyIntroduced (read source).expressions b.name) ∧
    (unusedBindings (read source).expressions).Pairwise Before ∧
    ((unusedBindings (read source).expressions).map fun u => u.2.name).Nodup ∧
    (∀ e ∈ (read source).expressions, (Bindings.ofText e.text).form = some .matching →
      ∀ r ∈ Reference.scan e.text,
        ¬ ∃ d ∈ unusedRecords source options, d.message = unusedMessage r.name) ∧
    ∀ e ∈ (read source).expressions, ∀ r ∈ Reference.scan e.text, ∀ t ∈ Reference.scan e.text,
      r ≠ t → r.name = t.name →
        ¬ ∃ d ∈ unusedRecords source options, d.message = unusedMessage r.name := by
  refine ⟨reported_iff options source, unusedRecords_eq options source,
    fun _ _ => mem_unusedBindings, pairwise_unusedBindings, nodup_unusedBindings, ?_, ?_⟩
  · intro e he hform r hr
    rw [reported_iff]
    exact not_onlyIntroduced_of_matching he hform hr
  · intro e he r hr t ht hne hname
    rw [reported_iff]
    exact not_onlyIntroduced_of_repeated he hr ht hne hname

end DefUse
