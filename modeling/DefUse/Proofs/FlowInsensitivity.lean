import DefUse.Proofs.ReportBlocks

/-!
# Flow-insensitivity

Which names a file defines, and which it uses, depends on the texts of its expressions and not on
their order, on how often a text comes, or on the lines (`scopeOf_isDefined_eq`,
`scopeOf_isUsed_eq`).  For the uses this holds because they are told by the introductions of the
expression itself, and not by what happens to be defined already.  So the names left unused are the
same too, up to their order (`perm_unused_scopeOf`).

A scope that knows all that an expression defines and uses is not changed by it
(`scope_checkExpression_of_absorbs`), so a second check of the same expressions changes nothing
(`scope_checkAll_checkAll`).
-/

namespace DefUse

/-! ## Scopes that answer alike -/

namespace FileScope

variable {s t : FileScope}

theorem map_name_unused (s : FileScope) :
    s.unused.map Definition.name = (s.definitions.map Definition.name).filter (!s.isUsed ·) := by
  unfold unused
  rw [List.filter_map]
  rfl

theorem mem_names_iff {name : String} :
    name ∈ s.definitions.map Definition.name ↔ s.isDefined name = true := by
  rw [List.mem_map, isDefined_iff]

theorem perm_names (hs : (s.definitions.map Definition.name).Nodup)
    (ht : (t.definitions.map Definition.name).Nodup)
    (hdefined : ∀ name, s.isDefined name = t.isDefined name) :
    (s.definitions.map Definition.name).Perm (t.definitions.map Definition.name) := by
  rw [List.perm_ext_iff_of_nodup hs ht]
  intro name
  rw [mem_names_iff, mem_names_iff, hdefined]

/-- Scopes that agree on what is defined and used have the same unused names. -/
theorem perm_unused (hs : (s.definitions.map Definition.name).Nodup)
    (ht : (t.definitions.map Definition.name).Nodup)
    (hdefined : ∀ name, s.isDefined name = t.isDefined name)
    (hused : ∀ name, s.isUsed name = t.isUsed name) :
    (s.unused.map Definition.name).Perm (t.unused.map Definition.name) := by
  have hsame : (fun name => !s.isUsed name) = fun name => !t.isUsed name := by
    funext name
    rw [hused]
  rw [map_name_unused, map_name_unused, hsame]
  exact (perm_names hs ht hdefined).filter _

/-! ## Scopes that take nothing in -/

theorem define_of_isDefined {name : String} (h : s.isDefined name = true) (line : Nat) :
    s.define name line = s :=
  if_pos h

theorem recordUse_of_isUsed {name : String} (h : s.isUsed name = true) : s.recordUse name = s := by
  unfold recordUse
  rw [List.insert_of_mem (isUsed_iff.1 h)]

theorem foldl_define_of_isDefined {bs : List Binding} (h : ∀ b ∈ bs, s.isDefined b.name = true)
    (line : Nat) : bs.foldl (fun s b => Scope.define s b.name line) s = s := by
  induction bs with
  | nil => rfl
  | cons b bs ih =>
    have hb : Scope.define s b.name line = s := define_of_isDefined (h b List.mem_cons_self) line
    rw [List.foldl_cons, hb]
    exact ih fun d hd => h d (List.mem_cons_of_mem b hd)

theorem foldl_recordUse_of_isUsed {rs : List Reference} (h : ∀ r ∈ rs, s.isUsed r.name = true) :
    rs.foldl (fun s r => Scope.recordUse s r.name) s = s := by
  induction rs with
  | nil => rfl
  | cons r rs ih =>
    have hr : Scope.recordUse s r.name = s := recordUse_of_isUsed (h r List.mem_cons_self)
    rw [List.foldl_cons, hr]
    exact ih fun t ht => h t (List.mem_cons_of_mem r ht)

/-- The scope knows every name that the expression defines or uses. -/
def Absorbs (s : FileScope) (e : Expression) : Prop :=
  (∀ name, Binds e name → s.isDefined name = true) ∧ ∀ name, Uses e name → s.isUsed name = true

end FileScope

namespace Checker

variable {c : Checker FileScope} {e : Expression} {es : List Expression}

/-- An expression tells a scope that absorbs it nothing new. -/
theorem scope_checkExpression_of_absorbs (h : c.scope.Absorbs e) :
    (c.checkExpression e).scope = c.scope := by
  have hdefined : (Bindings.ofText e.text).sites.foldl
      (fun s b => Scope.define s b.name e.startLine) c.scope = c.scope :=
    FileScope.foldl_define_of_isDefined (fun b hb => h.1 b.name ⟨b, hb, rfl⟩) _
  rw [scope_checkExpression, hdefined]
  apply FileScope.foldl_recordUse_of_isUsed
  intro r hr
  obtain ⟨hscan, hsite⟩ := List.mem_filter.1 hr
  exact h.2 r.name ⟨r, hscan, rfl, by simpa using hsite⟩

theorem scope_checkAll_of_absorbs (h : ∀ e ∈ es, c.scope.Absorbs e) :
    (c.checkAll es).scope = c.scope := by
  induction es generalizing c with
  | nil => rfl
  | cons e es ih =>
    have hstep := scope_checkExpression_of_absorbs (h e List.mem_cons_self)
    rw [checkAll_cons, ih, hstep]
    intro f hf
    rw [hstep]
    exact h f (List.mem_cons_of_mem e hf)

/-- After a run the scope absorbs each of its expressions. -/
theorem absorbs_checkAll (c : Checker FileScope) (he : e ∈ es) :
    (c.checkAll es).scope.Absorbs e := by
  constructor
  · intro name hbinds
    exact (isDefined_checkAll c es name).2 (Or.inr ⟨e, he, hbinds⟩)
  · intro name huses
    exact (isUsed_checkAll c es name).2 (Or.inr ⟨e, he, huses⟩)

/-- A second run over the same expressions changes nothing. -/
theorem scope_checkAll_checkAll (c : Checker FileScope) (es : List Expression) :
    ((c.checkAll es).checkAll es).scope = (c.checkAll es).scope :=
  scope_checkAll_of_absorbs fun _ he => absorbs_checkAll c he

end Checker

/-! ## The scope of a file -/

/-- The scope that a file made of the given expressions ends with. -/
def scopeOf (options : CheckOptions) (es : List Expression) : FileScope :=
  ((Checker.start options FileScope.empty).checkAll es).scope

/-- The same texts, in any order and number, and on any lines. -/
def SameTexts (es fs : List Expression) : Prop :=
  ∀ text, text ∈ es.map Expression.text ↔ text ∈ fs.map Expression.text

theorem SameTexts.exists_iff {es fs : List Expression} (h : SameTexts es fs) (p : String → Prop) :
    (∃ e ∈ es, p e.text) ↔ ∃ f ∈ fs, p f.text := by
  have hmap : ∀ l : List Expression,
      (∃ e ∈ l, p e.text) ↔ ∃ text ∈ l.map Expression.text, p text := by
    intro l
    simp
  rw [hmap, hmap]
  exact exists_congr fun text => and_congr_left fun _ => h text

section

variable (options options' : CheckOptions) {es fs : List Expression}

theorem nodup_names_scopeOf (es : List Expression) :
    ((scopeOf options es).definitions.map Definition.name).Nodup := by
  unfold scopeOf
  rw [Checker.definitions_checkAll]
  exact nodup_foldl_addTo List.nodup_nil

variable (h : SameTexts es fs)

include h

/-- What is defined after a run depends only on the set of texts. -/
theorem scopeOf_isDefined_eq (name : String) :
    (scopeOf options es).isDefined name = (scopeOf options' fs).isDefined name := by
  rw [Bool.eq_iff_iff]
  unfold scopeOf
  rw [Checker.isDefined_checkAll, Checker.isDefined_checkAll]
  exact or_congr Iff.rfl (h.exists_iff fun text => ∃ b ∈ (Bindings.ofText text).sites, b.name = name)

theorem scopeOf_isUsed_eq (name : String) :
    (scopeOf options es).isUsed name = (scopeOf options' fs).isUsed name := by
  rw [Bool.eq_iff_iff]
  unfold scopeOf
  rw [Checker.isUsed_checkAll, Checker.isUsed_checkAll]
  exact or_congr Iff.rfl (h.exists_iff fun text => ∃ r ∈ Reference.scan text, r.name = name ∧
    (Bindings.ofText text).isIntroductionSite r.offset = false)

theorem scopeOf_definitionCount_eq :
    (scopeOf options es).definitionCount = (scopeOf options' fs).definitionCount := by
  have hperm := FileScope.perm_names (nodup_names_scopeOf options es)
    (nodup_names_scopeOf options' fs) (scopeOf_isDefined_eq options options' h)
  simpa [FileScope.definitionCount] using hperm.length_eq

theorem perm_unused_scopeOf :
    ((scopeOf options es).unused.map Definition.name).Perm
      ((scopeOf options' fs).unused.map Definition.name) :=
  FileScope.perm_unused (nodup_names_scopeOf options es) (nodup_names_scopeOf options' fs)
    (scopeOf_isDefined_eq options options' h) (scopeOf_isUsed_eq options options' h)

end

/-- What a file defines, uses and leaves unused depends on the set of the texts of its expressions
alone: not on their order or number, nor on the lines on which they stand.  To check the same
expressions again in the same state changes nothing in its scope. -/
theorem analysis_flow_insensitive :
    (∀ (options options' : CheckOptions) (es fs : List Expression),
      (∀ text, text ∈ es.map Expression.text ↔ text ∈ fs.map Expression.text) →
      (∀ name, (scopeOf options es).isDefined name = (scopeOf options' fs).isDefined name) ∧
      (∀ name, (scopeOf options es).isUsed name = (scopeOf options' fs).isUsed name) ∧
      (scopeOf options es).definitionCount = (scopeOf options' fs).definitionCount ∧
      ((scopeOf options es).unused.map Definition.name).Perm
        ((scopeOf options' fs).unused.map Definition.name)) ∧
    ∀ (c : Checker FileScope) (es : List Expression),
      ((c.checkAll es).checkAll es).scope = (c.checkAll es).scope := by
  constructor
  · intro options options' es fs h
    exact ⟨scopeOf_isDefined_eq options options' h, scopeOf_isUsed_eq options options' h,
      scopeOf_definitionCount_eq options options' h, perm_unused_scopeOf options options' h⟩
  · intro c es
    exact Checker.scope_checkAll_checkAll c es

/-- The same names are left unused in both files, which define them in different orders. -/
theorem analysis_flow_insensitive_sample :
    (scopeOf {} [⟨1, 1, "(let $a 1 2)"⟩, ⟨2, 2, "(f $c)"⟩, ⟨3, 3, "(= (f $b) $c)"⟩]).unused =
      [⟨"$a", 1⟩, ⟨"$b", 3⟩] ∧
    ((scopeOf {} [⟨5, 5, "(= (f $b) $c)"⟩, ⟨6, 6, "(let $a 1 2)"⟩, ⟨7, 7, "(f $c)"⟩,
      ⟨8, 8, "(= (f $b) $c)"⟩]).unused.map Definition.name).Perm ["$a", "$b"] := by
  have hunused : (scopeOf {} [⟨1, 1, "(let $a 1 2)"⟩, ⟨2, 2, "(f $c)"⟩,
      ⟨3, 3, "(= (f $b) $c)"⟩]).unused = [⟨"$a", 1⟩, ⟨"$b", 3⟩] := by decide
  refine ⟨hunused, ?_⟩
  have hperm := (analysis_flow_insensitive.1 {} {}
    [⟨5, 5, "(= (f $b) $c)"⟩, ⟨6, 6, "(let $a 1 2)"⟩, ⟨7, 7, "(f $c)"⟩, ⟨8, 8, "(= (f $b) $c)"⟩]
    [⟨1, 1, "(let $a 1 2)"⟩, ⟨2, 2, "(f $c)"⟩, ⟨3, 3, "(= (f $b) $c)"⟩] (by simp)).2.2.2
  rwa [hunused] at hperm

end DefUse
