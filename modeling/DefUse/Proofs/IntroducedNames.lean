import DefUse.Proofs.Introduction
import Mathlib.Data.List.Dedup

/-!
# Introductions and the names they introduce

An introducing form introduces each name that it binds exactly once, at the first binding of that name.

- a name that is bound has a first binding (`exists_isFirst`), and only one (`IsFirst.unique`);
- an offset is an introduction site exactly if a first binding of an introducing form stands there
  (`isIntroductionSite_iff_isFirst`), so a `match` and a text without a form have none;
- the names of the introductions are the distinct names bound, in some order
  (`names_introductions`), and all other references of the text are uses.
-/

namespace DefUse.Bindings

/-- The form is one whose bindings introduce their names. -/
def Introduces (bs : Bindings) : Prop :=
  bs.form = some .rule ∨ bs.form = some .letOne ∨ bs.form = some .letStar

instance (bs : Bindings) : Decidable bs.Introduces := inferInstanceAs (Decidable (_ ∨ _ ∨ _))

/-- Of all bindings of its name, `b` has the smallest offset. -/
structure IsFirst (bs : Bindings) (b : Binding) : Prop where
  mem : b ∈ bs.sites
  le : ∀ s ∈ bs.sites, s.name = b.name → b.offset ≤ s.offset

/-- The references of a text that introduce their names. -/
def introductions (text : String) : List Reference :=
  (Reference.scan text).filter fun r => (ofText text).isIntroductionSite r.offset

/-- The references of a text that introduce nothing. -/
def uses (text : String) : List Reference :=
  (Reference.scan text).filter fun r => !(ofText text).isIntroductionSite r.offset

/-- The distinct names that a text introduces. -/
def introducedNames (text : String) : List String :=
  if (ofText text).form = some .matching then [] else ((ofText text).sites.map Binding.name).dedup

section

variable {text : String} {b : Binding} {name : String}

/-! ## First bindings -/

/-- A name has one first binding. -/
theorem IsFirst.unique {b' : Binding} (h : (ofText text).IsFirst b) (h' : (ofText text).IsFirst b')
    (hname : b.name = b'.name) : b = b' := by
  have hle := h.le b' h'.mem hname.symm
  have hge := h'.le b h.mem hname
  exact eq_of_pairwise_lt (f := Binding.offset) (pairwise_sites text) h.mem h'.mem (by omega)

theorem exists_isFirst (hb : b ∈ (ofText text).sites) :
    ∃ d, (ofText text).IsFirst d ∧ d.name = b.name := by
  cases hfind : (ofText text).sites.find? (·.name == b.name) with
  | none => simpa using List.find?_eq_none.1 hfind b hb
  | some d =>
    have hname : d.name = b.name := by simpa using List.find?_some hfind
    refine ⟨d, ⟨List.mem_of_find?_eq_some hfind, fun s hs hsname => ?_⟩, hname⟩
    exact le_of_find? (f := Binding.offset) (pairwise_sites text) hfind hs (by simp [hsname, hname])

/-- The first binding of a name precedes all other bindings of it. -/
theorem IsFirst.lt {s : Binding} (h : (ofText text).IsFirst b) (hs : s ∈ (ofText text).sites)
    (hname : s.name = b.name) (hne : s ≠ b) : b.offset < s.offset := by
  apply Nat.lt_of_le_of_ne (h.le s hs hname)
  intro heq
  exact hne (eq_of_pairwise_lt (f := Binding.offset) (pairwise_sites text) hs h.mem heq.symm)

/-! ## Introduction sites -/

theorem form_of_mem_sites (hb : b ∈ (ofText text).sites) : (ofText text).form = some b.form := by
  obtain ⟨-, k, hk, -⟩ := mem_sites.1 hb
  rw [form_ofText, hk]
  rfl

theorem introduces_iff (hb : b ∈ (ofText text).sites) :
    (ofText text).Introduces ↔ b.form.introduces = true := by
  unfold Introduces
  rw [form_of_mem_sites hb]
  cases b.form <;> decide

/-- Names are introduced at their first bindings, if the form introduces any. -/
theorem isIntroductionSite_iff_isFirst {offset : Nat} :
    (ofText text).isIntroductionSite offset = true ↔
      (ofText text).Introduces ∧ ∃ b, (ofText text).IsFirst b ∧ b.offset = offset := by
  rw [isIntroductionSite_iff]
  constructor
  · rintro ⟨b, hb, hoffset, hintro, hmin⟩
    exact ⟨(introduces_iff hb).2 hintro, b, ⟨hb, hmin⟩, hoffset⟩
  · rintro ⟨hintro, b, hfirst, hoffset⟩
    exact ⟨b, hfirst.mem, hoffset, (introduces_iff hfirst.mem).1 hintro, hfirst.le⟩

theorem isBindingSite_of_isFirst (h : (ofText text).IsFirst b) :
    (ofText text).isBindingSite b.offset = true :=
  List.any_eq_true.2 ⟨b, h.mem, by simp⟩

/-- Each bound name has one introduction site. -/
theorem existsUnique_introductionSite (h : (ofText text).Introduces)
    (hname : name ∈ (ofText text).sites.map Binding.name) :
    ∃! offset, (ofText text).isIntroductionSite offset = true ∧
      ∃ b ∈ (ofText text).sites, b.offset = offset ∧ b.name = name := by
  obtain ⟨b, hb, rfl⟩ := List.mem_map.1 hname
  obtain ⟨d, hfirst, hd⟩ := exists_isFirst hb
  refine ⟨d.offset, ⟨isIntroductionSite_iff_isFirst.2 ⟨h, d, hfirst, rfl⟩, d, hfirst.mem, rfl, hd⟩, ?_⟩
  rintro offset ⟨hsite, s, hs, rfl, hsname⟩
  obtain ⟨-, d', hfirst', hoffset⟩ := isIntroductionSite_iff_isFirst.1 hsite
  obtain rfl : d' = s :=
    eq_of_pairwise_lt (f := Binding.offset) (pairwise_sites text) hfirst'.mem hs hoffset
  rw [hfirst'.unique hfirst (hsname.trans hd.symm)]

/-! ## The references split -/

/-- The introductions are the references of the first bindings. -/
theorem mem_introductions {r : Reference} : r ∈ introductions text ↔
    (ofText text).Introduces ∧ ∃ b, (ofText text).IsFirst b ∧ b.reference = r := by
  unfold introductions
  rw [List.mem_filter, isIntroductionSite_iff_isFirst]
  constructor
  · rintro ⟨hr, hintro, b, hfirst, hoffset⟩
    exact ⟨hintro, b, hfirst, Reference.eq_of_mem_scan (mem_sites.1 hfirst.mem).1 hr hoffset⟩
  · rintro ⟨hintro, b, hfirst, rfl⟩
    exact ⟨(mem_sites.1 hfirst.mem).1, hintro, b, hfirst, rfl⟩

theorem nodup_names_introductions (text : String) :
    ((introductions text).map Reference.name).Nodup := by
  have hnodup : (introductions text).Nodup :=
    ((Reference.pairwise_scan text).imp fun {a b} hlt heq => by rw [heq] at hlt; omega).filter _
  refine hnodup.map_on ?_
  intro r hr r' hr' hname
  obtain ⟨-, b, hfirst, rfl⟩ := mem_introductions.1 hr
  obtain ⟨-, b', hfirst', rfl⟩ := mem_introductions.1 hr'
  rw [hfirst.unique hfirst' hname]

theorem mem_introducedNames :
    name ∈ introducedNames text ↔
      (ofText text).Introduces ∧ name ∈ (ofText text).sites.map Binding.name := by
  unfold introducedNames
  split
  · rename_i hform
    simp [Introduces, hform]
  · rename_i hform
    rw [List.mem_dedup]
    refine ⟨fun hname => ⟨?_, hname⟩, And.right⟩
    obtain ⟨b, hb, -⟩ := List.mem_map.1 hname
    rw [introduces_iff hb, Form.introduces_iff]
    rintro hmatching
    exact hform (by rw [form_of_mem_sites hb, hmatching])

/-- Each distinct name is introduced by one reference. -/
theorem names_introductions (text : String) :
    ((introductions text).map Reference.name).Perm (introducedNames text) := by
  have hnodup : (introducedNames text).Nodup := by
    unfold introducedNames
    split
    · exact List.nodup_nil
    · exact List.nodup_dedup _
  rw [List.perm_ext_iff_of_nodup (nodup_names_introductions text) hnodup]
  intro name
  rw [mem_introducedNames, List.mem_map]
  constructor
  · rintro ⟨r, hr, rfl⟩
    obtain ⟨hintro, b, hfirst, rfl⟩ := mem_introductions.1 hr
    exact ⟨hintro, List.mem_map_of_mem hfirst.mem⟩
  · rintro ⟨hintro, hname⟩
    obtain ⟨b, hb, rfl⟩ := List.mem_map.1 hname
    obtain ⟨d, hfirst, hd⟩ := exists_isFirst hb
    exact ⟨d.reference, mem_introductions.2 ⟨hintro, d, hfirst, rfl⟩, hd⟩

end

/-- The introduction sites of a text are the first bindings of the names that it introduces, one for
each name.  The other references are the uses, and these are what a check records as used. -/
theorem introductions_biject_with_names (text : String) :
    (∀ offset, (ofText text).isIntroductionSite offset = true ↔
      (ofText text).Introduces ∧ ∃ b, (ofText text).IsFirst b ∧ b.offset = offset) ∧
    (∀ offset, (ofText text).isIntroductionSite offset = true →
      (ofText text).isBindingSite offset = true ∧ ∃ r ∈ Reference.scan text, r.offset = offset) ∧
    ((ofText text).Introduces → ∀ name ∈ (ofText text).sites.map Binding.name,
      ∃! offset, (ofText text).isIntroductionSite offset = true ∧
        ∃ b ∈ (ofText text).sites, b.offset = offset ∧ b.name = name) ∧
    (∀ b ∈ (ofText text).sites, (ofText text).isIntroductionSite b.offset = true →
      ∀ s ∈ (ofText text).sites, s.name = b.name → s ≠ b → b.offset < s.offset) ∧
    ((ofText text).form = some .matching ∨ (ofText text).form = none →
      ∀ offset, (ofText text).isIntroductionSite offset = false) ∧
    (introductions text ++ uses text).Perm (Reference.scan text) ∧
    ((introductions text).map Reference.name).Perm (introducedNames text) ∧
    (introductions text).length = (introducedNames text).length ∧
    ∀ {σ : Type} [Scope σ] (c : Checker σ) (startLine endLine : Nat),
      (c.checkExpression ⟨startLine, endLine, text⟩).scope =
        (uses text).foldl (fun s r => Scope.recordUse s r.name)
          ((ofText text).sites.foldl (fun s b => Scope.define s b.name startLine) c.scope) := by
  refine ⟨fun offset => isIntroductionSite_iff_isFirst, ?_,
    fun hintro name hname => existsUnique_introductionSite hintro hname, ?_, ?_,
    List.filter_append_perm _ _, names_introductions text, ?_, fun c startLine endLine => Checker.scope_checkExpression c _⟩
  · intro offset hsite
    obtain ⟨-, b, hfirst, rfl⟩ := isIntroductionSite_iff_isFirst.1 hsite
    exact ⟨isBindingSite_of_isFirst hfirst, b.reference, (mem_sites.1 hfirst.mem).1, rfl⟩
  · intro b hb hsite s hs hname hne
    obtain ⟨-, d, hfirst, hoffset⟩ := isIntroductionSite_iff_isFirst.1 hsite
    obtain rfl : d = b :=
      eq_of_pairwise_lt (f := Binding.offset) (pairwise_sites text) hfirst.mem hb hoffset
    exact hfirst.lt hs hname hne
  · intro hform offset
    rw [Bool.eq_false_iff, ne_eq, isIntroductionSite_iff_isFirst]
    rintro ⟨hintro, -⟩
    rcases hform with hform | hform <;> simp [Introduces, hform] at hintro
  · have hlength := (names_introductions text).length_eq
    rwa [List.length_map] at hlength

theorem introductions_biject_with_names_sample :
    (ofText "(= (f $x $y $x) $y)").Introduces ∧
    "$x" ∈ (ofText "(= (f $x $y $x) $y)").sites.map Binding.name ∧
    (∃! offset, (ofText "(= (f $x $y $x) $y)").isIntroductionSite offset = true ∧
      ∃ b ∈ (ofText "(= (f $x $y $x) $y)").sites, b.offset = offset ∧ b.name = "$x") ∧
    (introductions "(= (f $x $y $x) $y)").length = 2 ∧
    (ofText "(match &kb ($x $y) $x)").form = some .matching ∧
    ∀ offset, (ofText "(match &kb ($x $y) $x)").isIntroductionSite offset = false := by
  have hform : (ofText "(= (f $x $y $x) $y)").Introduces := by decide
  have hname : "$x" ∈ (ofText "(= (f $x $y $x) $y)").sites.map Binding.name := by decide
  have hmatching : (ofText "(match &kb ($x $y) $x)").form = some .matching := by decide
  obtain ⟨-, -, hunique, -, -, -, -, hlength, -⟩ :=
    introductions_biject_with_names "(= (f $x $y $x) $y)"
  obtain ⟨-, -, -, -, hnone, -⟩ := introductions_biject_with_names "(match &kb ($x $y) $x)"
  refine ⟨hform, hname, hunique hform "$x" hname, ?_, hmatching, hnone (Or.inl hmatching)⟩
  rw [hlength]
  decide

end DefUse.Bindings
