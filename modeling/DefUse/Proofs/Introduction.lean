import DefUse.Proofs.BindingSites
import DefUse.Proofs.CheckRun

/-!
# Introductions and uses

All bindings of an expression come from one form, so a reference introduces its name if that form
introduces names and no binding of the name comes before (`isIntroductionSite_iff`).  An expression
leaves a name unused exactly if the name does not occur in it, or occurs once and there as a binding
that introduces it (`not_uses_iff`).  So each name that occurs in an expression is bound or used by it
(`occurs_iff`).
-/

namespace DefUse

/-- The first hit in a list with increasing keys has the least key of all hits. -/
theorem le_of_find? {α : Type} {f : α → Nat} {p : α → Bool} {l : List α}
    (hl : l.Pairwise fun a b => f a < f b) {a b : α} (ha : l.find? p = some a) (hb : b ∈ l)
    (hp : p b = true) : f a ≤ f b := by
  obtain ⟨-, as, bs, rfl, hbefore⟩ := List.find?_eq_some_iff_append.1 ha
  rcases List.mem_append.1 hb with hb | hb
  · have := hbefore b hb
    rw [hp] at this
    cases this
  · rcases List.mem_cons.1 hb with rfl | hb
    · exact Nat.le_refl _
    · exact Nat.le_of_lt ((List.pairwise_cons.1 (List.pairwise_append.1 hl).2.1).1 b hb)

theorem Form.introduces_iff {form : Form} : form.introduces = true ↔ form ≠ .matching := by
  cases form <;> decide

namespace Bindings

/-- All bindings of an expression are made by the same form. -/
theorem form_eq_of_mem_sites {text : String} {a b : Binding} (ha : a ∈ (ofText text).sites)
    (hb : b ∈ (ofText text).sites) : a.form = b.form := by
  obtain ⟨-, k, hk, -⟩ := mem_sites.1 ha
  obtain ⟨-, l, hl, -⟩ := mem_sites.1 hb
  rw [hk] at hl
  exact (Prod.mk.inj (Option.some.inj hl)).1

/-- A name is introduced where it is bound first, by a form that introduces names. -/
theorem isIntroductionSite_iff {text : String} {offset : Nat} :
    (ofText text).isIntroductionSite offset = true ↔
      ∃ b ∈ (ofText text).sites, b.offset = offset ∧ b.form.introduces = true ∧
        ∀ s ∈ (ofText text).sites, s.name = b.name → b.offset ≤ s.offset := by
  have hsorted := pairwise_sites text
  unfold isIntroductionSite
  constructor
  · intro h
    split at h
    · cases h
    · rename_i site hsite
      have hmem := List.mem_of_find?_eq_some hsite
      have hoff : site.offset = offset := by simpa using List.find?_some hsite
      rw [Bool.and_eq_true, Option.any_eq_true] at h
      obtain ⟨hintro, first, hfirst, hfirstoff⟩ := h
      rw [beq_iff_eq] at hfirstoff
      refine ⟨site, hmem, hoff, hintro, fun s hs hname => ?_⟩
      have hle := le_of_find? (f := Binding.offset) hsorted hfirst hs (by
        rw [form_eq_of_mem_sites hs hmem, hintro, hname]
        simp)
      omega
  · rintro ⟨b, hb, rfl, hintro, hmin⟩
    have hsite : (ofText text).sites.find? (·.offset == b.offset) = some b := by
      cases hfind : (ofText text).sites.find? (·.offset == b.offset) with
      | none => simpa using List.find?_eq_none.1 hfind b hb
      | some s =>
        have hs : s.offset = b.offset := by simpa using List.find?_some hfind
        rw [eq_of_pairwise_lt (f := Binding.offset) hsorted (List.mem_of_find?_eq_some hfind) hb hs]
    rw [hsite]
    dsimp only
    rw [hintro, Bool.true_and, Option.any_eq_true]
    cases hfind : (ofText text).sites.find? fun s => s.form.introduces && s.name == b.name with
    | none => simpa [hintro] using List.find?_eq_none.1 hfind b hb
    | some first =>
      have hle := le_of_find? (f := Binding.offset) hsorted hfind hb (by simp [hintro])
      have hprop := List.find?_some hfind
      rw [Bool.and_eq_true, beq_iff_eq] at hprop
      have hge := hmin first (List.mem_of_find?_eq_some hfind) hprop.2
      exact ⟨first, rfl, by rw [beq_iff_eq]; omega⟩

end Bindings

/-- The references of an expression with a given name. -/
def occurrences (e : Expression) (name : String) : List Reference :=
  (Reference.scan e.text).filter (·.name = name)

theorem mem_occurrences {e : Expression} {name : String} {r : Reference} :
    r ∈ occurrences e name ↔ r ∈ Reference.scan e.text ∧ r.name = name := by
  simp [occurrences]

theorem pairwise_occurrences (e : Expression) (name : String) :
    (occurrences e name).Pairwise fun a b => a.offset < b.offset :=
  (Reference.pairwise_scan e.text).filter _

/-- If a name is not used, each of its occurrences is the first binding of it. -/
theorem exists_introduction {e : Expression} {name : String} (h : ¬ Uses e name) {r : Reference}
    (hr : r ∈ occurrences e name) :
    ∃ b ∈ (Bindings.ofText e.text).sites, b.reference = r ∧ b.form ≠ .matching ∧
      ∀ s ∈ (Bindings.ofText e.text).sites, s.name = name → b.offset ≤ s.offset := by
  obtain ⟨hscan, hname⟩ := mem_occurrences.1 hr
  have hsite : (Bindings.ofText e.text).isIntroductionSite r.offset = true := by
    apply Classical.byContradiction
    intro hno
    exact h ⟨r, hscan, hname, by simpa using hno⟩
  obtain ⟨b, hb, hoff, hintro, hmin⟩ := Bindings.isIntroductionSite_iff.1 hsite
  have hbr : b.reference = r := Reference.eq_of_mem_scan (Bindings.mem_sites.1 hb).1 hscan hoff
  have hbn : b.name = name := by rw [Binding.name, hbr, hname]
  exact ⟨b, hb, hbr, Form.introduces_iff.1 hintro, fun s hs hsn => hmin s hs (by rw [hsn, hbn])⟩

/-- An expression leaves a name unused if the name does not occur, or once where it is introduced. -/
theorem not_uses_iff {e : Expression} {name : String} :
    ¬ Uses e name ↔ occurrences e name = [] ∨
      ∃ b ∈ (Bindings.ofText e.text).sites, b.form ≠ .matching ∧
        occurrences e name = [b.reference] := by
  constructor
  · intro h
    cases hocc : occurrences e name with
    | nil => exact Or.inl rfl
    | cons r rest =>
      have hr : r ∈ occurrences e name := by rw [hocc]; exact List.mem_cons_self ..
      obtain ⟨b, hb, rfl, hform, hmin⟩ := exists_introduction h hr
      refine Or.inr ⟨b, hb, hform, ?_⟩
      cases rest with
      | nil => rfl
      | cons t rest =>
        -- a second occurrence would be a first binding too, and come later
        have ht : t ∈ occurrences e name := by rw [hocc]; simp
        obtain ⟨d, hd, rfl, -, hmin'⟩ := exists_introduction h ht
        have hle : d.offset ≤ b.offset := hmin' b hb (mem_occurrences.1 hr).2
        have hsorted := pairwise_occurrences e name
        rw [hocc, List.pairwise_cons] at hsorted
        have hlt : b.offset < d.offset := hsorted.1 d.reference (List.mem_cons_self ..)
        omega
  · rintro hocc ⟨r, hscan, hname, hsite⟩
    have hr : r ∈ occurrences e name := mem_occurrences.2 ⟨hscan, hname⟩
    rcases hocc with hocc | ⟨b, hb, hform, hocc⟩
    · rw [hocc] at hr
      cases hr
    · rw [hocc, List.mem_singleton] at hr
      subst hr
      have hintro : (Bindings.ofText e.text).isIntroductionSite b.reference.offset = true := by
        refine Bindings.isIntroductionSite_iff.2
          ⟨b, hb, rfl, Form.introduces_iff.2 hform, fun s hs hsn => ?_⟩
        have hs' : s.reference ∈ occurrences e name :=
          mem_occurrences.2 ⟨(Bindings.mem_sites.1 hs).1, hsn.trans hname⟩
        rw [hocc, List.mem_singleton] at hs'
        rw [Binding.offset, Binding.offset, hs']
      rw [hintro] at hsite
      cases hsite

/-- A name occurs in an expression exactly if the expression binds it or uses it. -/
theorem occurs_iff {e : Expression} {name : String} :
    (∃ r ∈ Reference.scan e.text, r.name = name) ↔ Binds e name ∨ Uses e name := by
  constructor
  · rintro ⟨r, hr, hname⟩
    by_cases huses : Uses e name
    · exact Or.inr huses
    · left
      obtain ⟨b, hb, hbr, -⟩ := exists_introduction huses (mem_occurrences.2 ⟨hr, hname⟩)
      exact ⟨b, hb, by rw [Binding.name, hbr, hname]⟩
  · rintro (⟨b, hb, hname⟩ | ⟨r, hr, hname, -⟩)
    · exact ⟨b.reference, (Bindings.mem_sites.1 hb).1, hname⟩
    · exact ⟨r, hr, hname⟩

end DefUse
