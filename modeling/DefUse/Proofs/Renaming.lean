import DefUse.Proofs.AlignedBindings
import DefUse.Proofs.ReportBlocks

/-!
# Renaming the variables of a source

A `Renaming` maps names to names and keeps different names apart.  `Renaming.apply` writes a source anew
with each of its references replaced by the reference to the new name.  All offsets behind the first
reference move with the lengths of the names, but the two sources are aligned (`aligned_apply`), so
they have the same lines and expressions, and these bind and use corresponding names (`binds_iff`,
`uses_iff`).

Two runs of the checker over corresponding expressions go through corresponding states:
`Checker.Renamed` is kept by one expression (`checkExpression_renamed`) and so by all of them
(`checkAll_renamed`).  What is reported at the end is the same but for the names
(`finish_renamed`).
-/

namespace DefUse

open Text Reference

/-! ## Writing a source anew -/

/-- The characters of `cs` that start before byte `n`. -/
def Text.takeBytes : Nat → List Char → List Char
  | 0, _ => []
  | _ + 1, [] => []
  | n + 1, c :: cs => c :: takeBytes (n + 1 - c.utf8Size) cs

theorem Text.takeBytes_zero (cs : List Char) : takeBytes 0 cs = [] := by
  cases cs <;> rfl

/-- A map of names to names under which different names stay different. -/
structure Renaming where
  toFun : String → String
  isName : ∀ n, IsName n → IsName (toFun n)
  injective : ∀ m n, IsName m → IsName n → toFun m = toFun n → m = n

instance : CoeFun Renaming fun _ => String → String := ⟨Renaming.toFun⟩

/-- Replaces the references `rs` of a text.  Its characters from `offset` on are `cs`, and what stands
before is written already. -/
def replaceFrom (f : String → String) (offset : Nat) : List Reference → List Char → List Char
  | [], cs => cs
  | r :: rs, cs =>
    takeBytes (r.offset - offset) cs ++ (f r.name).toList ++
      replaceFrom f r.stop rs (dropBytes (r.stop - offset) cs)

/-- The source with every reference replaced by the one to the new name. -/
def Renaming.apply (ρ : Renaming) (source : String) : String :=
  String.ofList (replaceFrom ρ 0 (scan source) source.toList)

section

variable {f : String → String} {offset : Nat} {cs : List Char}

/-- A character before the first reference is kept. -/
theorem replaceFrom_cons {c : Char} {rs : List Reference}
    (h : ∀ r ∈ rs, offset + c.utf8Size ≤ r.offset) :
    replaceFrom f offset rs (c :: cs) = c :: replaceFrom f (offset + c.utf8Size) rs cs := by
  have hc := c.utf8Size_pos
  cases rs with
  | nil => rfl
  | cons r rs =>
    have hr := h r List.mem_cons_self
    have hstop : r.offset ≤ r.stop := Nat.le_add_right _ _
    obtain ⟨i, hi⟩ : ∃ i, r.offset - offset = i + 1 := ⟨r.offset - offset - 1, by omega⟩
    obtain ⟨j, hj⟩ : ∃ j, r.stop - offset = j + 1 := ⟨r.stop - offset - 1, by omega⟩
    unfold replaceFrom
    rw [hi, hj, takeBytes, dropBytes, ← hi, ← hj, Nat.sub_sub, Nat.sub_sub]
    rfl

/-- A reference at the head of the text is replaced. -/
theorem replaceFrom_name {name : String} {rs : List Reference} :
    replaceFrom f offset (⟨name, offset⟩ :: rs) (name.toList ++ cs) =
      (f name).toList ++ replaceFrom f (offset + byteLength name.toList) rs cs := by
  have hstop : stop ⟨name, offset⟩ = offset + byteLength name.toList := by
    rw [byteLength_toList]
    rfl
  rw [replaceFrom, hstop, Nat.sub_self, takeBytes_zero, List.nil_append, Nat.add_sub_cancel_left,
    dropBytes_byteLength]

theorem head?_of_here?_eq_none {before : Option Char} {c : Char}
    (h : here? before offset (c :: cs) = none) (hbefore : before.any isIdentifierChar = false)
    (hc : c = '$') : ∀ d ∈ cs.head?, isIdentifierChar d = false := by
  intro d hd
  obtain ⟨cs, rfl⟩ := List.head?_eq_some_iff.1 hd
  apply Classical.byContradiction
  intro hd
  rw [Bool.not_eq_false] at hd
  unfold here? leading? at h
  rw [hbefore] at h
  dsimp only at h
  rw [if_pos hc, List.takeWhile_cons, hd] at h
  cases h

end

namespace Renaming

variable (ρ : Renaming)

/-- A name and its image. -/
def Image (n n' : String) : Prop := IsName n ∧ n' = ρ n

/-- Replacing the references that a scan finds gives a text aligned with the first. -/
theorem aligned_replaceFrom (before : Option Char) (offset : Nat) (cs : List Char) :
    Aligned ρ.Image (before.any isIdentifierChar) cs
      (replaceFrom ρ offset (scanFrom before offset cs) cs) := by
  -- a reference is replaced as a whole, so the induction is on the length and not on the list
  induction hlength : cs.length using Nat.strongRecOn generalizing before offset cs with
  | _ length ih =>
    cases cs with
    | nil => exact .nil _
    | cons c cs =>
      cases hhere : here? before offset (c :: cs) with
      | none =>
        have hlater : ∀ r ∈ scanFrom (some c) (offset + c.utf8Size) cs,
            offset + c.utf8Size ≤ r.offset := fun r hr => le_offset_of_mem_scanFrom hr
        rw [scanFrom_cons, hhere, Option.toList_none, List.nil_append, replaceFrom_cons hlater]
        refine .char (head?_of_here?_eq_none hhere) ?_
        exact ih cs.length (by rw [← hlength]; exact Nat.lt_succ_self _) (some c) _ cs rfl
      | some r =>
        obtain ⟨hbefore, hname, -, rest, hcs, hend⟩ := exists_name_of_here? hhere
        have hshort : rest.length < length := by
          have := List.length_pos_iff.2 hname.ne_nil
          rw [← hlength, hcs, List.length_append]
          omega
        rw [hcs, scanFrom_name hbefore hname hend, replaceFrom_name, hbefore]
        refine .name hname (ρ.isName _ hname) ⟨hname, rfl⟩ hend ?_
        have hrest := ih rest.length hshort r.name.toList.getLast?
          (offset + byteLength r.name.toList) rest rfl
        rwa [hname.getLast?] at hrest

/-- A source and the renamed one are the same but for their names. -/
theorem aligned_apply (source : String) :
    Aligned ρ.Image false source.toList (ρ.apply source).toList := by
  unfold apply
  rw [String.toList_ofList]
  exact ρ.aligned_replaceFrom none 0 source.toList

/-! ## Lists of names -/

section

variable {ρ} {m n : String} {ns ns' : List String}

theorem eq_iff (hm : IsName m) (hn : IsName n) : ρ m = ρ n ↔ m = n :=
  ⟨ρ.injective m n hm hn, fun h => by rw [h]⟩

theorem forall₂_image (h : List.Forall₂ ρ.Image ns ns') :
    (∀ n ∈ ns, IsName n) ∧ ns' = ns.map ρ := by
  induction h with
  | nil => exact ⟨List.forall_mem_nil _, rfl⟩
  | cons himage _ ih =>
    obtain ⟨hn, rfl⟩ := himage
    refine ⟨List.forall_mem_cons.2 ⟨hn, ih.1⟩, ?_⟩
    rw [ih.2]
    rfl

theorem mem_map_iff (hns : ∀ m ∈ ns, IsName m) (hn : IsName n) : ρ n ∈ ns.map ρ ↔ n ∈ ns := by
  rw [List.mem_map]
  constructor
  · rintro ⟨m, hm, heq⟩
    rwa [← (eq_iff (hns m hm) hn).1 heq]
  · intro h
    exact ⟨n, h, rfl⟩

/-- A renaming is injective, so it keeps how often a name occurs. -/
theorem count_map (hns : ∀ m ∈ ns, IsName m) (hn : IsName n) :
    (ns.map ρ).count (ρ n) = ns.count n := by
  unfold List.count
  rw [List.countP_map]
  apply List.countP_congr
  intro m hm
  rw [Function.comp_apply, beq_iff_eq, beq_iff_eq, eq_iff (hns m hm) hn]

end

end Renaming

/-! ## Expressions -/

/-- A name is used if it occurs more than once, or once where it is not introduced. -/
theorem uses_iff_count {e : Expression} {name : String} :
    Uses e name ↔ ¬ (((scan e.text).map Reference.name).count name = 0 ∨
      ((scan e.text).map Reference.name).count name = 1 ∧ Binds e name ∧
        (Bindings.ofText e.text).form ≠ some .matching) := by
  have hcount : ((scan e.text).map Reference.name).count name = (occurrences e name).length := by
    unfold List.count occurrences
    rw [List.countP_map, List.countP_eq_length_filter]
    rfl
  have hform : ∀ b ∈ (Bindings.ofText e.text).sites, (Bindings.ofText e.text).form = some b.form := by
    intro b hb
    obtain ⟨-, k, hk, -⟩ := Bindings.mem_sites.1 hb
    rw [Bindings.form_ofText, hk]
    rfl
  rw [← not_iff_not, not_not, not_uses_iff, hcount, List.length_eq_zero_iff]
  refine or_congr_right ?_
  constructor
  · rintro ⟨b, hb, hmatching, hocc⟩
    have hmem : b.reference ∈ occurrences e name := by
      rw [hocc]
      exact List.mem_singleton_self _
    refine ⟨by rw [hocc]; rfl, ⟨b, hb, (mem_occurrences.1 hmem).2⟩, ?_⟩
    rwa [hform b hb, ne_eq, Option.some.injEq]
  · rintro ⟨hone, ⟨b, hb, hname⟩, hmatching⟩
    obtain ⟨r, hocc⟩ := List.length_eq_one_iff.1 hone
    have hmem : b.reference ∈ occurrences e name :=
      mem_occurrences.2 ⟨(Bindings.mem_sites.1 hb).1, hname⟩
    rw [hocc, List.mem_singleton] at hmem
    rw [hform b hb, ne_eq, Option.some.injEq] at hmatching
    exact ⟨b, hb, hmatching, by rw [hocc, hmem]⟩

/-- Two expressions with the same form on the same line, whose references correspond. -/
structure Expression.Renamed (ρ : Renaming) (e e' : Expression) : Prop where
  startLine_eq : e'.startLine = e.startLine
  form_eq : (Bindings.ofText e'.text).form = (Bindings.ofText e.text).form
  isName : ∀ n ∈ (scan e.text).map Reference.name, IsName n
  references_eq : (scan e'.text).map Reference.name = ((scan e.text).map Reference.name).map ρ
  sites_eq : (Bindings.ofText e'.text).sites.map Binding.name =
    ((Bindings.ofText e.text).sites.map Binding.name).map ρ

section

variable {ρ : Renaming} {e e' : Expression} {n : String}

/-- Expressions of aligned texts are renamed, with their bindings. -/
theorem renamed_of_aligned (h : AlignedExpression ρ.Image e e') : e.Renamed ρ e' := by
  obtain ⟨hstart, -, haligned⟩ := h
  obtain ⟨hform, hsites⟩ := sites_aligned haligned
  have hnone : (none : Option Char).any isIdentifierChar = false := rfl
  obtain ⟨hname, hreferences⟩ := Renaming.forall₂_image (haligned.scan hnone hnone 0 0)
  exact ⟨hstart, hform, hname, hreferences, (Renaming.forall₂_image hsites).2⟩

theorem binds_iff_mem : Binds e n ↔ n ∈ (Bindings.ofText e.text).sites.map Binding.name :=
  List.mem_map.symm

namespace Expression.Renamed

variable (h : e.Renamed ρ e')

include h

theorem isName_of_binds (hbinds : Binds e n) : IsName n := by
  obtain ⟨b, hb, rfl⟩ := hbinds
  exact h.isName _ (List.mem_map_of_mem (Bindings.mem_sites.1 hb).1)

/-- A renamed expression binds the renamed names. -/
theorem binds_iff (hn : IsName n) : Binds e' (ρ n) ↔ Binds e n := by
  rw [binds_iff_mem, h.sites_eq, Renaming.mem_map_iff (fun m hm => ?_) hn, binds_iff_mem]
  exact h.isName_of_binds (binds_iff_mem.2 hm)

theorem uses_iff (hn : IsName n) : Uses e' (ρ n) ↔ Uses e n := by
  rw [uses_iff_count, uses_iff_count, h.references_eq, Renaming.count_map h.isName hn, h.binds_iff hn,
    h.form_eq]

end Expression.Renamed

end

/-! ## Definitions -/

/-- The definition of the new name. -/
def Definition.rename (ρ : Renaming) (d : Definition) : Definition := { d with name := ρ d.name }

section

variable {ρ : Renaming} {ds new : List Definition}

theorem Expression.Renamed.definitions_eq {e e' : Expression} (h : e.Renamed ρ e') :
    e'.definitions = e.definitions.map (Definition.rename ρ) := by
  have hdefinitions : ∀ e : Expression, e.definitions =
      ((Bindings.ofText e.text).sites.map Binding.name).map fun n => ⟨n, e.startLine⟩ := by
    intro e
    rw [List.map_map]
    rfl
  rw [hdefinitions, hdefinitions, h.sites_eq, h.startLine_eq]
  generalize (Bindings.ofText e.text).sites.map Binding.name = ns
  rw [List.map_map, List.map_map]
  rfl

theorem exists_name_rename (hds : ∀ x ∈ ds, IsName x.name) {n : String} (hn : IsName n) :
    (∃ x ∈ ds.map (Definition.rename ρ), x.name = ρ n) ↔ ∃ x ∈ ds, x.name = n := by
  constructor
  · rintro ⟨_, hx, hname⟩
    obtain ⟨x, hmem, rfl⟩ := List.mem_map.1 hx
    exact ⟨x, hmem, (Renaming.eq_iff (hds x hmem) hn).1 hname⟩
  · rintro ⟨x, hx, rfl⟩
    exact ⟨x.rename ρ, List.mem_map_of_mem hx, rfl⟩

theorem addTo_rename (hds : ∀ x ∈ ds, IsName x.name) {d : Definition} (hd : IsName d.name) :
    Definition.addTo (ds.map (Definition.rename ρ)) (d.rename ρ) =
      (Definition.addTo ds d).map (Definition.rename ρ) := by
  have hsame := exists_name_rename (ρ := ρ) hds hd
  by_cases hthere : ∃ x ∈ ds, x.name = d.name
  · rw [Definition.addTo_of_exists hthere, Definition.addTo_of_exists (hsame.2 hthere)]
  · rw [Definition.addTo_of_not_exists hthere, Definition.addTo_of_not_exists (mt hsame.1 hthere),
      List.map_append]
    rfl

theorem isName_of_mem_foldl_addTo (hds : ∀ x ∈ ds, IsName x.name) (hnew : ∀ x ∈ new, IsName x.name) :
    ∀ x ∈ new.foldl Definition.addTo ds, IsName x.name := by
  intro x hx
  rcases exists_name_foldl_addTo.1 ⟨x, hx, rfl⟩ with ⟨y, hy, heq⟩ | ⟨y, hy, heq⟩
  · rw [← heq]
    exact hds y hy
  · rw [← heq]
    exact hnew y hy

/-- Renamed definitions are added as the definitions are. -/
theorem foldl_addTo_rename (hds : ∀ x ∈ ds, IsName x.name) (hnew : ∀ x ∈ new, IsName x.name) :
    (new.map (Definition.rename ρ)).foldl Definition.addTo (ds.map (Definition.rename ρ)) =
      (new.foldl Definition.addTo ds).map (Definition.rename ρ) := by
  induction new generalizing ds with
  | nil => rfl
  | cons d new ih =>
    obtain ⟨hd, hnew⟩ := List.forall_mem_cons.1 hnew
    rw [List.map_cons, List.foldl_cons, List.foldl_cons, addTo_rename hds hd]
    exact ih (isName_of_mem_foldl_addTo hds (List.forall_mem_singleton.2 hd)) hnew

end

/-! ## Checks -/

/-- Two diagnostics that differ in the name they speak of only. -/
structure Diagnostic.Renamed (ρ : Renaming) (d d' : Diagnostic) : Prop where
  line_eq : d'.line = d.line
  code_eq : d'.code = d.code
  severity_eq : d'.severity = d.severity
  file_eq : d'.file = d.file
  message : (d.code = 1001 ∧ ∃ n, IsName n ∧ d.message = undefinedMessage n ∧
      d'.message = undefinedMessage (ρ n)) ∨
    (d.code = 1002 ∧ ∃ n, IsName n ∧ d.message = unusedMessage n ∧ d'.message = unusedMessage (ρ n)) ∨
    d.code = 1003 ∧ d'.message = d.message

section

variable {ρ : Renaming} {n : String}

theorem renamed_undefinedUse (hn : IsName n) (line : Nat) :
    ((Finding.undefinedUse n).diagnostic line).Renamed ρ
      ((Finding.undefinedUse (ρ n)).diagnostic line) := by
  rw [undefinedUse_diagnostic, undefinedUse_diagnostic]
  exact ⟨rfl, rfl, rfl, rfl, Or.inl ⟨rfl, n, hn, rfl, rfl⟩⟩

theorem renamed_unusedDefinition (hn : IsName n) (line : Nat) :
    ((Finding.unusedDefinition n).diagnostic line).Renamed ρ
      ((Finding.unusedDefinition (ρ n)).diagnostic line) := by
  rw [unusedDefinition_diagnostic, unusedDefinition_diagnostic]
  exact ⟨rfl, rfl, rfl, rfl, Or.inr (Or.inl ⟨rfl, n, hn, rfl, rfl⟩)⟩

theorem renamed_neverClosed (depth : Int) (line : Nat) :
    ((Finding.neverClosed depth).diagnostic line).Renamed ρ
      ((Finding.neverClosed depth).diagnostic line) :=
  ⟨rfl, rfl, rfl, rfl, Or.inr (Or.inr ⟨rfl, rfl⟩)⟩

end

/-- Two checks in progress over corresponding expressions. -/
structure Checker.Renamed (ρ : Renaming) (c c' : Checker FileScope) : Prop where
  options_eq : c'.options = c.options
  definitions_eq : c'.scope.definitions = c.scope.definitions.map (Definition.rename ρ)
  isName : ∀ d ∈ c.scope.definitions, IsName d.name
  isUsed_eq : ∀ n, IsName n → c'.scope.isUsed (ρ n) = c.scope.isUsed n
  diagnostics : List.Forall₂ (Diagnostic.Renamed ρ) c.diagnostics c'.diagnostics
  expressions_eq : c'.expressions = c.expressions
  references_eq : c'.references = c.references

namespace Checker

variable {ρ : Renaming} {c c' : Checker FileScope}

theorem renamed_start (ρ : Renaming) (options : CheckOptions) :
    (start options FileScope.empty).Renamed ρ (start options FileScope.empty) :=
  ⟨rfl, rfl, List.forall_mem_nil _, fun _ _ => rfl, .nil, rfl, rfl⟩

theorem Renamed.isDefined_eq (h : c.Renamed ρ c') {n : String} (hn : IsName n) :
    c'.scope.isDefined (ρ n) = c.scope.isDefined n := by
  rw [Bool.eq_iff_iff, FileScope.isDefined_iff, FileScope.isDefined_iff, h.definitions_eq,
    exists_name_rename h.isName hn]

/-- Where the same names are defined, the references that are not correspond. -/
theorem undefinedReports_renamed {e e' : Expression} (he : e.Renamed ρ e') {s s' : FileScope}
    (hs : ∀ n, IsName n → s'.isDefined (ρ n) = s.isDefined n) :
    List.Forall₂ (Diagnostic.Renamed ρ)
      (((scan e.text).filter fun r => !s.isDefined r.name).map
        fun r => (Finding.undefinedUse r.name).diagnostic e.startLine)
      (((scan e'.text).filter fun r => !s'.isDefined r.name).map
        fun r => (Finding.undefinedUse r.name).diagnostic e'.startLine) := by
  -- the reports depend on the names of the references only
  have hnames : ∀ (e : Expression) (s : FileScope),
      (((scan e.text).filter fun r => !s.isDefined r.name).map
        fun r => (Finding.undefinedUse r.name).diagnostic e.startLine) =
      (((scan e.text).map Reference.name).filter fun n => !s.isDefined n).map
        fun n => (Finding.undefinedUse n).diagnostic e.startLine := by
    intro e s
    rw [List.filter_map, List.map_map]
    rfl
  have hname := he.isName
  rw [hnames, hnames, he.references_eq, he.startLine_eq]
  generalize (scan e.text).map Reference.name = ns at hname
  have hsame : ns.filter ((fun n => !s'.isDefined n) ∘ ρ) = ns.filter fun n => !s.isDefined n := by
    apply List.filter_congr
    intro n hn
    rw [Function.comp_apply, hs n (hname n hn)]
  rw [List.filter_map, hsame, List.map_map, List.forall₂_map_left_iff, List.forall₂_map_right_iff,
    List.forall₂_same]
  intro n hn
  exact renamed_undefinedUse (hname n (List.mem_of_mem_filter hn)) _

/-- One expression keeps two runs renamed. -/
theorem checkExpression_renamed {e e' : Expression} (h : c.Renamed ρ c') (he : e.Renamed ρ e') :
    (c.checkExpression e).Renamed ρ (c'.checkExpression e') := by
  have hnew : ∀ d ∈ e.definitions, IsName d.name := fun d hd =>
    he.isName_of_binds (exists_name_definitions.1 ⟨d, hd, rfl⟩)
  have hreferences : (scan e'.text).length = (scan e.text).length := by
    simpa using congrArg List.length he.references_eq
  refine ⟨?_, ?_, ?_, ?_, ?_, ?_, ?_⟩
  · rw [options_checkExpression, options_checkExpression, h.options_eq]
  · rw [definitions_checkExpression, definitions_checkExpression, h.definitions_eq, he.definitions_eq,
      foldl_addTo_rename h.isName hnew]
  · rw [definitions_checkExpression]
    exact isName_of_mem_foldl_addTo h.isName hnew
  · intro n hn
    rw [Bool.eq_iff_iff, isUsed_checkExpression, isUsed_checkExpression, h.isUsed_eq n hn,
      he.uses_iff hn]
  · rw [diagnostics_checkExpression, diagnostics_checkExpression]
    refine List.rel_append h.diagnostics (undefinedReports_renamed he fun n hn => ?_)
    rw [Bool.eq_iff_iff, isDefined_checkExpression, isDefined_checkExpression, h.isDefined_eq hn,
      he.binds_iff hn]
  · rw [expressions_checkExpression, expressions_checkExpression, h.expressions_eq]
  · rw [references_checkExpression, references_checkExpression, h.references_eq, hreferences]

theorem checkAll_renamed {es es' : List Expression} (h : c.Renamed ρ c')
    (hes : List.Forall₂ (Expression.Renamed ρ) es es') :
    (c.checkAll es).Renamed ρ (c'.checkAll es') := by
  induction hes generalizing c c' with
  | nil => exact h
  | cons he _ ih => exact ih (checkExpression_renamed h he)

/-- The unused definitions of renamed runs are reported in the same order. -/
theorem unusedReports_renamed (h : c.Renamed ρ c') :
    List.Forall₂ (Diagnostic.Renamed ρ) c.unusedReports c'.unusedReports := by
  have hunused : c'.scope.unused = c.scope.unused.map (Definition.rename ρ) := by
    unfold FileScope.unused
    rw [h.definitions_eq, List.filter_map]
    refine congrArg _ (List.filter_congr fun d hd => ?_)
    show (!c'.scope.isUsed (ρ d.name)) = !c.scope.isUsed d.name
    rw [h.isUsed_eq _ (h.isName d hd)]
  unfold unusedReports
  rw [h.options_eq]
  split
  · show List.Forall₂ _ (c.scope.unused.map _) (c'.scope.unused.map _)
    rw [hunused, List.map_map, List.forall₂_map_left_iff, List.forall₂_map_right_iff,
      List.forall₂_same]
    intro d hd
    exact renamed_unusedDefinition (h.isName d (List.mem_of_mem_filter hd)) _
  · exact .nil

theorem openReports_renamed {r r' : Option Remainder} (h : c.Renamed ρ c')
    (hr : Option.Rel (AlignedRemainder ρ.Image) r r') :
    List.Forall₂ (Diagnostic.Renamed ρ) (c.openReports r) (c'.openReports r') := by
  cases hr with
  | none => exact .nil
  | some hr =>
    unfold openReports
    dsimp only
    rw [h.options_eq, hr.1, hr.2.1]
    split
    · exact .cons (renamed_neverClosed _ _) .nil
    · exact .nil

/-- Renamed runs end with the same counts and renamed reports. -/
theorem finish_renamed {r r' : Option Remainder} (h : c.Renamed ρ c')
    (hr : Option.Rel (AlignedRemainder ρ.Image) r r') :
    (c'.finish r').stats = (c.finish r).stats ∧
      List.Forall₂ (Diagnostic.Renamed ρ) (c.finish r).diagnostics (c'.finish r').diagnostics := by
  have hcount : Scope.definitionCount c'.scope = Scope.definitionCount c.scope := by
    show c'.scope.definitions.length = c.scope.definitions.length
    rw [h.definitions_eq, List.length_map]
  have hopen : r'.isSome = r.isSome := by
    cases hr <;> rfl
  constructor
  · unfold finish
    dsimp only
    rw [h.expressions_eq, h.references_eq, hcount, hopen]
  · exact List.rel_append (List.rel_append h.diagnostics (unusedReports_renamed h))
      (openReports_renamed h hr)

end Checker

/-- Renaming the variables of a source changes nothing in its check but the names in the reports. -/
theorem check_equivariant_under_renaming (ρ : Renaming) (source : String) (options : CheckOptions) :
    (check (ρ.apply source) options).stats = (check source options).stats ∧
      List.Forall₂ (Diagnostic.Renamed ρ) (check source options).diagnostics
        (check (ρ.apply source) options).diagnostics := by
  obtain ⟨hexpressions, hremainder⟩ := read_aligned (ρ.aligned_apply source)
  have hrenamed : List.Forall₂ (Expression.Renamed ρ) (read source).expressions
      (read (ρ.apply source)).expressions := hexpressions.imp fun _ _ he => renamed_of_aligned he
  exact Checker.finish_renamed (Checker.checkAll_renamed (Checker.renamed_start ρ options) hrenamed)
    hremainder

/-- Every name with an underscore behind it. -/
def Renaming.lengthen : Renaming where
  toFun n := n ++ "_"
  isName := by
    rintro n ⟨run, -, hrun, heq⟩
    refine ⟨run ++ ['_'], by simp, ?_, by rw [String.toList_append, heq]; rfl⟩
    intro c hc
    rcases List.mem_append.1 hc with hc | hc
    · exact hrun c hc
    · rw [List.mem_singleton.1 hc]
      decide
  injective := by
    intro m n _ _ h
    have h := congrArg String.toList h
    rw [String.toList_append, String.toList_append] at h
    exact String.toList_inj.1 (List.append_cancel_right h)

theorem check_equivariant_under_renaming_sample :
    Renaming.lengthen.apply "(= (f $x) (g $x$y a$x $$z))\n" = "(= (f $x_) (g $x_$y a$x $$z_))\n" ∧
    (check "(= (f $x_) (g $x_$y a$x $$z_))\n" {}).stats =
      (check "(= (f $x) (g $x$y a$x $$z))\n" {}).stats ∧
    List.Forall₂ (Diagnostic.Renamed Renaming.lengthen)
      (check "(= (f $x) (g $x$y a$x $$z))\n" {}).diagnostics
      (check "(= (f $x_) (g $x_$y a$x $$z_))\n" {}).diagnostics := by
  have happly : Renaming.lengthen.apply "(= (f $x) (g $x$y a$x $$z))\n" =
      "(= (f $x_) (g $x_$y a$x $$z_))\n" := by decide +kernel
  have hcheck := check_equivariant_under_renaming Renaming.lengthen "(= (f $x) (g $x$y a$x $$z))\n" {}
  rw [happly] at hcheck
  exact ⟨happly, hcheck⟩

end DefUse
