import DefUse.Proofs.ReportBlocks

/-!
# Scopes and their histories

The scope of a file is made by definitions and uses of names, in any order.  What it answers can be
read off this history:

- the definitions asked for are kept up to the first of each name (`definitions_after`), so the line
  of a name is that of its first definition (`find?_foldl_addTo`) and the names stand in the order in
  which they were first defined (`pairwise_foldl_addTo`);
- the names used are those of the uses, wherever they stand (`mem_uses_after`).

So only the sequence of the definitions and the set of the names used count, and not how the two are
mixed (`after_answers_eq`).
-/

namespace DefUse

/-- One operation on a scope. -/
inductive ScopeOp where
  | define (name : String) (line : Nat)
  | recordUse (name : String)
deriving DecidableEq

namespace ScopeOp

def apply (s : FileScope) : ScopeOp → FileScope
  | define name line => s.define name line
  | recordUse name => s.recordUse name

/-- The definition that an operation asks for. -/
def definition? : ScopeOp → Option Definition
  | define name line => some ⟨name, line⟩
  | recordUse _ => none

end ScopeOp

/-- The definitions that a history asks for, in their order. -/
def requests (history : List ScopeOp) : List Definition :=
  history.filterMap ScopeOp.definition?

/-- The scope that a history leaves behind. -/
def FileScope.after (history : List ScopeOp) : FileScope :=
  history.foldl ScopeOp.apply empty

theorem mem_requests {history : List ScopeOp} {d : Definition} :
    d ∈ requests history ↔ ScopeOp.define d.name d.line ∈ history := by
  unfold requests
  rw [List.mem_filterMap]
  constructor
  · rintro ⟨op, hop, hd⟩
    cases op with
    | define name line =>
      obtain rfl := Option.some.inj hd
      exact hop
    | recordUse name => cases hd
  · intro h
    exact ⟨_, h, rfl⟩

/-! ## The first of each name -/

section

variable (ds new : List Definition) (name : String)

theorem find?_addTo (d : Definition) :
    (Definition.addTo ds d).find? (·.name == name) =
      (ds.find? (·.name == name)).or ([d].find? (·.name == name)) := by
  by_cases h : ∃ x ∈ ds, x.name = d.name
  · rw [Definition.addTo_of_exists h]
    by_cases hd : d.name = name
    · obtain ⟨x, hx, hname⟩ := h
      have hfound : (ds.find? (·.name == name)).isSome = true := by
        rw [List.find?_isSome]
        exact ⟨x, hx, by rw [hname, hd, beq_self_eq_true]⟩
      rw [Option.or_of_isSome hfound]
    · rw [List.find?_singleton, if_neg (by rwa [beq_iff_eq]), Option.or_none]
  · rw [Definition.addTo_of_not_exists h, List.find?_append]

/-- A name keeps its first definition. -/
theorem find?_foldl_addTo :
    (new.foldl Definition.addTo ds).find? (·.name == name) =
      (ds.find? (·.name == name)).or (new.find? (·.name == name)) := by
  induction new generalizing ds with
  | nil => rw [List.foldl_nil, List.find?_nil, Option.or_none]
  | cons d new ih =>
    rw [List.foldl_cons, ih, find?_addTo, Option.or_assoc, ← List.find?_append]
    rfl

/-- Names come in the order of their first definitions. -/
theorem pairwise_foldl_addTo :
    (new.foldl Definition.addTo []).Pairwise fun d d' =>
      (new.map Definition.name).idxOf d.name < (new.map Definition.name).idxOf d'.name := by
  induction new using List.reverseRecOn with
  | nil => exact List.Pairwise.nil
  | append_singleton new last ih =>
    have hmem : ∀ d ∈ new.foldl Definition.addTo [], d.name ∈ new.map Definition.name :=
      fun d hd => mem_names_foldl_addTo.1 (List.mem_map_of_mem hd)
    -- what comes last does not move the positions of the names before it
    have hold : (new.foldl Definition.addTo []).Pairwise fun d d' =>
        ((new ++ [last]).map Definition.name).idxOf d.name <
          ((new ++ [last]).map Definition.name).idxOf d'.name := by
      refine ih.imp_of_mem ?_
      intro d d' hd hd' hlt
      rwa [List.map_append, List.idxOf_append_of_mem (hmem d hd),
        List.idxOf_append_of_mem (hmem d' hd')]
    rw [List.foldl_append, List.foldl_cons, List.foldl_nil]
    by_cases h : ∃ x ∈ new.foldl Definition.addTo [], x.name = last.name
    · rwa [Definition.addTo_of_exists h]
    · rw [Definition.addTo_of_not_exists h, List.pairwise_append]
      refine ⟨hold, List.pairwise_singleton _ _, ?_⟩
      intro d hd d' hd'
      obtain rfl := List.mem_singleton.1 hd'
      have hnew : d'.name ∉ new.map Definition.name := by
        rwa [← mem_names_foldl_addTo, List.mem_map]
      rw [List.map_append, List.idxOf_append_of_mem (hmem d hd),
        List.idxOf_append_of_notMem hnew]
      have := List.idxOf_lt_length_of_mem (hmem d hd)
      omega

end

/-- Where no name is defined twice, a definition is the one found under its name. -/
theorem mem_iff_find?_eq_some {ds : List Definition} (h : (ds.map Definition.name).Nodup)
    {d : Definition} : d ∈ ds ↔ ds.find? (·.name == d.name) = some d := by
  constructor
  · intro hd
    cases hfind : ds.find? (·.name == d.name) with
    | none => simpa using List.find?_eq_none.1 hfind d hd
    | some x =>
      have hname : x.name = d.name := by simpa using List.find?_some hfind
      rw [List.inj_on_of_nodup_map h (List.mem_of_find?_eq_some hfind) hd hname]
  · exact List.mem_of_find?_eq_some

/-! ## One operation, and a history of them -/

namespace FileScope

variable (s : FileScope) (op : ScopeOp) (history : List ScopeOp)

theorem definitions_apply :
    (op.apply s).definitions = (requests [op]).foldl Definition.addTo s.definitions := by
  cases op with
  | define name line => exact definitions_define s name line
  | recordUse name => exact definitions_recordUse s name

theorem mem_uses_apply {name : String} :
    name ∈ (op.apply s).uses ↔ name ∈ s.uses ∨ op = .recordUse name := by
  cases op with
  | define other line =>
    show name ∈ (s.define other line).uses ↔ _
    rw [uses_define]
    simp
  | recordUse other =>
    show name ∈ (s.recordUse other).uses ↔ _
    rw [mem_uses_recordUse, ScopeOp.recordUse.injEq, eq_comm]

/-- A history adds the definitions that it asks for. -/
theorem definitions_foldl_apply :
    (history.foldl ScopeOp.apply s).definitions =
      (requests history).foldl Definition.addTo s.definitions := by
  induction history generalizing s with
  | nil => rfl
  | cons op history ih =>
    have hsplit : requests (op :: history) = requests [op] ++ requests history :=
      List.filterMap_append (l := [op])
    rw [List.foldl_cons, ih, definitions_apply, hsplit, List.foldl_append]

theorem mem_uses_foldl_apply {name : String} :
    name ∈ (history.foldl ScopeOp.apply s).uses ↔
      name ∈ s.uses ∨ ScopeOp.recordUse name ∈ history := by
  induction history generalizing s with
  | nil => simp
  | cons op history ih =>
    rw [List.foldl_cons, ih, mem_uses_apply, or_assoc, List.mem_cons, eq_comm]

theorem definitions_after :
    (after history).definitions = (requests history).foldl Definition.addTo [] :=
  definitions_foldl_apply empty history

theorem mem_uses_after {name : String} :
    name ∈ (after history).uses ↔ ScopeOp.recordUse name ∈ history :=
  (mem_uses_foldl_apply empty history).trans (or_iff_right (List.not_mem_nil))

/-! ## What a scope answers -/

theorem isDefined_after {name : String} :
    (after history).isDefined name = true ↔ ∃ line, ScopeOp.define name line ∈ history := by
  rw [isDefined_iff, definitions_after, exists_name_foldl_addTo]
  constructor
  · rintro (⟨d, hd, -⟩ | ⟨d, hd, rfl⟩)
    · cases hd
    · exact ⟨d.line, mem_requests.1 hd⟩
  · rintro ⟨line, h⟩
    exact Or.inr ⟨⟨name, line⟩, mem_requests.2 h, rfl⟩

theorem isUsed_after {name : String} :
    (after history).isUsed name = true ↔ ScopeOp.recordUse name ∈ history := by
  rw [isUsed_iff, mem_uses_after]

/-- A name keeps the line of its first definition. -/
theorem definitionLine?_after (name : String) :
    (after history).definitionLine? name =
      ((requests history).find? (·.name == name)).map Definition.line := by
  unfold definitionLine?
  rw [definitions_after, find?_foldl_addTo]
  rfl

theorem definitionCount_after :
    (after history).definitionCount = ((requests history).map Definition.name).dedup.length := by
  unfold definitionCount
  rw [definitions_after, length_foldl_addTo]

theorem nodup_definitions_after : ((after history).definitions.map Definition.name).Nodup := by
  rw [definitions_after]
  exact nodup_foldl_addTo List.nodup_nil

theorem nodup_unused_after : ((after history).unused.map Definition.name).Nodup :=
  (nodup_definitions_after history).sublist (List.filter_sublist.map _)

/-- Unused definitions come in the order of their first definitions. -/
theorem pairwise_unused_after :
    (after history).unused.Pairwise fun d d' =>
      ((requests history).map Definition.name).idxOf d.name <
        ((requests history).map Definition.name).idxOf d'.name := by
  unfold unused
  rw [definitions_after]
  exact (pairwise_foldl_addTo _).filter _

/-- A definition is unused if it was the first of its name and no use was recorded. -/
theorem mem_unused_after {d : Definition} :
    d ∈ (after history).unused ↔
      (requests history).find? (·.name == d.name) = some d ∧
        ScopeOp.recordUse d.name ∉ history := by
  unfold unused
  rw [List.mem_filter, mem_iff_find?_eq_some (nodup_definitions_after history), Bool.not_eq_true',
    ← Bool.not_eq_true, isUsed_after, definitions_after, find?_foldl_addTo]
  rfl

/-- Histories with the same definitions in the same order, and with uses of the same names, leave
scopes behind that answer alike. -/
theorem after_answers_eq {history history' : List ScopeOp}
    (hdefines : requests history = requests history')
    (huses : ∀ name, ScopeOp.recordUse name ∈ history ↔ ScopeOp.recordUse name ∈ history') :
    (after history).definitions = (after history').definitions ∧
      ∀ name, (after history).isUsed name = (after history').isUsed name := by
  constructor
  · rw [definitions_after, definitions_after, hdefines]
  · intro name
    rw [Bool.eq_iff_iff, isUsed_after, isUsed_after, huses]

theorem unused_eq_of_answers {s t : FileScope} (hdefinitions : s.definitions = t.definitions)
    (huses : ∀ name, s.isUsed name = t.isUsed name) : s.unused = t.unused := by
  unfold unused
  rw [hdefinitions]
  apply List.filter_congr
  intro d _
  rw [huses]

end FileScope

/-- What a scope answers is what its history says.  A name is defined if some operation defines it,
on the line of the first that does, and used if some operation uses it, whichever comes first and
whether or not it is defined.  Unused are the names that are defined and never used, each once, in
the order of their first definitions.  So histories that agree in the sequence of their definitions
and in the set of the names they use give the same answers. -/
theorem scope_determined_by_history :
    (∀ history : List ScopeOp,
      (∀ name, (FileScope.after history).isDefined name = true ↔
        ∃ line, ScopeOp.define name line ∈ history) ∧
      (∀ name, (FileScope.after history).definitionLine? name =
        ((requests history).find? (·.name == name)).map Definition.line) ∧
      (∀ name, (FileScope.after history).isUsed name = true ↔
        ScopeOp.recordUse name ∈ history) ∧
      (FileScope.after history).definitionCount =
        ((requests history).map Definition.name).dedup.length ∧
      ((FileScope.after history).unused.map Definition.name).Nodup ∧
      ((FileScope.after history).unused.Pairwise fun d d' =>
        ((requests history).map Definition.name).idxOf d.name <
          ((requests history).map Definition.name).idxOf d'.name) ∧
      ∀ d, d ∈ (FileScope.after history).unused ↔
        (requests history).find? (·.name == d.name) = some d ∧
          ScopeOp.recordUse d.name ∉ history) ∧
    ∀ history history' : List ScopeOp, requests history = requests history' →
      (∀ name, ScopeOp.recordUse name ∈ history ↔ ScopeOp.recordUse name ∈ history') →
      (∀ name, (FileScope.after history).isDefined name =
        (FileScope.after history').isDefined name) ∧
      (∀ name, (FileScope.after history).definitionLine? name =
        (FileScope.after history').definitionLine? name) ∧
      (∀ name, (FileScope.after history).isUsed name = (FileScope.after history').isUsed name) ∧
      (FileScope.after history).definitionCount = (FileScope.after history').definitionCount ∧
      (FileScope.after history).unused = (FileScope.after history').unused := by
  constructor
  · intro history
    exact ⟨fun _ => FileScope.isDefined_after history, FileScope.definitionLine?_after history,
      fun _ => FileScope.isUsed_after history, FileScope.definitionCount_after history,
      FileScope.nodup_unused_after history, FileScope.pairwise_unused_after history,
      fun _ => FileScope.mem_unused_after history⟩
  · intro history history' hdefines huses
    obtain ⟨hdefinitions, hused⟩ := FileScope.after_answers_eq hdefines huses
    refine ⟨?_, ?_, hused, ?_, FileScope.unused_eq_of_answers hdefinitions hused⟩
    · intro name
      rw [FileScope.isDefined, FileScope.isDefined, hdefinitions]
    · intro name
      rw [FileScope.definitionLine?, FileScope.definitionLine?, hdefinitions]
    · rw [FileScope.definitionCount, FileScope.definitionCount, hdefinitions]

/-- A use before its definition, a definition that comes twice, and a use of a name that is never
defined, mixed in two ways. -/
theorem scope_determined_by_history_sample :
    (FileScope.after [.recordUse "$y", .define "$x" 3, .define "$y" 1, .define "$x" 9,
        .recordUse "$z"]).definitionLine? "$x" = some 3 ∧
      (FileScope.after [.recordUse "$y", .define "$x" 3, .define "$y" 1, .define "$x" 9,
        .recordUse "$z"]).unused =
      (FileScope.after [.define "$x" 3, .recordUse "$z", .recordUse "$y", .define "$y" 1,
        .recordUse "$y", .define "$x" 9]).unused := by
  constructor
  · rw [(scope_determined_by_history.1 _).2.1]
    decide
  · refine (scope_determined_by_history.2 _ _ (by decide) ?_).2.2.2.2
    intro name
    simp only [List.mem_cons, List.not_mem_nil, ScopeOp.recordUse.injEq, reduceCtorEq, or_false,
      false_or]
    constructor
    · rintro (rfl | rfl)
      · exact Or.inr (Or.inl rfl)
      · exact Or.inl rfl
    · rintro (rfl | rfl | rfl)
      · exact Or.inr rfl
      · exact Or.inl rfl
      · exact Or.inl rfl

end DefUse
