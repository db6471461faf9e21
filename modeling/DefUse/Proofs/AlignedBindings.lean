import DefUse.Proofs.Alignment
import DefUse.Proofs.BindingSites
import DefUse.Proofs.FormGrammar

/-!
# The bindings of aligned texts

A form looks for its bindings between byte offsets, and aligned texts agree in no offset behind their
first reference.  But all that is looked at is a part of the text that no name reaches out of
(`Uncut`), and what is found in such a part depends on the part alone:

    scanRange over the part   =  scanFrom of the part       (scanRange_part)
    heads up to its end       =  headNames of the part      (names_heads_part)

The part is the group behind the keyword (`Nesting.group`) or the whole text, and aligned texts have
aligned groups.  So they have the same form, and the names they bind are related one by one
(`sites_aligned`).
-/

namespace DefUse

open Text Reference

/-! ## Groups -/

namespace Nesting

/-- The characters up to the parenthesis that closes the group that was just opened, with `inner`
further groups open inside it. -/
def group (inner : Nat) : List Char → List Char
  | [] => []
  | c :: cs =>
    if c = '(' then c :: group (inner + 1) cs
    else if c = ')' then
      match inner with
      | 0 => [c]
      | inner + 1 => c :: group inner cs
    else c :: group inner cs

theorem groupEnd_eq (inner offset : Nat) (cs : List Char) :
    groupEnd inner offset cs = offset + byteLength (group inner cs) := by
  fun_induction groupEnd inner offset cs with
  | case1 inner offset => rfl
  | case2 inner offset cs ih =>
    unfold group
    rw [ih, if_pos rfl, byteLength_cons, Nat.add_assoc]
  | case3 offset cs => rfl
  | case4 offset cs inner hne ih =>
    unfold group
    rw [ih, if_neg hne, if_pos rfl, byteLength_cons, Nat.add_assoc]
  | case5 inner offset c cs hopen hclose ih =>
    unfold group
    rw [ih, if_neg hopen, if_neg hclose, byteLength_cons, Nat.add_assoc]

theorem head?_group (inner : Nat) (cs : List Char) : (group inner cs).head? = cs.head? := by
  fun_cases group inner cs <;> rfl

theorem group_append {as : List Char} (hopen : '(' ∉ as) (hclose : ')' ∉ as) (inner : Nat)
    (cs : List Char) : group inner (as ++ cs) = as ++ group inner cs := by
  induction as with
  | nil => rfl
  | cons c as ih =>
    rw [List.mem_cons, not_or] at hopen hclose
    rw [List.cons_append, List.cons_append, ← ih hopen.2 hclose.2]
    exact (if_neg (Ne.symm hopen.1)).trans (if_neg (Ne.symm hclose.1))

/-- A group is closed, or nothing comes behind it. -/
theorem exists_group_append (inner : Nat) (cs : List Char) :
    ∃ rest, cs = group inner cs ++ rest ∧ (rest = [] ∨ (group inner cs).getLast? = some ')') := by
  fun_induction group inner cs with
  | case1 inner => exact ⟨[], rfl, Or.inl rfl⟩
  | case3 cs => exact ⟨cs, rfl, Or.inr rfl⟩
  | case2 inner cs ih | case4 cs inner hne ih | case5 inner c cs hopen hclose ih =>
    obtain ⟨rest, hcs, hend⟩ := ih
    refine ⟨rest, congrArg _ hcs, hend.imp_right fun hlast => ?_⟩
    rw [List.getLast?_cons, hlast]
    rfl

end Nesting

/-! ## Parts that no name reaches out of -/

namespace Reference

/-- No name goes on from `part` into the `rest` behind it. -/
def Uncut (part rest : List Char) : Prop := rest = [] ∨ ∀ c ∈ part.getLast?, IsPlain c

theorem Uncut.tail {c : Char} {part rest : List Char} (h : Uncut (c :: part) rest) :
    Uncut part rest := by
  refine h.imp_right fun hplain d hd => hplain d ?_
  rw [List.getLast?_cons, Option.mem_def.1 hd]
  rfl

theorem Uncut.of_append {pre part rest : List Char} (h : Uncut (pre ++ part) rest) :
    Uncut part rest := by
  induction pre with
  | nil => exact h
  | cons c pre ih => exact ih h.tail

section

variable {offset : Nat} {part rest : List Char}

theorem takeWhile_append_of_uncut {c : Char} (h : Uncut (c :: part) rest) (hc : ¬ IsPlain c) :
    (part ++ rest).takeWhile isIdentifierChar = part.takeWhile isIdentifierChar := by
  rcases h with rfl | hplain
  · rw [List.append_nil]
  · rw [List.takeWhile_append, if_neg]
    intro hlength
    have hall : part.takeWhile isIdentifierChar = part :=
      (List.takeWhile_prefix isIdentifierChar).eq_of_length hlength
    rw [List.getLast?_cons] at hplain
    cases hlast : part.getLast? with
    | none =>
      rw [hlast] at hplain
      exact hc (hplain c rfl)
    | some d =>
      rw [hlast] at hplain
      have hd : isIdentifierChar d = true := by
        have hmem := List.mem_of_getLast? hlast
        rw [← hall] at hmem
        exact List.all_eq_true.1 List.all_takeWhile d hmem
      rw [(hplain d rfl).2] at hd
      cases hd

/-- The reference at the head of a part is found without what comes behind the part. -/
theorem leading?_append {c : Char} (h : Uncut (c :: part) rest) :
    leading? offset (c :: part ++ rest) = leading? offset (c :: part) := by
  rw [List.cons_append]
  unfold leading?
  dsimp only
  by_cases hc : c = '$'
  · rw [takeWhile_append_of_uncut h fun hplain => hplain.1 hc]
  · rw [if_neg hc, if_neg hc]

/-- What follows does not change a reference that it does not extend. -/
theorem here?_append {before : Option Char} {c : Char} (h : Uncut (c :: part) rest) :
    here? before offset (c :: part ++ rest) = here? before offset (c :: part) := by
  unfold here?
  rw [leading?_append h]

theorem stop_le_of_leading? {r : Reference} (h : leading? offset part = some r) :
    r.stop ≤ offset + byteLength part := by
  obtain ⟨run, rest, rfl, -, -, rfl⟩ := exists_run_of_leading? h
  rw [stop, utf8ByteSize_ofList, ← List.cons_append, byteLength_append]
  exact Nat.add_le_add_left (Nat.le_add_right ..) offset

theorem stop_le_of_here? {before : Option Char} {r : Reference}
    (h : here? before offset part = some r) : r.stop ≤ offset + byteLength part :=
  stop_le_of_leading? (here?_eq_some.1 h).2

theorem name_leading? (offset : Nat) (cs : List Char) :
    (leading? offset cs).map name = (leading? 0 cs).map name := by
  unfold leading?
  split
  · rfl
  · split
    · split <;> rfl
    · rfl

/-! ## Scans of a part -/

theorem scanRangeFrom_append {start stop : Nat} {before : Option Char}
    (hstart : offset + byteLength part ≤ start) (hstop : start ≤ stop) :
    scanRangeFrom start stop before offset (part ++ rest) =
      scanRangeFrom start stop (part.getLast?.or before) (offset + byteLength part) rest := by
  induction part generalizing before offset with
  | nil => rfl
  | cons c part ih =>
    have hc := c.utf8Size_pos
    rw [byteLength_cons] at hstart
    rw [List.cons_append, scanRangeFrom, if_neg (by omega), if_pos (by omega), ih (by omega),
      getLast?_or_cons, byteLength_cons, Nat.add_assoc]

/-- The scan of a range that cuts no reference is the scan of that part of the text. -/
theorem scanRangeFrom_part {start : Nat} {before : Option Char} (hstart : start ≤ offset)
    (h : Uncut part rest) :
    scanRangeFrom start (offset + byteLength part) before offset (part ++ rest) =
      scanFrom before offset part := by
  induction part generalizing before offset with
  | nil =>
    cases rest with
    | nil => rfl
    | cons c rest => exact if_pos (Nat.le_refl _)
  | cons c part ih =>
    have hc := c.utf8Size_pos
    have hlimit : offset + byteLength (c :: part) = offset + c.utf8Size + byteLength part := by
      rw [byteLength_cons, Nat.add_assoc]
    have hhere : (here? before offset (c :: part ++ rest)).bind (cutAt? (offset + byteLength (c :: part))) =
        here? before offset (c :: part) := by
      rw [here?_append h]
      cases hr : here? before offset (c :: part) with
      | none => rfl
      | some r => exact if_pos (stop_le_of_here? hr)
    rw [List.cons_append] at hhere ⊢
    rw [scanRangeFrom, if_neg (by omega), if_neg (by omega), hhere, scanFrom, hlimit,
      ih (by omega) h.tail]

/-- The references that start in a part are the references of the part. -/
theorem scanRange_part {text : String} {before : List Char}
    (htext : text.toList = before ++ (part ++ rest)) (h : Uncut part rest) :
    scanRange text (byteLength before) (byteLength before + byteLength part) =
      scanFrom before.getLast? (byteLength before) part := by
  unfold scanRange
  rw [htext, scanRangeFrom_append (by omega) (by omega), Nat.zero_add, Option.or_none,
    scanRangeFrom_part (Nat.le_refl _) h]

end

end Reference

/-! ## Heads of a part -/

namespace Binding

/-- The names of the heads of the groups in a text. -/
def headNames : List Char → List String
  | [] => []
  | c :: cs =>
    (if c = '(' then (leading? 0 (cs.dropWhile isBlank)).map Reference.name else none).toList ++
      headNames cs

theorem headNames_append_of_not_mem {as : List Char} (h : '(' ∉ as) (cs : List Char) :
    headNames (as ++ cs) = headNames cs := by
  induction as with
  | nil => rfl
  | cons c as ih =>
    rw [List.mem_cons, not_or] at h
    rw [List.cons_append, headNames, if_neg (Ne.symm h.1), ih h.2]
    rfl

section

variable {offset : Nat} {part rest : List Char}

/-- The head of a group is found in the group alone. -/
theorem name_head?_part (h : Uncut part rest) :
    (head? (offset + byteLength part) offset (part ++ rest)).map Reference.name =
      (leading? 0 (part.dropWhile isBlank)).map Reference.name := by
  have hblank : ∀ c ∈ part.takeWhile isBlank, isBlank c = true :=
    List.all_eq_true.1 List.all_takeWhile
  have hpart : part.takeWhile isBlank ++ part.dropWhile isBlank = part :=
    List.takeWhile_append_dropWhile
  have hlast := List.head?_dropWhile_not isBlank part
  unfold head?
  dsimp only
  generalize part.takeWhile isBlank = blanks at hblank hpart
  generalize part.dropWhile isBlank = solid at hpart hlast
  subst hpart
  rw [byteLength_append, byteLength_of_blank hblank, List.append_assoc,
    List.takeWhile_append_of_pos hblank, List.dropWhile_append_of_pos hblank, List.length_append]
  cases solid with
  | nil =>
    -- a part of blanks only ends before the first character that is not blank
    rw [if_pos (by rw [byteLength_nil]; omega)]
    rfl
  | cons c solid =>
    have hsolid : isBlank c = false := by simpa using hlast
    have hc := c.utf8Size_pos
    rw [List.cons_append, List.takeWhile_cons, List.dropWhile_cons, hsolid]
    simp only [Bool.false_eq_true, if_false, List.length_nil, Nat.add_zero]
    rw [if_neg (by rw [byteLength_cons]; omega), ← List.cons_append, leading?_append h.of_append,
      ← name_leading? (offset + blanks.length)]
    cases hr : leading? (offset + blanks.length) (c :: solid) with
    | none => rfl
    | some r =>
      have hstop := stop_le_of_leading? hr
      rw [Option.filter_some, if_pos (by rw [decide_eq_true_eq]; omega)]

/-- The heads that are found up to the end of a part are the heads in the part. -/
theorem names_heads_part (h : Uncut part rest) (offset : Nat) :
    (heads (offset + byteLength part) offset (part ++ rest)).map Reference.name = headNames part := by
  induction part generalizing offset with
  | nil =>
    cases rest with
    | nil => rfl
    | cons c rest =>
      rw [List.nil_append, byteLength_nil, Nat.add_zero, heads, if_pos (Nat.le_refl _)]
      rfl
  | cons c part ih =>
    have hc := c.utf8Size_pos
    have hlimit : offset + byteLength (c :: part) = offset + c.utf8Size + byteLength part := by
      rw [byteLength_cons, Nat.add_assoc]
    rw [List.cons_append, heads_cons _ _ _ _ (by omega), hlimit, List.map_append, ih h.tail, headNames]
    by_cases hopen : c = '('
    · rw [if_pos hopen, if_pos hopen, ← name_head?_part h.tail, ← Option.toList_map]
    · rw [if_neg hopen, if_neg hopen]
      rfl

end

/-! ## What a form binds in the group behind its keyword -/

section

variable {text : String} {k : Nat} {before inside : List Char}

/-- A group ends with a parenthesis or with the text, so it cuts no reference. -/
theorem uncut_group {rest : List Char}
    (h : rest = [] ∨ (Nesting.group 0 inside).getLast? = some ')') :
    Uncut ('(' :: Nesting.group 0 inside) rest := by
  refine h.imp_right fun hlast c hc => ?_
  rw [List.getLast?_cons, hlast] at hc
  obtain rfl := Option.some.inj hc
  decide

theorem boundBy_rule_eq_scanFrom (h : Layout text k before ('(' :: inside)) :
    boundBy .rule text k =
      scanFrom before.getLast? (byteLength before) ('(' :: Nesting.group 0 inside) := by
  obtain ⟨rest, hinside, hend⟩ := Nesting.exists_group_append 0 inside
  have htext : text.toList = before ++ ('(' :: Nesting.group 0 inside ++ rest) := by
    rw [h.toList_eq, List.cons_append, ← hinside]
  have hstop : Nesting.groupEnd 0 (byteLength before + 1) inside =
      byteLength before + byteLength ('(' :: Nesting.group 0 inside) := by
    rw [Nesting.groupEnd_eq, byteLength_cons, ← Nat.add_assoc]
    rfl
  rw [boundBy_rule h, hstop, scanRange_part htext (uncut_group hend)]

theorem names_boundBy_letStar (h : Layout text k before ('(' :: inside)) :
    (boundBy .letStar text k).map Reference.name = headNames (Nesting.group 0 inside) := by
  obtain ⟨rest, hinside, hend⟩ := Nesting.exists_group_append 0 inside
  have hpart := names_heads_part (uncut_group hend).tail (byteLength before + 1)
  rw [← hinside] at hpart
  rw [boundBy_letStar h, Nesting.groupEnd_eq, hpart]

theorem names_boundBy_matching (text : String) (k : Nat) :
    (boundBy .matching text k).map Reference.name = headNames text.toList := by
  have hwhole : Uncut text.toList [] := Or.inl rfl
  have hpart := names_heads_part hwhole 0
  rwa [Nat.zero_add, byteLength_toList, List.append_nil] at hpart

end

end Binding

/-! ## Aligned texts -/

namespace Aligned

variable {R : String → String → Prop} {inside : Bool} {cs cs' : List Char}

/-- Groups of aligned texts are aligned: names hold no parenthesis. -/
theorem group (h : Aligned R inside cs cs') (inner : Nat) :
    Aligned R inside (Nesting.group inner cs) (Nesting.group inner cs') := by
  induction h generalizing inner with
  | nil inside => exact .nil inside
  | @char inside c cs cs' hc _ ih =>
    have hstep : ∀ j, Aligned R inside (c :: Nesting.group j cs) (c :: Nesting.group j cs') := fun j =>
      .char (by rwa [Nesting.head?_group]) (ih j)
    unfold Nesting.group
    split
    · exact hstep (inner + 1)
    · split
      · cases inner with
        | zero => exact .char (fun _ _ d hd => by cases hd) (.nil _)
        | succ inner => exact hstep inner
      · exact hstep inner
  | name hn hn' hR hend _ ih =>
    have hopen : IsPlain '(' := by decide
    have hclose : IsPlain ')' := by decide
    rw [Nesting.group_append (hn.not_mem hopen) (hn.not_mem hclose),
      Nesting.group_append (hn'.not_mem hopen) (hn'.not_mem hclose)]
    exact .name hn hn' hR (by rwa [Nesting.head?_group]) (ih inner)

/-- Aligned texts start with the same blanks. -/
theorem exists_blanks (h : Aligned R inside cs cs') :
    cs'.takeWhile isBlank = cs.takeWhile isBlank ∧
      ∃ inside', Aligned R inside' (cs.dropWhile isBlank) (cs'.dropWhile isBlank) ∧
        ∀ before : Option Char, before.any isIdentifierChar = inside →
          ((cs.takeWhile isBlank).getLast?.or before).any isIdentifierChar = inside' := by
  have hblank : ∀ c ∈ cs.takeWhile isBlank, isBlank c = true :=
    List.all_eq_true.1 List.all_takeWhile
  have hdollar : '$' ∉ cs.takeWhile isBlank := fun hmem => absurd (hblank '$' hmem) (by decide)
  rw [← List.takeWhile_append_dropWhile (p := isBlank) (l := cs)] at h
  obtain ⟨inside', rest', rfl, hrest, hlast⟩ := h.exists_common hdollar
  have hsolid : rest'.takeWhile isBlank = [] ∧ rest'.dropWhile isBlank = rest' := by
    have hhead := List.head?_dropWhile_not isBlank cs
    rw [← hrest.head?_eq] at hhead
    cases rest' with
    | nil => exact ⟨rfl, rfl⟩
    | cons c rest' =>
      have hc : isBlank c = false := by simpa using hhead
      rw [List.takeWhile_cons, List.dropWhile_cons, hc]
      exact ⟨rfl, rfl⟩
  rw [List.takeWhile_append_of_pos hblank, List.dropWhile_append_of_pos hblank, hsolid.1, hsolid.2]
  exact ⟨List.append_nil _, inside', hrest, hlast⟩

theorem dropBlank (h : Aligned R false cs cs') :
    Aligned R false (cs.dropWhile isBlank) (cs'.dropWhile isBlank) := by
  obtain ⟨-, inside', hrest, hlast⟩ := h.exists_blanks
  obtain rfl : inside' = false := by
    rw [← hlast none rfl, Option.or_none]
    cases hc : (cs.takeWhile isBlank).getLast? with
    | none => rfl
    | some c =>
      exact isIdentifierChar_of_isBlank
        (List.all_eq_true.1 List.all_takeWhile c (List.mem_of_getLast? hc))
  exact hrest

theorem names_here? (h : Aligned R inside cs cs') {before before' : Option Char}
    (hb : before.any isIdentifierChar = inside) (hb' : before'.any isIdentifierChar = inside)
    (offset offset' : Nat) :
    List.Forall₂ R ((here? before offset cs).map Reference.name).toList
      ((here? before' offset' cs').map Reference.name).toList := by
  cases h with
  | nil =>
    rw [here?_nil, here?_nil]
    exact .nil
  | char hc h =>
    rw [here?_eq_none (by rwa [hb]), here?_eq_none (by rwa [hb', h.head?_eq])]
    exact .nil
  | name hn hn' hR hend h =>
    rw [here?_name hb hn hend, here?_name hb' hn' (by rwa [h.head?_eq])]
    exact .cons hR .nil

/-- Aligned texts have related heads in the same places. -/
theorem headNames (h : Aligned R inside cs cs') :
    List.Forall₂ R (Binding.headNames cs) (Binding.headNames cs') := by
  induction h with
  | nil => exact .nil
  | @char inside c cs cs' _ h ih =>
    unfold Binding.headNames
    refine List.rel_append ?_ ih
    by_cases hopen : c = '('
    · subst hopen
      have hnone : (none : Option Char).any isIdentifierChar = false := rfl
      exact h.dropBlank.names_here? hnone hnone 0 0
    · rw [if_neg hopen, if_neg hopen]
      exact .nil
  | name hn hn' _ _ _ ih =>
    have hopen : IsPlain '(' := by decide
    rwa [Binding.headNames_append_of_not_mem (hn.not_mem hopen),
      Binding.headNames_append_of_not_mem (hn'.not_mem hopen)]

end Aligned

/-! ## Forms and what they bind -/

section

variable {R : String → String → Prop} {text text' : String}

theorem classify_eq_some_of_aligned (h : Aligned R false text.toList text'.toList) {form : Form} {k : Nat}
    (hclassify : Form.classify text = some (form, k)) : Form.classify text' = some (form, k) := by
  obtain ⟨opening, rest, htext, hopening, hends, rfl⟩ := Form.classify_eq_some.1 hclassify
  rw [htext] at h
  obtain ⟨_, rest', htext', hrest, -⟩ := h.exists_common (Form.dollar_not_mem_opening hopening)
  refine Form.classify_eq_some.2 ⟨opening, rest', htext', hopening, ?_, rfl⟩
  have hhead := hrest.head?_eq
  cases rest' with
  | nil => rfl
  | cons c rest' =>
    obtain ⟨rest, rfl⟩ := List.head?_eq_some_iff.1 hhead.symm
    exact hends

/-- Aligned texts have the same form, with its keyword at the same place. -/
theorem classify_aligned (h : Aligned R false text.toList text'.toList) :
    Form.classify text' = Form.classify text := by
  -- alignment is symmetric, so a text without a form is not aligned to one with a form
  refine Option.ext fun found => ⟨fun hfound => ?_, fun hfound => ?_⟩
  · exact classify_eq_some_of_aligned h.symm hfound
  · exact classify_eq_some_of_aligned h hfound

/-- Where the form of two aligned texts looks for its bindings, the same characters stand before. -/
theorem exists_layout_aligned (h : Aligned R false text.toList text'.toList) {form : Form} {k : Nat}
    (hclassify : Form.classify text = some (form, k)) :
    ∃ before after after', Binding.Layout text k before after ∧ Binding.Layout text' k before after' ∧
      Aligned R (before.getLast?.any isIdentifierChar) after after' := by
  obtain ⟨opening, rest, htext, hopening, -, rfl⟩ := Form.classify_eq_some.1 hclassify
  rw [htext] at h
  obtain ⟨inside, rest', htext', hrest, hlast⟩ := h.exists_common (Form.dollar_not_mem_opening hopening)
  obtain ⟨hblanks, inside', hafter, hlast'⟩ := hrest.exists_blanks
  have hinside : (opening ++ rest.takeWhile isBlank).getLast?.any isIdentifierChar = inside' := by
    have hopens := hlast none rfl
    rw [Option.or_none] at hopens
    rw [List.getLast?_append]
    exact hlast' _ hopens
  have hlayout' := Binding.layout_of_append htext'
  rw [hblanks] at hlayout'
  refine ⟨_, _, _, Binding.layout_of_append htext, hlayout', ?_⟩
  rwa [hinside]

/-- A group behind the keyword of one of two aligned texts stands behind that of the other. -/
theorem exists_inside_aligned {before inside after' : List Char}
    (h : Aligned R (before.getLast?.any isIdentifierChar) ('(' :: inside) after') :
    ∃ inside', after' = '(' :: inside' ∧ Aligned R false inside inside' := by
  obtain ⟨b, inside', rfl, hinside, hlast⟩ := Aligned.exists_common (show '$' ∉ ['('] by decide) h
  obtain rfl : false = b := hlast before.getLast? rfl
  exact ⟨inside', rfl, hinside⟩

/-- Aligned texts bind related names in the same places. -/
theorem boundBy_aligned (h : Aligned R false text.toList text'.toList) {form : Form} {k : Nat}
    (hclassify : Form.classify text = some (form, k)) :
    List.Forall₂ R ((Binding.boundBy form text k).map Reference.name)
      ((Binding.boundBy form text' k).map Reference.name) := by
  obtain ⟨before, after, after', hlayout, hlayout', hafter⟩ := exists_layout_aligned h hclassify
  have hopen' : (∃ inside', after' = '(' :: inside') → ∃ inside, after = '(' :: inside := by
    rintro ⟨inside', rfl⟩
    obtain ⟨inside, rfl, -⟩ := exists_inside_aligned hafter.symm
    exact ⟨inside, rfl⟩
  cases form with
  | rule =>
    by_cases hopen : ∃ inside, after = '(' :: inside
    · obtain ⟨inside, rfl⟩ := hopen
      obtain ⟨inside', rfl, hinside⟩ := exists_inside_aligned hafter
      rw [Binding.boundBy_rule_eq_scanFrom hlayout, Binding.boundBy_rule_eq_scanFrom hlayout']
      have hgroup : Aligned R (before.getLast?.any isIdentifierChar) ('(' :: Nesting.group 0 inside)
          ('(' :: Nesting.group 0 inside') :=
        .char (fun _ hdollar => absurd hdollar (by decide)) (hinside.group 0)
      exact hgroup.scan rfl rfl _ _
    · rw [(Binding.boundBy_of_not_open hlayout hopen).1,
        (Binding.boundBy_of_not_open hlayout' (mt hopen' hopen)).1]
      exact .nil
  | letOne =>
    rw [Binding.boundBy_letOne hlayout, Binding.boundBy_letOne hlayout',
      at?_byteLength hlayout.toList_eq, at?_byteLength hlayout'.toList_eq, ← Option.toList_map,
      ← Option.toList_map]
    exact hafter.names_here? rfl rfl _ _
  | letStar =>
    by_cases hopen : ∃ inside, after = '(' :: inside
    · obtain ⟨inside, rfl⟩ := hopen
      obtain ⟨inside', rfl, hinside⟩ := exists_inside_aligned hafter
      rw [Binding.names_boundBy_letStar hlayout, Binding.names_boundBy_letStar hlayout']
      exact (hinside.group 0).headNames
    · rw [(Binding.boundBy_of_not_open hlayout hopen).2,
        (Binding.boundBy_of_not_open hlayout' (mt hopen' hopen)).2]
      exact .nil
  | matching =>
    rw [Binding.names_boundBy_matching, Binding.names_boundBy_matching]
    exact h.headNames

/-- Aligned texts have the same form, and the names they bind are related one by one. -/
theorem sites_aligned (h : Aligned R false text.toList text'.toList) :
    (Bindings.ofText text').form = (Bindings.ofText text).form ∧
      List.Forall₂ R ((Bindings.ofText text).sites.map Binding.name)
        ((Bindings.ofText text').sites.map Binding.name) := by
  have hsame := classify_aligned h
  refine ⟨by rw [Bindings.form_ofText, Bindings.form_ofText, hsame], ?_⟩
  cases hclassify : Form.classify text with
  | none =>
    rw [hclassify] at hsame
    unfold Bindings.ofText
    rw [hclassify, hsame]
    exact .nil
  | some found =>
    obtain ⟨form, k⟩ := found
    rw [hclassify] at hsame
    rw [Bindings.ofText_eq hclassify, Bindings.ofText_eq hsame, List.map_map, List.map_map]
    exact boundBy_aligned h hclassify

end

end DefUse
