import DefUse.Proofs.BytewiseBinding
import DefUse.Proofs.LinePartition

/-!
# Groups behind a keyword are closed

A group that is never closed extends to the end of its text.  In an expression that was read from a
source this does not happen to the group behind the keyword of a rule or a `let*`, although the depth
of such a text is only known to be zero at its end and may fall below zero on the way:

- before that group the depth is one, for nothing but the leading parenthesis opens there
  (`Form.exists_group`);
- if the group stayed open, the depth at the end would be two at least, so it is closed
  (`isLeast_closings_of_balanced`);
- behind it the depth is one again, so something is left of the text (`head_group_closed`).
-/

namespace DefUse

open Text Position

theorem Nesting.depth_of_white {cs : List Char} (h : ∀ c ∈ cs, isWhite c = true) :
    Nesting.depth cs = 0 := by
  induction cs with
  | nil => rfl
  | cons c cs ih =>
    have hc := h c List.mem_cons_self
    have hweight : Nesting.weight c = 0 := by
      unfold Nesting.weight
      rw [if_neg, if_neg]
      · rintro rfl
        exact absurd hc (by decide)
      · rintro rfl
        exact absurd hc (by decide)
    rw [Nesting.depth_cons, hweight, ih fun d hd => h d (List.mem_cons_of_mem _ hd)]
    rfl

/-- The opening of a form leaves one parenthesis open. -/
theorem Form.depth_opening {form : Form} {opening : List Char} (h : IsOpening form opening) :
    Nesting.depth opening = 1 := by
  obtain ⟨white, space, hwhite, hspace, rfl⟩ := h
  have hkeyword : Nesting.depth form.keyword.toList = 0 := by
    cases form <;> decide
  have hgap : Nesting.depth space = 0 := by
    rcases hspace with rfl | rfl <;> decide
  rw [Nesting.depth_append, Nesting.depth_of_white hwhite, Nesting.depth_cons, Nesting.depth_append, hgap,
    hkeyword]
  rfl

/-- Nothing but the leading parenthesis is open where a group opens behind the keyword. -/
theorem Form.exists_group {text : String} {form : Form} {k p : Nat}
    (hclassify : Form.classify text = some (form, k)) (hfirst : IsFirstSolid (bytes text) k p)
    (hopen : (bytes text)[p]? = some openByte) :
    ∃ before inside, text.toList = before ++ '(' :: inside ∧ byteLength before = p ∧
      Nesting.depth before = 1 := by
  obtain ⟨opening, rest, htext, hopening, -, rfl⟩ := Form.classify_eq_some.1 hclassify
  obtain rfl := hfirst.unique (Binding.isFirstSolid_of_append htext)
  have hparts := (Binding.layout_of_append htext).toList_eq
  rw [bytes_eq_encode, hparts, open_iff] at hopen
  obtain ⟨inside, hinside⟩ := hopen
  have hblank : ∀ c ∈ rest.takeWhile isBlank, isWhite c = true := fun c hc =>
    isWhite_of_isBlank (List.all_eq_true.1 List.all_takeWhile c hc)
  refine ⟨opening ++ rest.takeWhile isBlank, inside, ?_, rfl, ?_⟩
  · rw [hparts, hinside]
  · rw [Nesting.depth_append, Form.depth_opening hopening, Nesting.depth_of_white hblank]
    rfl

/-- The texts that are read are balanced, however many lines the source has. -/
theorem depth_of_mem_read {source : String} {e : Expression} (h : e ∈ (read source).expressions) :
    Nesting.depth e.text.toList = 0 := by
  obtain ⟨blocks, rest, p, hread⟩ :=
    readFrom_partition [] (SourceLine.ofSource source) NeverBalanced.nil
  have hreading : read source = readFrom (blockOf []) (SourceLine.ofSource source) := rfl
  rw [hreading, hread] at h
  exact p.balanced_expression e h

namespace Position

/-- In a balanced text a group is closed if the depth before it is not negative. -/
theorem isLeast_closings_of_balanced {before inside : List Char}
    (hbalanced : Nesting.depth (before ++ '(' :: inside) = 0) (hbefore : 0 ≤ Nesting.depth before) :
    IsLeast (closings (encode (before ++ '(' :: inside)) (byteLength before))
      (Nesting.groupEnd 0 (byteLength before + 1) inside) := by
  rcases isLeast_closings_or_open before inside with hleast | ⟨-, -, hopen⟩
  · exact hleast
  · have hweight : Nesting.weight '(' = 1 := rfl
    rw [Nesting.depth_append, Nesting.depth_cons, hweight] at hbalanced
    omega

/-- Behind a group that is closed the depth is that before it. -/
theorem byteDepth_take_of_closing {before after : List Char} {stop : Nat}
    (h : stop ∈ closings (encode (before ++ after)) (byteLength before)) :
    byteDepth ((encode (before ++ after)).take stop) = Nesting.depth before := by
  obtain ⟨hlt, -, hzero⟩ := h
  have hbefore : ((encode (before ++ after)).take stop).take (byteLength before) = encode before := by
    rw [List.take_take, Nat.min_eq_left (Nat.le_of_lt hlt), encode_append,
      List.take_left' (length_encode before)]
  rw [← List.take_append_drop (byteLength before) ((encode (before ++ after)).take stop),
    byteDepth_append, hbefore, hzero, Int.add_zero, byteDepth_encode]

/-- If something is open before a group of a balanced text, the group ends inside the text. -/
theorem groupEnd_lt_length {before inside : List Char}
    (hbalanced : Nesting.depth (before ++ '(' :: inside) = 0) (hbefore : 0 < Nesting.depth before) :
    Nesting.groupEnd 0 (byteLength before + 1) inside < (encode (before ++ '(' :: inside)).length := by
  have hmem := (isLeast_closings_of_balanced hbalanced (Int.le_of_lt hbefore)).1
  have hdepth := byteDepth_take_of_closing hmem
  apply Nat.lt_of_le_of_ne hmem.2.1
  intro hend
  rw [hend, List.take_length, byteDepth_encode, hbalanced] at hdepth
  omega

end Position

/-- A rule and a `let*` bind inside the group behind their keyword. -/
theorem Bindings.inside_group {text : String} {form : Form} {k p stop : Nat}
    (hform : form = .rule ∨ form = .letStar) (hclassify : Form.classify text = some (form, k))
    (hfirst : IsFirstSolid (bytes text) k p) (hopen : (bytes text)[p]? = some openByte)
    (hend : IsGroupEnd (bytes text) p stop)
    (hclose : stop = (bytes text).length ∨ ∃ j, stop = j + 1 ∧ (bytes text)[j]? = some closeByte)
    {b : Binding} (hb : b ∈ (ofText text).sites) : p ≤ b.offset ∧ b.reference.stop ≤ stop := by
  obtain ⟨hscan, k', hk, hbound⟩ := mem_sites.1 hb
  rw [hclassify, Option.some.injEq, Prod.mk.injEq] at hk
  obtain ⟨hbform, rfl⟩ := hk
  rw [← hbform] at hbound
  rcases hform with rfl | rfl
  · obtain ⟨hle, hlt⟩ := (boundAt_rule hfirst hopen hend b.offset).1 hbound
    exact ⟨hle, Binding.stop_le_of_offset_lt hscan hclose hlt⟩
  · obtain ⟨q, hq, hlt, hqe⟩ := (boundAt_letStar hfirst hopen hend b.offset).1 hbound
    have hqo := hq.2.1.1
    exact ⟨by omega, Binding.stop_le_of_isHeadOf hscan hq hclose hqe⟩

/-- In every expression that is read, the group behind the keyword of a rule or a `let*` is closed, and
the leading parenthesis is still open where it ends.  So that group never extends to the end of the
text for want of a closing parenthesis, and all that the form binds stands inside it. -/
theorem head_group_closed {source : String} {e : Expression} (he : e ∈ (read source).expressions)
    {form : Form} {k p : Nat} (hform : form = .rule ∨ form = .letStar)
    (hclassify : Form.classify e.text = some (form, k))
    (hfirst : IsFirstSolid (bytes e.text) k p) (hopen : (bytes e.text)[p]? = some openByte) :
    ∃ stop, Nesting.groupEnd 0 (p + 1) (dropBytes (p + 1) e.text.toList) = stop ∧
      Bytewise.groupEnd (bytes e.text) p = .ok stop ∧
      stop < (bytes e.text).length ∧ (bytes e.text)[stop - 1]? = some closeByte ∧
      byteDepth (((bytes e.text).take stop).drop p) = 0 ∧
      byteDepth ((bytes e.text).take stop) = 1 ∧
      IsLeast (closings (bytes e.text) p) stop ∧
      ∀ b ∈ (Bindings.ofText e.text).sites, p ≤ b.offset ∧ b.reference.stop ≤ stop := by
  obtain ⟨before, inside, hparts, rfl, hbefore⟩ := Form.exists_group hclassify hfirst hopen
  have hbalanced : Nesting.depth (before ++ '(' :: inside) = 0 := by
    rw [← hparts]
    exact depth_of_mem_read he
  have hleast := isLeast_closings_of_balanced hbalanced (by omega)
  have hlt := groupEnd_lt_length hbalanced (by omega)
  have hdepth := byteDepth_take_of_closing hleast.1
  rw [← hparts, ← bytes_eq_encode] at hleast hlt hdepth
  obtain ⟨j, hj, hclose⟩ : ∃ j, Nesting.groupEnd 0 (byteLength before + 1) inside = j + 1 ∧
      (bytes e.text)[j]? = some closeByte :=
    (Binding.end_of_group hparts).resolve_left (Nat.ne_of_lt hlt)
  refine ⟨Nesting.groupEnd 0 (byteLength before + 1) inside, ?_, Bytewise.groupEnd_eq hparts, hlt, ?_,
    hleast.1.2.2, hdepth.trans hbefore, hleast, fun b hb => ?_⟩
  · rw [hparts, List.append_cons, ← byteLength_concat_open, dropBytes_byteLength]
  · rw [hj]
    exact hclose
  · exact Bindings.inside_group hform hclassify hfirst hopen (Or.inl hleast) (Or.inr ⟨j, hj, hclose⟩) hb

/-- The depth of this text is zero at its end, and minus one before. -/
theorem head_group_closed_sample :
    (read "(= (f $x) $x))(").expressions = [⟨1, 1, "(= (f $x) $x))(\n"⟩] ∧
    Form.classify "(= (f $x) $x))(\n" = some (.rule, 2) ∧
    IsFirstSolid (bytes "(= (f $x) $x))(\n") 2 3 ∧
    (bytes "(= (f $x) $x))(\n")[3]? = some openByte ∧
    Bytewise.groupEnd (bytes "(= (f $x) $x))(\n") 3 = .ok 9 ∧
    9 < (bytes "(= (f $x) $x))(\n").length ∧
    byteDepth ((bytes "(= (f $x) $x))(\n").take 9) = 1 ∧
    ∀ b ∈ (Bindings.ofText "(= (f $x) $x))(\n").sites, 3 ≤ b.offset ∧ b.reference.stop ≤ 9 := by
  have hread : (read "(= (f $x) $x))(").expressions = [⟨1, 1, "(= (f $x) $x))(\n"⟩] := by decide
  have hclassify : Form.classify "(= (f $x) $x))(\n" = some (.rule, 2) := by decide
  have hparts : "(= (f $x) $x))(\n".toList = "(=".toList ++ " (f $x) $x))(\n".toList := by decide
  have hfirst : IsFirstSolid (bytes "(= (f $x) $x))(\n") 2 3 := Binding.isFirstSolid_of_append hparts
  have hopen : (bytes "(= (f $x) $x))(\n")[3]? = some openByte := by
    rw [bytes_eq_encode]
    decide
  have he : ⟨1, 1, "(= (f $x) $x))(\n"⟩ ∈ (read "(= (f $x) $x))(").expressions := by
    rw [hread]
    exact List.mem_singleton_self _
  obtain ⟨stop, hstop, hend, hlt, -, -, hdepth, -, hinside⟩ :=
    head_group_closed he (Or.inl rfl) hclassify hfirst hopen
  obtain rfl : 9 = stop := by
    rw [← hstop]
    decide
  exact ⟨hread, hclassify, hfirst, hopen, hend, hlt, hdepth, hinside⟩

end DefUse
