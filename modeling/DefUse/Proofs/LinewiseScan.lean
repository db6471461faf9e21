import DefUse.Proofs.AlignedBindings
import DefUse.Proofs.ReportBlocks

/-!
# Scanning part by part

A text may be cut where one of the two bytes at the cut is no part of a reference: no name goes on
over such a boundary, and what can begin behind it is not changed by what stands before.

    scan (a ++ b)  =  scan a ++ scan b, moved behind `a`                      (scan_append)

A line feed is such a byte.  So the references of some lines are those of each line, moved to where
the line starts (`scan_linesText`), and a check counts the references of the lines that belong to
complete expressions.
-/

namespace DefUse

open Text

namespace Reference

/-- The reference in a text with `n` further bytes in front. -/
def shift (n : Nat) (r : Reference) : Reference := ⟨r.name, n + r.offset⟩

/-- One of the bytes at the seam of two texts is no part of a reference, or one of the texts is
empty. -/
def IsBoundary (a b : String) : Prop :=
  (∀ x ∈ (bytes a).getLast?, isTokenByte x = false) ∨ ∀ x ∈ (bytes b).head?, isTokenByte x = false

/-- The same of the characters at the seam. -/
def Apart (as bs : List Char) : Prop :=
  (∀ c ∈ as.getLast?, IsPlain c) ∨ ∀ c ∈ bs.head?, IsPlain c

/-! ## Bytes and characters at a seam -/

theorem isPlain_iff_of_mem {c : Char} {x : UInt8} (h : x ∈ String.utf8EncodeChar c) :
    IsPlain c ↔ isTokenByte x = false := by
  have hdollar : x = 36 ↔ c = '$' := eq_ofNat_iff_of_mem (d := '$') h (by decide)
  rw [isTokenByte, Bool.or_eq_false_iff, isIdentifierByte_of_mem h, beq_eq_false_iff_ne, ne_eq, hdollar]
  rfl

theorem exists_getLast?_encode {cs : List Char} {c : Char} (h : cs.getLast? = some c) :
    ∃ x ∈ String.utf8EncodeChar c, (encode cs).getLast? = some x := by
  obtain ⟨init, rfl⟩ := List.getLast?_eq_some_iff.1 h
  have hne := String.utf8EncodeChar_ne_nil (c := c)
  refine ⟨_, List.getLast_mem hne, ?_⟩
  rw [encode_append, encode_cons, encode_nil, List.append_nil, List.getLast?_append,
    List.getLast?_eq_some_getLast hne]
  rfl

theorem exists_head?_encode {cs : List Char} {c : Char} (h : cs.head? = some c) :
    ∃ x ∈ String.utf8EncodeChar c, (encode cs).head? = some x := by
  obtain ⟨cs, rfl⟩ := List.head?_eq_some_iff.1 h
  obtain ⟨x, xs, hx, hcons⟩ := exists_encode_cons c cs
  exact ⟨x, hx, by rw [hcons]; rfl⟩

/-- A boundary between bytes keeps the characters apart. -/
theorem IsBoundary.apart {a b : String} (h : IsBoundary a b) : Apart a.toList b.toList := by
  unfold IsBoundary at h
  rw [bytes_eq_encode, bytes_eq_encode] at h
  refine h.imp (fun h c hc => ?_) (fun h c hc => ?_)
  · obtain ⟨x, hx, hlast⟩ := exists_getLast?_encode hc
    exact (isPlain_iff_of_mem hx).2 (h x hlast)
  · obtain ⟨x, hx, hfirst⟩ := exists_head?_encode hc
    exact (isPlain_iff_of_mem hx).2 (h x hfirst)

/-! ## Two parts -/

section

variable {before : Option Char} {offset : Nat} {as bs : List Char}

theorem Apart.tail {c : Char} (h : Apart (c :: as) bs) : Apart as bs := by
  refine h.imp_left fun hplain d hd => hplain d ?_
  rw [List.getLast?_cons, Option.mem_def.1 hd]
  rfl

theorem takeWhile_append_of_head? (h : ∀ c ∈ bs.head?, isIdentifierChar c = false) :
    (as ++ bs).takeWhile isIdentifierChar = as.takeWhile isIdentifierChar := by
  induction as with
  | nil =>
    cases bs with
    | nil => rfl
    | cons c bs => rw [List.nil_append, List.takeWhile_cons, h c rfl]; rfl
  | cons c as ih => rw [List.cons_append, List.takeWhile_cons, List.takeWhile_cons, ih]

/-- What starts in the first part is found without the second. -/
theorem here?_append_of_apart {c : Char} (h : Apart (c :: as) bs) :
    here? before offset (c :: as ++ bs) = here? before offset (c :: as) := by
  rcases h with hlast | hfirst
  · exact here?_append (Or.inr hlast)
  · rw [List.cons_append]
    unfold here? leading?
    dsimp only
    rw [takeWhile_append_of_head? fun d hd => (hfirst d hd).2]

/-- The scan of two texts that are kept apart is the scan of each. -/
theorem scanFrom_append (h : Apart as bs) :
    scanFrom before offset (as ++ bs) =
      scanFrom before offset as ++ scanFrom (as.getLast?.or before) (offset + byteLength as) bs := by
  induction as generalizing before offset with
  | nil => rfl
  | cons c as ih =>
    rw [List.cons_append, scanFrom_cons, scanFrom_cons, ← List.cons_append, here?_append_of_apart h,
      ih h.tail, List.append_assoc, getLast?_or_cons, byteLength_cons, Nat.add_assoc]

/-- What stands before a text matters only if it is an identifier character and a `$` comes first. -/
theorem scanFrom_before (h : before.any isIdentifierChar = false ∨ ∀ c ∈ bs.head?, IsPlain c) :
    scanFrom before offset bs = scanFrom none offset bs := by
  cases bs with
  | nil => rfl
  | cons c bs =>
    rw [scanFrom_cons, scanFrom_cons]
    congr 2
    rcases h with hbefore | hfirst
    · unfold here?
      rw [hbefore]
      rfl
    · have hc : c ≠ '$' := (hfirst c rfl).1
      rw [here?_eq_none fun _ hdollar => absurd hdollar hc,
        here?_eq_none fun _ hdollar => absurd hdollar hc]

end

theorem here?_shift (before : Option Char) (n offset : Nat) (cs : List Char) :
    here? before (n + offset) cs = (here? before offset cs).map (shift n) := by
  unfold here? leading?
  split
  · rfl
  · split
    · rfl
    · split
      · split <;> rfl
      · rfl

theorem scanFrom_shift (before : Option Char) (n offset : Nat) (cs : List Char) :
    scanFrom before (n + offset) cs = (scanFrom before offset cs).map (shift n) := by
  induction cs generalizing before offset with
  | nil => rfl
  | cons c cs ih =>
    rw [scanFrom_cons, scanFrom_cons, here?_shift, Nat.add_assoc, ih, List.map_append,
      Option.toList_map]

/-- The references of two texts that are kept apart, the second moved behind the first. -/
theorem scan_append {a b : String} (h : Apart a.toList b.toList) :
    scan (a ++ b) = scan a ++ (scan b).map (shift a.utf8ByteSize) := by
  have hbefore : (a.toList.getLast?.or none).any isIdentifierChar = false ∨
      ∀ c ∈ b.toList.head?, IsPlain c := by
    refine h.imp_left fun hlast => ?_
    rw [Option.or_none]
    cases hc : a.toList.getLast? with
    | none => rfl
    | some c => exact (hlast c hc).2
  have hmoved := scanFrom_shift none (byteLength a.toList) 0 b.toList
  unfold scan
  rw [String.toList_append, scanFrom_append h, scanFrom_before hbefore, Nat.zero_add,
    ← byteLength_toList, ← hmoved, Nat.add_zero]

end Reference

/-! ## Lines -/

open Reference

/-- Where a line starts in the text of the lines. -/
def lineStart (lines : List SourceLine) (i : Nat) : Nat := (linesText (lines.take i)).utf8ByteSize

/-- The references of each line, moved to where the line starts. -/
def linewiseReferences (lines : List SourceLine) : List Reference :=
  lines.zipIdx.flatMap fun (line, i) => (scan line.text).map (shift (lineStart lines i))

theorem endsLine_linesText (lines : List SourceLine) : EndsLine (linesText lines).toList := by
  induction lines using List.reverseRecOn with
  | nil => exact Or.inl rfl
  | append_singleton lines line ih =>
    rw [linesText_append, linesText_singleton, String.toList_append, String.toList_append]
    exact ih.append (.concat _)

/-- The line feed behind a line adds no reference. -/
theorem scan_line (text : String) : scan (text ++ "\n") = scan text := by
  have hfeed : Apart text.toList "\n".toList := by
    right
    intro c hc
    obtain rfl := Option.some.inj hc
    decide
  have hnone : scan "\n" = [] := by decide
  rw [scan_append hfeed, hnone, List.map_nil, List.append_nil]

theorem scan_linesText_concat (lines : List SourceLine) (line : SourceLine) :
    scan (linesText (lines ++ [line])) =
      scan (linesText lines) ++ (scan line.text).map (shift (linesText lines).utf8ByteSize) := by
  have hfeed : Apart (linesText lines).toList (line.text ++ "\n").toList := by
    left
    intro c hc
    rcases endsLine_linesText lines with hnil | hlast
    · rw [hnil] at hc
      cases hc
    · rw [hlast] at hc
      obtain rfl := Option.some.inj hc
      decide
  rw [linesText_append, linesText_singleton, scan_append hfeed, scan_line]

theorem linewiseReferences_concat (lines : List SourceLine) (line : SourceLine) :
    linewiseReferences (lines ++ [line]) =
      linewiseReferences lines ++ (scan line.text).map (shift (linesText lines).utf8ByteSize) := by
  unfold linewiseReferences
  rw [List.zipIdx_append, List.flatMap_append]
  congr 1
  · -- the lines before a given one are the same in both lists
    refine List.flatMap_congr ?_
    rintro ⟨l, i⟩ hi
    have hlt := List.snd_lt_of_mem_zipIdx hi
    dsimp only at hlt ⊢
    rw [lineStart, lineStart, List.take_append_of_le_length (by omega)]
  · simp [lineStart]

/-- The references of an expression are those of its lines. -/
theorem scan_linesText (lines : List SourceLine) :
    scan (linesText lines) = linewiseReferences lines := by
  induction lines using List.reverseRecOn with
  | nil => decide
  | append_singleton lines line ih =>
    rw [scan_linesText_concat, linewiseReferences_concat, ih]

theorem length_scan_linesText (lines : List SourceLine) :
    (scan (linesText lines)).length = (lines.map fun line => (scan line.text).length).sum := by
  induction lines using List.reverseRecOn with
  | nil => decide
  | append_singleton lines line ih =>
    rw [scan_linesText_concat, List.length_append, List.length_map, ih, List.map_append,
      List.sum_append]
    simp

theorem sum_length_scan (blocks : List (List SourceLine)) :
    ((blocks.map linesText).map fun text => (scan text).length).sum =
      (blocks.flatten.map fun line => (scan line.text).length).sum := by
  induction blocks with
  | nil => rfl
  | cons block blocks ih =>
    rw [List.map_cons, List.map_cons, List.sum_cons, ih, length_scan_linesText, List.flatten_cons,
      List.map_append, List.sum_append]

/-- References can be looked for on each side of a boundary alone.  So the references of an expression
are those of its lines, each moved to where the line starts, and a check counts the references of the
lines of complete expressions. -/
theorem scan_distributes_over_boundaries :
    (∀ a b : String, IsBoundary a b →
      scan (a ++ b) = scan a ++ (scan b).map (shift a.utf8ByteSize)) ∧
    ∀ source : String, ∃ (blocks : List (List SourceLine)) (rest : List SourceLine)
      (p : GreedyPartition ((SourceLine.ofSource source).filter fun line => ¬ line.IsIdle)
        blocks rest),
      (read source).expressions = blocks.pmap expressionOf p.ne_nil ∧
      (read source).expressions.map (fun e => scan e.text) = blocks.map linewiseReferences ∧
      ∀ options, (check source options).stats.references =
        (blocks.flatten.map fun line => (scan line.text).length).sum := by
  refine ⟨fun a b h => scan_append h.apart, fun source => ?_⟩
  obtain ⟨blocks, rest, p, hread⟩ := readFrom_partition [] (SourceLine.ofSource source) .nil
  have hexpressions : (read source).expressions = blocks.pmap expressionOf p.ne_nil :=
    congrArg Reading.expressions hread
  have htexts : (read source).expressions.map Expression.text = blocks.map linesText := by
    rw [hexpressions, text_pmap_expressionOf]
  refine ⟨blocks, rest, p, hexpressions, ?_, fun options => ?_⟩
  · calc
      _ = ((read source).expressions.map Expression.text).map scan := by rw [List.map_map]; rfl
      _ = blocks.map linewiseReferences := by
        rw [htexts, List.map_map]
        exact List.map_congr_left fun block _ => scan_linesText block
  · calc
      _ = (((read source).expressions.map Expression.text).map fun text => (scan text).length).sum := by
        rw [stats_check, List.map_map]
        rfl
      _ = (blocks.flatten.map fun line => (scan line.text).length).sum := by
        rw [htexts, sum_length_scan]

theorem scan_distributes_over_boundaries_sample :
    IsBoundary "(f $x" "\u00e9$y)" ∧
    scan ("(f $x" ++ "\u00e9$y)") = scan "(f $x" ++ (scan "\u00e9$y)").map (shift 5) ∧
    scan "(f $x" ++ (scan "\u00e9$y)").map (shift 5) = [⟨"$x", 3⟩, ⟨"$y", 7⟩] := by
  have hfirst : (bytes "\u00e9$y)").head? = some 195 := by decide
  have hboundary : IsBoundary "(f $x" "\u00e9$y)" := by
    right
    intro x hx
    rw [hfirst] at hx
    obtain rfl := Option.some.inj hx
    rfl
  exact ⟨hboundary, scan_distributes_over_boundaries.1 _ _ hboundary, by decide⟩

/-- Without a boundary a reference may run over the seam. -/
example : scan "$" = [] ∧ scan "x" = [] ∧ scan ("$" ++ "x") = [⟨"$x", 0⟩] := by decide

end DefUse
