import DefUse.Reader
import Mathlib.Data.List.DropRight

/-!
# The partition of a source into blocks of lines

Reading a source loses none of its lines but the skipped ones.  Those that are kept fall into
consecutive blocks, each of which ends with the first line at which its net depth is zero, and a
rest in which this never happens.  `GreedyPartition` says so without the reader:

- there is exactly one such partition of a list of lines (`GreedyPartition.unique`);
- the block that the reader keeps is `blockOf` the lines it has gathered, and stays so with each
  further line (`blockOf_concat`);
- so reading on from some gathered lines reads the partition of these and the lines to come
  (`readFrom_partition`), and reading a source reads the partition of its lines
  (`read_is_greedy_partition`).
-/

namespace DefUse

/-! ## The lines that are kept -/

/-- The text without the white characters at both ends. -/
def Text.trim (cs : List Char) : List Char :=
  (cs.dropWhile isWhite).rdropWhile isWhite

/-- The lines of a source numbered from one, however many there are. -/
def numberedLines (source : String) : List SourceLine :=
  ((Text.lines source).zipIdx 1).map fun (text, n) => ⟨n, text⟩

/-- A line with nothing on it but white characters or a comment. -/
def SourceLine.IsIdle (line : SourceLine) : Prop :=
  Text.trim line.text.toList = [] ∨ (Text.trim line.text.toList).head? = some ';'

instance (line : SourceLine) : Decidable line.IsIdle :=
  inferInstanceAs (Decidable (_ ∨ _))

/-- The order of lines by number. -/
def SourceLine.Above (l m : SourceLine) : Prop := l.number < m.number

/-- The lines of a source that are read, with their numbers. -/
def keptLines (source : String) : List SourceLine :=
  (numberedLines source).filter fun line => ¬ line.IsIdle

theorem Text.trim_eq_nil {cs : List Char} : trim cs = [] ↔ cs.dropWhile isWhite = [] := by
  unfold trim
  rw [List.rdropWhile_eq_nil_iff]
  constructor
  · intro h
    cases hcs : cs.dropWhile isWhite with
    | nil => rfl
    | cons c rest =>
      -- the first character left is not white, so not all of them are
      have hfirst := List.head?_dropWhile_not isWhite cs
      rw [hcs, List.head?_cons] at hfirst
      have hwhite : isWhite c = true := by
        refine h c ?_
        rw [hcs]
        exact List.mem_cons_self
      exact absurd hwhite (Bool.eq_false_iff.1 hfirst)
  · intro h c hc
    rw [h] at hc
    exact absurd hc List.not_mem_nil

theorem Text.head?_trim {cs : List Char} : (trim cs).head? = (cs.dropWhile isWhite).head? := by
  by_cases h : trim cs = []
  · rw [h, trim_eq_nil.1 h]
  · obtain ⟨tail, htail⟩ := List.rdropWhile_prefix isWhite (l := cs.dropWhile isWhite)
    obtain ⟨c, rest, hcons⟩ := List.exists_cons_of_ne_nil h
    rw [← trim, hcons] at htail
    rw [hcons, ← htail]
    rfl

/-- The reader skips exactly the idle lines. -/
theorem SourceLine.isSkipped_iff {line : SourceLine} : line.isSkipped = true ↔ line.IsIdle := by
  unfold IsIdle isSkipped
  rw [Text.head?_trim, Text.trim_eq_nil]
  cases line.text.toList.dropWhile Text.isWhite with
  | nil => simp
  | cons c rest => simp

/-- As long as the count does not wrap, lines have their own numbers. -/
theorem ofSource_eq {source : String} (h : (Text.lines source).length < UInt32.size) :
    SourceLine.ofSource source = numberedLines source := by
  unfold SourceLine.ofSource numberedLines
  refine List.map_congr_left ?_
  rintro ⟨text, n⟩ hn
  have hlt := List.snd_lt_add_of_mem_zipIdx hn
  have hle : n ≤ maxLineNumber := by
    unfold maxLineNumber
    unfold UInt32.size at h
    dsimp only at hlt
    omega
  dsimp only
  rw [Nat.min_eq_left hle]

theorem pairwise_zipIdx (lines : List String) : (lines.zipIdx 1).Pairwise fun l m => l.2 < m.2 := by
  have hnumbers : ((lines.zipIdx 1).map Prod.snd).Pairwise (· < ·) := by
    rw [List.zipIdx_map_snd]
    exact List.pairwise_lt_range'
  rwa [List.pairwise_map] at hnumbers

theorem pairwise_keptLines (source : String) :
    (keptLines source).Pairwise SourceLine.Above := by
  refine List.Pairwise.filter _ ?_
  unfold numberedLines
  rw [List.pairwise_map]
  exact pairwise_zipIdx (Text.lines source)

/-! ## Partitions -/

/-- The lines as text, each followed by a line feed. -/
def linesText (lines : List SourceLine) : String :=
  String.join (lines.map fun line => line.text ++ "\n")

/-- The net depth of the lines. -/
def linesDepth (lines : List SourceLine) : Int :=
  Nesting.depth (linesText lines).toList

/-- Lines of which no first few are balanced. -/
def NeverBalanced (lines : List SourceLine) : Prop :=
  ∀ init, init <+: lines → init ≠ [] → linesDepth init ≠ 0

/-- Lines that are balanced all together, and no fewer of them are. -/
structure FirstBalanced (lines : List SourceLine) : Prop where
  ne_nil : lines ≠ []
  balanced : linesDepth lines = 0
  minimal : ∀ init, init <+: lines → init ≠ [] → init ≠ lines → linesDepth init ≠ 0

/-- The lines are cut into the blocks and the rest, each cut being made as soon as it can be. -/
structure GreedyPartition (lines : List SourceLine) (blocks : List (List SourceLine))
    (rest : List SourceLine) : Prop where
  flatten : blocks.flatten ++ rest = lines
  blocks : ∀ block ∈ blocks, FirstBalanced block
  rest : NeverBalanced rest

@[simp] theorem linesText_append (ls ms : List SourceLine) :
    linesText (ls ++ ms) = linesText ls ++ linesText ms := by
  unfold linesText
  rw [List.map_append, String.join_append]

theorem linesText_singleton (line : SourceLine) : linesText [line] = line.text ++ "\n" := by
  unfold linesText
  rw [List.map_cons, List.map_nil, String.join_cons, String.join_nil, String.append_empty]

@[simp] theorem linesDepth_append (ls ms : List SourceLine) :
    linesDepth (ls ++ ms) = linesDepth ls + linesDepth ms := by
  unfold linesDepth
  rw [linesText_append, String.toList_append, Nesting.depth_append]

/-- The line feed behind a line is no parenthesis. -/
theorem linesDepth_singleton (line : SourceLine) :
    linesDepth [line] = Nesting.depth line.text.toList := by
  unfold linesDepth
  rw [linesText_singleton, String.toList_append, Nesting.depth_append]
  exact Int.add_zero _

theorem NeverBalanced.nil : NeverBalanced [] := by
  intro init hinit hne
  exact absurd (List.prefix_nil.1 hinit) hne

/-- One more line either balances the lines for the first time or leaves them unbalanced. -/
theorem NeverBalanced.concat {lines : List SourceLine} {line : SourceLine}
    (h : NeverBalanced lines) (hdepth : linesDepth (lines ++ [line]) ≠ 0) :
    NeverBalanced (lines ++ [line]) := by
  intro init hinit hne
  rcases List.prefix_concat_iff.1 hinit with rfl | hinit
  · exact hdepth
  · exact h init hinit hne

/-- A line that brings the depth back to zero closes the block. -/
theorem NeverBalanced.firstBalanced {lines : List SourceLine} {line : SourceLine}
    (h : NeverBalanced lines) (hdepth : linesDepth (lines ++ [line]) = 0) :
    FirstBalanced (lines ++ [line]) := by
  refine ⟨by simp, hdepth, ?_⟩
  intro init hinit hne hproper
  rcases List.prefix_concat_iff.1 hinit with rfl | hinit
  · exact absurd rfl hproper
  · exact h init hinit hne

/-- Of two blocks that begin the same lines, neither can be the shorter one. -/
theorem FirstBalanced.eq_of_le {b b' : List SourceLine} (h : FirstBalanced b)
    (h' : FirstBalanced b') (hle : b <+: b') : b = b' := by
  by_contra hne
  exact h'.minimal b hle h.ne_nil hne h.balanced

/-- There is at most one way to cut off the first block. -/
theorem FirstBalanced.unique {lines b b' : List SourceLine} (h : FirstBalanced b)
    (h' : FirstBalanced b') (hb : b <+: lines) (hb' : b' <+: lines) : b = b' := by
  rcases List.prefix_or_prefix_of_prefix hb hb' with hle | hle
  · exact h.eq_of_le h' hle
  · exact (h'.eq_of_le h hle).symm

theorem FirstBalanced.not_neverBalanced {lines b : List SourceLine} (h : FirstBalanced b)
    (hb : b <+: lines) : ¬ NeverBalanced lines :=
  fun hlines => hlines b hb h.ne_nil h.balanced

namespace GreedyPartition

variable {lines block rest rest' : List SourceLine} {blocks blocks' : List (List SourceLine)}

theorem ne_nil (h : GreedyPartition lines blocks rest) : ∀ block ∈ blocks, block ≠ [] :=
  fun block hblock => (h.blocks block hblock).ne_nil

theorem nil (h : NeverBalanced lines) : GreedyPartition lines [] lines :=
  ⟨rfl, by simp, h⟩

theorem cons (hblock : FirstBalanced block) (h : GreedyPartition lines blocks rest) :
    GreedyPartition (block ++ lines) (block :: blocks) rest := by
  refine ⟨?_, ?_, h.rest⟩
  · rw [List.flatten_cons, List.append_assoc, h.flatten]
  · intro b hb
    rcases List.mem_cons.1 hb with rfl | hb
    · exact hblock
    · exact h.blocks b hb

theorem tail (h : GreedyPartition lines (block :: blocks) rest) :
    GreedyPartition (blocks.flatten ++ rest) blocks rest :=
  ⟨rfl, fun b hb => h.blocks b (List.mem_cons_of_mem _ hb), h.rest⟩

theorem head (h : GreedyPartition lines (block :: blocks) rest) : FirstBalanced block :=
  h.blocks block List.mem_cons_self

theorem eq_append (h : GreedyPartition lines (block :: blocks) rest) :
    block ++ (blocks.flatten ++ rest) = lines := by
  rw [← List.append_assoc, ← List.flatten_cons, h.flatten]

/-- The greedy partition is the only one. -/
theorem unique (h : GreedyPartition lines blocks rest)
    (h' : GreedyPartition lines blocks' rest') : blocks' = blocks ∧ rest' = rest := by
  induction blocks generalizing lines blocks' with
  | nil =>
    have hrest : rest = lines := h.flatten
    subst hrest
    cases blocks' with
    | nil => exact ⟨rfl, h'.flatten⟩
    | cons b' bs' => exact absurd h.rest (h'.head.not_neverBalanced ⟨_, h'.eq_append⟩)
  | cons b bs ih =>
    cases blocks' with
    | nil =>
      have hrest : rest' = lines := h'.flatten
      subst hrest
      exact absurd h'.rest (h.head.not_neverBalanced ⟨_, h.eq_append⟩)
    | cons b' bs' =>
      -- the first blocks begin the same lines; what follows them is the same as well
      have hb : b' = b := h'.head.unique h.head ⟨_, h'.eq_append⟩ ⟨_, h.eq_append⟩
      subst hb
      have htail : bs'.flatten ++ rest' = bs.flatten ++ rest :=
        List.append_cancel_left (h'.eq_append.trans h.eq_append.symm)
      have hnext := h'.tail
      rw [htail] at hnext
      obtain ⟨hbs, hrest⟩ := ih h.tail hnext
      exact ⟨congrArg _ hbs, hrest⟩

end GreedyPartition

/-! ## What the reader makes of the lines -/

/-- The expression that a block of lines is. -/
def expressionOf (block : List SourceLine) (h : block ≠ []) : Expression :=
  ⟨(block.head h).number, (block.getLast h).number, linesText block⟩

/-- The remainder that some lines leave. -/
def remainderOf (rest : List SourceLine) (h : rest ≠ []) : Remainder :=
  ⟨(rest.head h).number, linesText rest, linesDepth rest⟩

/-- What the reader keeps of the lines gathered so far. -/
def blockOf (lines : List SourceLine) : Option Block :=
  if h : lines = [] then none
  else some ⟨(lines.head h).number, linesText lines, linesDepth lines⟩

/-- One step of the reader: the first line stays, the text and the depth grow by the new line. -/
theorem extend_blockOf (gathered : List SourceLine) (line : SourceLine) :
    Block.extend (blockOf gathered) line =
      ⟨((gathered ++ [line]).head (by simp)).number, linesText (gathered ++ [line]),
        linesDepth (gathered ++ [line])⟩ := by
  by_cases h : gathered = []
  · subst h
    show _ = Block.mk line.number (linesText [line]) (linesDepth [line])
    rw [linesDepth_singleton, linesText_singleton]
    rfl
  · unfold blockOf
    rw [dif_neg h, List.head_append_of_ne_nil h, linesDepth_append, linesDepth_singleton,
      linesText_append, linesText_singleton, ← String.append_assoc]
    rfl

theorem blockOf_concat (gathered : List SourceLine) (line : SourceLine) :
    blockOf (gathered ++ [line]) = some (Block.extend (blockOf gathered) line) := by
  rw [extend_blockOf]
  exact dif_neg (by simp)

/-- A block that is closed by a line is the expression of its lines. -/
theorem close_extend (gathered : List SourceLine) (line : SourceLine) :
    (Block.extend (blockOf gathered) line).close line =
      expressionOf (gathered ++ [line]) (by simp) := by
  rw [extend_blockOf]
  unfold Block.close expressionOf
  rw [List.getLast_append_singleton]

theorem remainder_blockOf (rest : List SourceLine) :
    (blockOf rest).map Block.remainder =
      if h : rest = [] then none else some (remainderOf rest h) := by
  unfold blockOf
  split
  · rfl
  · rfl

/-- Reading on from gathered lines reads the partition of these and the kept lines to come. -/
theorem readFrom_partition (gathered lines : List SourceLine) (h : NeverBalanced gathered) :
    ∃ (blocks : List (List SourceLine)) (rest : List SourceLine)
      (p : GreedyPartition (gathered ++ lines.filter fun line => ¬ line.IsIdle) blocks rest),
      readFrom (blockOf gathered) lines =
        ⟨blocks.pmap expressionOf p.ne_nil, (blockOf rest).map Block.remainder⟩ := by
  induction lines generalizing gathered with
  | nil =>
    refine ⟨[], gathered, ?_, rfl⟩
    rw [List.filter_nil, List.append_nil]
    exact GreedyPartition.nil h
  | cons line lines ih =>
    by_cases hidle : line.IsIdle
    · obtain ⟨blocks, rest, p, hread⟩ := ih gathered h
      rw [List.filter_cons_of_neg (by simpa using hidle)]
      refine ⟨blocks, rest, p, ?_⟩
      rw [← hread, readFrom, if_pos (SourceLine.isSkipped_iff.2 hidle)]
    · have hskip : ¬ line.isSkipped = true := fun hs => hidle (SourceLine.isSkipped_iff.1 hs)
      rw [List.filter_cons_of_pos (by simpa using hidle), List.append_cons]
      have hdepth : (Block.extend (blockOf gathered) line).depth = linesDepth (gathered ++ [line]) := by
        rw [extend_blockOf]
      by_cases hzero : linesDepth (gathered ++ [line]) = 0
      · -- the block is complete, and the reader starts anew behind it
        obtain ⟨blocks, rest, p, hread⟩ := ih [] NeverBalanced.nil
        refine ⟨(gathered ++ [line]) :: blocks, rest, .cons (h.firstBalanced hzero) p, ?_⟩
        rw [readFrom, if_neg hskip, if_pos (hdepth.trans hzero), close_extend]
        show Reading.mk (_ :: (readFrom (blockOf []) lines).expressions)
          (readFrom (blockOf []) lines).remainder = _
        rw [hread]
        rfl
      · obtain ⟨blocks, rest, p, hread⟩ := ih (gathered ++ [line]) (h.concat hzero)
        refine ⟨blocks, rest, p, ?_⟩
        rw [readFrom, if_neg hskip, if_neg (by rw [hdepth]; exact hzero), ← blockOf_concat, hread]

/-- The reader makes the blocks of the greedy partition into expressions. -/
theorem read_partition {source : String} (h : (Text.lines source).length < UInt32.size) :
    ∃ (blocks : List (List SourceLine)) (rest : List SourceLine)
      (p : GreedyPartition (keptLines source) blocks rest),
      read source =
        ⟨blocks.pmap expressionOf p.ne_nil,
          if hrest : rest = [] then none else some (remainderOf rest hrest)⟩ := by
  obtain ⟨blocks, rest, p, hread⟩ := readFrom_partition [] (numberedLines source) .nil
  refine ⟨blocks, rest, p, ?_⟩
  rw [← remainder_blockOf, ← hread, read, ofSource_eq h]
  rfl

/-! ## Texts and line numbers of a partition -/

theorem join_linesText (blocks : List (List SourceLine)) :
    String.join (blocks.map linesText) = linesText blocks.flatten := by
  induction blocks with
  | nil => rfl
  | cons block blocks ih =>
    rw [List.map_cons, String.join_cons, ih, List.flatten_cons, linesText_append]

theorem text_pmap_expressionOf {blocks : List (List SourceLine)} (h : ∀ b ∈ blocks, b ≠ []) :
    (blocks.pmap expressionOf h).map Expression.text = blocks.map linesText := by
  rw [List.map_pmap]
  exact List.pmap_eq_map h

theorem head_le_getLast {block : List SourceLine} (hpair : block.Pairwise SourceLine.Above)
    (h : block ≠ []) : (block.head h).number ≤ (block.getLast h).number := by
  cases block with
  | nil => exact absurd rfl h
  | cons line lines =>
    rcases List.mem_cons.1 (List.getLast_mem h) with heq | hmem
    · rw [heq, List.head_cons]
    · exact Nat.le_of_lt (List.rel_of_pairwise_cons hpair hmem)

namespace GreedyPartition

variable {lines rest : List SourceLine} {blocks : List (List SourceLine)}

theorem balanced_expression (p : GreedyPartition lines blocks rest) :
    ∀ e ∈ blocks.pmap expressionOf p.ne_nil, Nesting.depth e.text.toList = 0 := by
  intro e he
  obtain ⟨block, hblock, rfl⟩ := List.mem_pmap.1 he
  exact (p.blocks block hblock).balanced

theorem startLine_le_endLine (p : GreedyPartition lines blocks rest)
    (hlines : lines.Pairwise SourceLine.Above) :
    ∀ e ∈ blocks.pmap expressionOf p.ne_nil, e.startLine ≤ e.endLine := by
  rw [← p.flatten, List.pairwise_append, List.pairwise_flatten] at hlines
  intro e he
  obtain ⟨block, hblock, rfl⟩ := List.mem_pmap.1 he
  exact head_le_getLast (hlines.1.1 block hblock) _

/-- Expressions cover ranges of lines that do not overlap and stand in order. -/
theorem endLine_lt_startLine (p : GreedyPartition lines blocks rest)
    (hlines : lines.Pairwise SourceLine.Above) :
    (blocks.pmap expressionOf p.ne_nil).Pairwise fun e f => e.endLine < f.startLine := by
  rw [← p.flatten, List.pairwise_append, List.pairwise_flatten] at hlines
  rw [List.pairwise_pmap]
  refine hlines.1.2.imp ?_
  intro b c hbc hb hc
  exact hbc _ (List.getLast_mem hb) _ (List.head_mem hc)

theorem endLine_lt_rest (p : GreedyPartition lines blocks rest)
    (hlines : lines.Pairwise SourceLine.Above) (h : rest ≠ []) :
    ∀ e ∈ blocks.pmap expressionOf p.ne_nil, e.endLine < (remainderOf rest h).startLine := by
  rw [← p.flatten, List.pairwise_append] at hlines
  intro e he
  obtain ⟨block, hblock, rfl⟩ := List.mem_pmap.1 he
  exact hlines.2.2 _ (List.mem_flatten.2 ⟨block, hblock, List.getLast_mem _⟩) _ (List.head_mem h)

end GreedyPartition

/-- A source with fewer lines than there are line numbers is read as the one greedy partition of
the lines that are kept: the expressions are its blocks, and the remainder is its rest. -/
theorem read_is_greedy_partition (source : String) (h : (Text.lines source).length < UInt32.size) :
    ∃ (blocks : List (List SourceLine)) (rest : List SourceLine)
      (p : GreedyPartition (keptLines source) blocks rest),
      (∀ blocks' rest', GreedyPartition (keptLines source) blocks' rest' →
        blocks' = blocks ∧ rest' = rest) ∧
      (read source).expressions = blocks.pmap expressionOf p.ne_nil ∧
      ((read source).remainder = none ↔ rest = []) ∧
      (∀ hrest : rest ≠ [], (read source).remainder = some (remainderOf rest hrest) ∧
        (remainderOf rest hrest).depth ≠ 0) ∧
      (∀ e ∈ (read source).expressions,
        Nesting.depth e.text.toList = 0 ∧ e.startLine ≤ e.endLine) ∧
      ((read source).expressions.Pairwise fun e f => e.endLine < f.startLine) ∧
      (∀ r ∈ (read source).remainder, ∀ e ∈ (read source).expressions,
        e.endLine < r.startLine) ∧
      String.join ((read source).expressions.map Expression.text) ++
          ((read source).remainder.elim "" Remainder.text) =
        linesText (keptLines source) := by
  obtain ⟨blocks, rest, p, hread⟩ := read_partition h
  have hpair := pairwise_keptLines source
  refine ⟨blocks, rest, p, fun _ _ p' => p.unique p', ?_⟩
  rw [hread]
  dsimp only
  refine ⟨rfl, ?_, ?_, ?_, p.endLine_lt_startLine hpair, ?_, ?_⟩
  · rw [dite_eq_left_iff]
    simp
  · intro hrest
    exact ⟨dif_neg hrest, p.rest rest List.prefix_rfl hrest⟩
  · intro e he
    exact ⟨p.balanced_expression e he, p.startLine_le_endLine hpair e he⟩
  · intro r hr
    by_cases hrest : rest = []
    · rw [dif_pos hrest] at hr
      exact absurd hr (by simp)
    · rw [dif_neg hrest, Option.mem_some] at hr
      rw [← hr]
      exact p.endLine_lt_rest hpair hrest
  · rw [text_pmap_expressionOf, join_linesText, ← p.flatten, linesText_append]
    by_cases hrest : rest = []
    · rw [dif_pos hrest, hrest]
      rfl
    · rw [dif_neg hrest]
      rfl

theorem read_is_greedy_partition_sample :
    ∃ (blocks : List (List SourceLine)) (rest : List SourceLine),
      GreedyPartition (keptLines "(a\n; b\n c)\n)(\n(") blocks rest ∧
        blocks.length = 2 ∧ rest ≠ [] := by
  obtain ⟨blocks, rest, p, -, hexpressions, hremainder, -⟩ :=
    read_is_greedy_partition "(a\n; b\n c)\n)(\n(" (by decide)
  refine ⟨blocks, rest, p, ?_, ?_⟩
  · have hlength := congrArg List.length hexpressions
    rw [List.length_pmap] at hlength
    rw [← hlength]
    decide
  · intro hrest
    exact absurd (hremainder.2 hrest) (by decide)

end DefUse
