/-!
# Lines of a text

A line ends at a line feed; one carriage return right before that line feed belongs to the line
ending and not to the line.  A carriage return anywhere else, also at the very end of the text,
stays in its line, and a final line feed starts no further line.

`segments` cuts a text after each line feed and loses nothing (`flatten_segments`); `chomp` removes
the ending of one segment; `lines` does both.  Where one text ends with a line, or is empty, the lines
of another that follows it are its own (`lines_append`).
-/

namespace DefUse.Text

/-- Puts `c` in front of a segmented text. -/
def consSegment (c : Char) (segs : List (List Char)) : List (List Char) :=
  if c = '\n' then ['\n'] :: segs
  else match segs with
    | [] => [[c]]
    | seg :: rest => (c :: seg) :: rest

/-- The text cut after each line feed. -/
def segments (cs : List Char) : List (List Char) :=
  cs.foldr consSegment []

/-- The line that a segment holds: the segment without its ending. -/
def chomp (seg : List Char) : List Char :=
  match seg.reverse with
  | '\n' :: '\r' :: rest => rest.reverse
  | '\n' :: rest => rest.reverse
  | _ => seg

/-- The lines of a text, without their endings. -/
def lines (text : String) : List String :=
  (segments text.toList).map fun seg => String.ofList (chomp seg)

theorem flatten_consSegment (c : Char) (segs : List (List Char)) :
    (consSegment c segs).flatten = c :: segs.flatten := by
  unfold consSegment
  split
  · rename_i h; simp [h]
  · cases segs <;> simp

theorem flatten_segments (cs : List Char) : (segments cs).flatten = cs := by
  induction cs with
  | nil => rfl
  | cons c cs ih => rw [segments, List.foldr_cons, flatten_consSegment, ← segments, ih]

/-! ## One text behind another -/

/-- The text stops between two lines: it is empty or ends with a line feed. -/
def EndsLine (cs : List Char) : Prop := cs = [] ∨ cs.getLast? = some '\n'

theorem EndsLine.append {as bs : List Char} (ha : EndsLine as) (hb : EndsLine bs) :
    EndsLine (as ++ bs) := by
  rcases hb with rfl | hb
  · rwa [List.append_nil]
  · right
    rw [List.getLast?_append, hb]
    rfl

theorem EndsLine.concat (cs : List Char) : EndsLine (cs ++ ['\n']) := by
  right
  rw [List.getLast?_append]
  rfl

theorem segments_cons (c : Char) (cs : List Char) :
    segments (c :: cs) = consSegment c (segments cs) := rfl

theorem consSegment_ne_nil (c : Char) (segs : List (List Char)) : consSegment c segs ≠ [] := by
  unfold consSegment
  split
  · simp
  · cases segs <;> simp

theorem consSegment_append (c : Char) {segs : List (List Char)} (h : segs ≠ [])
    (more : List (List Char)) : consSegment c (segs ++ more) = consSegment c segs ++ more := by
  cases segs with
  | nil => exact absurd rfl h
  | cons seg segs =>
    unfold consSegment
    split <;> rfl

theorem segments_append {as : List Char} (h : EndsLine as) (bs : List Char) :
    segments (as ++ bs) = segments as ++ segments bs := by
  induction as with
  | nil => rfl
  | cons c cs ih =>
    cases cs with
    | nil =>
      -- the last character is a line feed, so nothing is joined across it
      have hc : c = '\n' := by simpa [EndsLine] using h
      subst hc
      rfl
    | cons d cs =>
      have hends : EndsLine (d :: cs) := by simpa [EndsLine] using h
      rw [List.cons_append, segments_cons, ih hends,
        consSegment_append c (by rw [segments_cons]; exact consSegment_ne_nil d _)]
      rfl

/-- A text without a line feed is one segment. -/
theorem segments_of_not_mem {cs : List Char} (h : '\n' ∉ cs) (hne : cs ≠ []) : segments cs = [cs] := by
  induction cs with
  | nil => exact absurd rfl hne
  | cons c cs ih =>
    have hc : c ≠ '\n' := fun hc => h (hc ▸ List.mem_cons_self)
    cases cs with
    | nil => exact if_neg hc
    | cons d cs =>
      rw [segments_cons, ih (fun hm => h (List.mem_cons_of_mem _ hm)) (List.cons_ne_nil d cs),
        consSegment, if_neg hc]

/-- One line with its ending is one segment. -/
theorem segments_line {cs : List Char} (h : '\n' ∉ cs) :
    segments (cs ++ ['\n']) = [cs ++ ['\n']] := by
  induction cs with
  | nil => rfl
  | cons c cs ih =>
    have hc : c ≠ '\n' := fun hc => h (hc ▸ List.mem_cons_self)
    rw [List.cons_append, segments_cons, ih fun hm => h (List.mem_cons_of_mem _ hm), consSegment,
      if_neg hc]

theorem lines_append {a : String} (h : EndsLine a.toList) (b : String) :
    lines (a ++ b) = lines a ++ lines b := by
  unfold lines
  rw [String.toList_append, segments_append h, List.map_append]

/-! ## Line endings -/

theorem chomp_carriage (cs : List Char) : chomp (cs ++ ['\r', '\n']) = cs := by
  simp [chomp]

theorem chomp_feed {cs : List Char} (h : cs.getLast? ≠ some '\r') :
    chomp (cs ++ ['\n']) = cs := by
  rcases List.eq_nil_or_concat cs with rfl | ⟨init, c, rfl⟩
  · rfl
  · have hc : c ≠ '\r' := by simpa using h
    simp [chomp, hc]

theorem chomp_open {cs : List Char} (h : cs.getLast? ≠ some '\n') : chomp cs = cs := by
  rcases List.eq_nil_or_concat cs with rfl | ⟨init, c, rfl⟩
  · rfl
  · have hc : c ≠ '\n' := by simpa using h
    simp [chomp, hc]

theorem chomp_prefix (cs : List Char) : chomp cs <+: cs := by
  unfold chomp
  split
  · rename_i rest h
    exact ⟨['\r', '\n'], by rw [List.reverse_eq_iff.1 h]; simp⟩
  · rename_i rest h
    exact ⟨['\n'], by rw [List.reverse_eq_iff.1 h]; simp⟩
  · exact List.prefix_rfl

end DefUse.Text
