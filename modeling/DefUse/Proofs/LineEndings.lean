import DefUse.Checker
import DefUse.Text.Split

/-!
# Line endings

A line may end with a line feed alone or with a carriage return before it, and each line of a source
may end in its own way.  A carriage return put in front of a line feed belongs to the ending, so in a
text that had none the lines stay what they were:

    ReturnsInserted cs ds → '\r' ∉ cs → (segments ds).map chomp = (segments cs).map chomp

Reading looks at the lines alone and checking at what is read, so neither tells the two texts apart.
-/

namespace DefUse

namespace Text

/-- The second text is the first with a carriage return in front of some of its line feeds. -/
inductive ReturnsInserted : List Char → List Char → Prop
  | nil : ReturnsInserted [] []
  | keep {cs ds : List Char} (c : Char) : ReturnsInserted cs ds → ReturnsInserted (c :: cs) (c :: ds)
  | insert {cs ds : List Char} :
      ReturnsInserted cs ds → ReturnsInserted ('\n' :: cs) ('\r' :: '\n' :: ds)

theorem chomp_cons {c : Char} (hfeed : c ≠ '\n') (hreturn : c ≠ '\r') (seg : List Char) :
    chomp (c :: seg) = c :: chomp seg := by
  rcases List.eq_nil_or_concat seg with rfl | ⟨init, d, hseg⟩
  · exact chomp_open (by simpa using hfeed)
  · rw [List.concat_eq_append] at hseg
    subst hseg
    by_cases hd : d = '\n'
    · subst hd
      by_cases hlast : init.getLast? = some '\r'
      · obtain ⟨cs, rfl⟩ := List.getLast?_eq_some_iff.1 hlast
        rw [List.append_assoc, List.singleton_append, chomp_carriage, ← List.cons_append,
          chomp_carriage]
      · have hcons : (c :: init).getLast? ≠ some '\r' := by
          rw [List.getLast?_cons]
          cases hinit : init.getLast? with
          | none => simpa using hreturn
          | some e => exact hinit ▸ hlast
        rw [chomp_feed hlast, ← List.cons_append, chomp_feed hcons]
    · have hopen : (init ++ [d]).getLast? ≠ some '\n' := by simpa using hd
      have hcons : (c :: init ++ [d]).getLast? ≠ some '\n' := by
        rwa [List.getLast?_append] at hopen ⊢
      rw [chomp_open hopen, ← List.cons_append, chomp_open hcons]

/-- The lines of a text grow from the front like the pieces between line feeds, as long as no carriage
return comes in. -/
theorem map_chomp_consSegment {c : Char} (hc : c ≠ '\r') (segs : List (List Char)) :
    (consSegment c segs).map chomp = consPiece '\n' c (segs.map chomp) := by
  unfold consSegment consPiece
  by_cases hfeed : c = '\n'
  · rw [if_pos hfeed, if_pos hfeed]
    rfl
  · rw [if_neg hfeed, if_neg hfeed]
    cases segs with
    | nil => exact congrArg (· :: []) (chomp_cons hfeed hc [])
    | cons seg segs => exact congrArg (· :: segs.map chomp) (chomp_cons hfeed hc seg)

/-- Returns before line feeds are taken off with them. -/
theorem ReturnsInserted.map_chomp_segments {cs ds : List Char} (h : ReturnsInserted cs ds)
    (hreturn : '\r' ∉ cs) : (segments ds).map chomp = (segments cs).map chomp := by
  induction h with
  | nil => rfl
  | keep c _ ih =>
    have hc : c ≠ '\r' := fun hc => hreturn (hc ▸ List.mem_cons_self)
    rw [segments_cons, segments_cons, map_chomp_consSegment hc, map_chomp_consSegment hc,
      ih fun hm => hreturn (List.mem_cons_of_mem _ hm)]
  | @insert cs ds _ ih =>
    -- the carriage return and the line feed make one ending, so both texts start with an empty line
    have ih := ih fun hm => hreturn (List.mem_cons_of_mem _ hm)
    show [] :: (segments ds).map chomp = [] :: (segments cs).map chomp
    rw [ih]

/-- Texts that differ in such returns have the same lines. -/
theorem lines_eq_of_returnsInserted {source source' : String}
    (h : ReturnsInserted source.toList source'.toList) (hreturn : '\r' ∉ source.toList) :
    lines source' = lines source := by
  have hmap := congrArg (List.map String.ofList) (h.map_chomp_segments hreturn)
  rwa [List.map_map, List.map_map] at hmap

end Text

/-- The reader sees the lines only. -/
theorem read_eq_of_lines {source source' : String} (h : Text.lines source' = Text.lines source) :
    read source' = read source := by
  unfold read SourceLine.ofSource
  rw [h]

theorem check_eq_of_read {source source' : String} (h : read source' = read source)
    (options : CheckOptions) : check source' options = check source options := by
  unfold check
  rw [h]

/-- Whether lines end with a line feed alone or with a carriage return before it, and whether all do so
alike, makes no difference to what is read or reported. -/
theorem line_ending_style_irrelevant (source source' : String) (hreturn : '\r' ∉ source.toList)
    (h : Text.ReturnsInserted source.toList source'.toList) :
    read source' = read source ∧ ∀ options, check source' options = check source options := by
  have hread : read source' = read source :=
    read_eq_of_lines (Text.lines_eq_of_returnsInserted h hreturn)
  exact ⟨hread, check_eq_of_read hread⟩

theorem line_ending_style_irrelevant_sample :
    Text.ReturnsInserted "(f\n $x)\n\n$y (".toList "(f\r\n $x)\n\r\n$y (".toList ∧
    read "(f\r\n $x)\n\r\n$y (" = ⟨[⟨1, 2, "(f\n $x)\n"⟩], some ⟨4, "$y (\n", 1⟩⟩ := by
  have h : Text.ReturnsInserted "(f\n $x)\n\n$y (".toList "(f\r\n $x)\n\r\n$y (".toList :=
    .keep _ <| .keep _ <| .insert <| .keep _ <| .keep _ <| .keep _ <| .keep _ <| .keep _ <| .insert <|
      .keep _ <| .keep _ <| .keep _ <| .keep _ .nil
  refine ⟨h, ?_⟩
  rw [(line_ending_style_irrelevant _ _ (by decide) h).1]
  decide

end DefUse
