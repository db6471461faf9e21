/-!
# Splitting at a separator

`split` cuts a text at every occurrence of a separator and keeps empty pieces, so there is always
one piece more than there are separators.

Main facts: pieces that hold no separator come back from the text that joins them
(`split_intercalate`), and a separator parts the pieces before it from those behind it
(`split_append_sep`).  Cutting a text only
at its first separator is `takeWhile` and `dropWhile` (`takeWhile_ne_sep`, `dropWhile_ne_sep`).
-/

namespace DefUse.Text

/-- Puts `c` in front of a text that is already split. -/
def consPiece (sep c : Char) (pieces : List (List Char)) : List (List Char) :=
  if c = sep then [] :: pieces
  else match pieces with
    | [] => [[c]]
    | p :: ps => (c :: p) :: ps

/-- The pieces of `cs` between separators. -/
def split (sep : Char) (cs : List Char) : List (List Char) :=
  cs.foldr (consPiece sep) [[]]

/-- The pieces of a text as texts. -/
def splitText (sep : Char) (text : String) : List String :=
  (split sep text.toList).map String.ofList

@[simp] theorem split_nil (sep : Char) : split sep [] = [[]] := rfl

theorem split_cons_sep (sep : Char) (cs : List Char) :
    split sep (sep :: cs) = [] :: split sep cs := by
  simp [split, consPiece]

theorem split_append {sep : Char} {p : List Char} (h : sep ∉ p) (cs : List Char) :
    split sep (p ++ sep :: cs) = p :: split sep cs := by
  induction p with
  | nil => exact split_cons_sep sep cs
  | cons c p ih =>
    have hc : c ≠ sep := fun e => h (e ▸ List.mem_cons_self ..)
    have ih := ih fun hm => h (List.mem_cons_of_mem _ hm)
    rw [List.cons_append, split, List.foldr_cons, ← split, ih, consPiece, if_neg hc]

theorem split_of_not_mem {sep : Char} {p : List Char} (h : sep ∉ p) : split sep p = [p] := by
  induction p with
  | nil => rfl
  | cons c p ih =>
    have hc : c ≠ sep := fun e => h (e ▸ List.mem_cons_self ..)
    have ih := ih fun hm => h (List.mem_cons_of_mem _ hm)
    rw [split, List.foldr_cons, ← split, ih, consPiece, if_neg hc]

/-- Pieces without the separator come back from the text that joins them. -/
theorem split_intercalate {sep : Char} {ps : List (List Char)} (hne : ps ≠ [])
    (h : ∀ p ∈ ps, sep ∉ p) : split sep ([sep].intercalate ps) = ps := by
  induction ps with
  | nil => exact absurd rfl hne
  | cons p ps ih =>
    have hp := h p (List.mem_cons_self ..)
    cases ps with
    | nil => rw [List.intercalate_singleton, split_of_not_mem hp]
    | cons q qs =>
      rw [List.intercalate_cons_cons, List.append_assoc, List.singleton_append, split_append hp,
        ih (List.cons_ne_nil q qs) fun r hr => h r (List.mem_cons_of_mem _ hr)]

theorem takeWhile_ne_sep {sep : Char} {p : List Char} (h : sep ∉ p) (cs : List Char) :
    (p ++ sep :: cs).takeWhile (· != sep) = p := by
  have hp : ∀ c ∈ p, (c != sep) = true := fun c hc => bne_iff_ne.2 fun e => h (e ▸ hc)
  rw [List.takeWhile_append_of_pos hp]
  simp

theorem dropWhile_ne_sep {sep : Char} {p : List Char} (h : sep ∉ p) (cs : List Char) :
    (p ++ sep :: cs).dropWhile (· != sep) = sep :: cs := by
  have hp : ∀ c ∈ p, (c != sep) = true := fun c hc => bne_iff_ne.2 fun e => h (e ▸ hc)
  rw [List.dropWhile_append_of_pos hp]
  simp

/-- Texts without the separator come back from the text that joins them. -/
theorem splitText_intercalate {sep : Char} {pieces : List String} (hne : pieces ≠ [])
    (h : ∀ p ∈ pieces, sep ∉ p.toList) :
    splitText sep ((String.singleton sep).intercalate pieces) = pieces := by
  have hsplit : split sep ([sep].intercalate (pieces.map String.toList)) =
      pieces.map String.toList := by
    refine split_intercalate (by simpa using hne) fun p hp => ?_
    obtain ⟨piece, hpiece, rfl⟩ := List.mem_map.1 hp
    exact h piece hpiece
  unfold splitText
  rw [String.toList_intercalate, String.toList_singleton, hsplit, List.map_map]
  exact List.map_id'' (fun p => String.ofList_toList) pieces

end DefUse.Text
