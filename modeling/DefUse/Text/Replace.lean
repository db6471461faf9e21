/-!
# Replacing a piece of text

`replace` puts a new text in place of every occurrence of a given one, from left to right and
without looking into what it has just put in.  The text looked for is given as its first character
and the rest, so it is never empty.

Where it stands it is replaced as a whole (`replace_occurrence`); any other character stays
(`replace_cons`).
-/

namespace DefUse.Text

/-- Replaces from here on, after passing over `skip` characters of an occurrence just found. -/
def replaceFrom (first : Char) (more new : List Char) : Nat → List Char → List Char
  | _, [] => []
  | skip + 1, _ :: cs => replaceFrom first more new skip cs
  | 0, c :: cs =>
    if c == first && more.isPrefixOf cs then new ++ replaceFrom first more new more.length cs
    else c :: replaceFrom first more new 0 cs

/-- The text with `new` in place of each occurrence of `first :: more`. -/
def replace (first : Char) (more new text : List Char) : List Char :=
  replaceFrom first more new 0 text

section

variable {first : Char} {more : List Char} (new : List Char)

theorem replaceFrom_length (skipped cs : List Char) :
    replaceFrom first more new skipped.length (skipped ++ cs) = replace first more new cs := by
  induction skipped with
  | nil => rfl
  | cons c skipped ih => rw [List.length_cons, List.cons_append, replaceFrom, ih]

theorem replace_occurrence (cs : List Char) :
    replace first more new (first :: (more ++ cs)) = new ++ replace first more new cs := by
  have hfound : (first == first && more.isPrefixOf (more ++ cs)) = true := by simp
  rw [replace, replaceFrom, if_pos hfound, replaceFrom_length]

theorem replace_cons {c : Char} {cs : List Char} (h : ¬ first :: more <+: c :: cs) :
    replace first more new (c :: cs) = c :: replace first more new cs := by
  have hmissed : ¬ (c == first && more.isPrefixOf cs) = true := by
    rw [Bool.and_eq_true, beq_iff_eq, List.isPrefixOf_iff_prefix]
    rintro ⟨rfl, hprefix⟩
    exact h (List.cons_prefix_cons.2 ⟨rfl, hprefix⟩)
  rw [replace, replaceFrom, if_neg hmissed]
  rfl

end

/-- What stands before the first character looked for stays as it is. -/
theorem replace_append_of_not_mem {first : Char} {pre : List Char} (h : first ∉ pre)
    (more new cs : List Char) :
    replace first more new (pre ++ cs) = pre ++ replace first more new cs := by
  unfold replace
  induction pre with
  | nil => rfl
  | cons c pre ih =>
    have hc : ¬ (c == first) = true := by
      rw [beq_iff_eq]
      rintro rfl
      exact h List.mem_cons_self
    rw [List.cons_append, replaceFrom, if_neg (by simp [hc]),
      ih fun hm => h (List.mem_cons_of_mem _ hm), List.cons_append]

theorem replace_of_not_mem {first : Char} {text : List Char} (h : first ∉ text)
    (more new : List Char) : replace first more new text = text := by
  have happend := replace_append_of_not_mem h more new []
  rw [List.append_nil] at happend
  exact happend.trans (List.append_nil text)

/-- What stands before the first new piece was there before. -/
theorem prefix_of_prefix_replace {first : Char} {more new pre : List Char}
    (hnew : new.head? = some first) (hpre : first ∉ pre) {cs : List Char}
    (h : pre <+: replace first more new cs) : pre <+: cs := by
  induction pre generalizing cs with
  | nil => exact List.nil_prefix
  | cons c pre ih =>
    rw [List.mem_cons, not_or] at hpre
    obtain ⟨tail, rfl⟩ := List.head?_eq_some_iff.1 hnew
    cases cs with
    | nil => exact h
    | cons d cs =>
      by_cases hfound : first :: more <+: d :: cs
      · obtain ⟨rest, hrest⟩ := hfound
        rw [← hrest, List.cons_append, replace_occurrence, List.cons_append,
          List.cons_prefix_cons] at h
        exact absurd h.1.symm hpre.1
      · rw [replace_cons _ hfound, List.cons_prefix_cons] at h
        exact List.cons_prefix_cons.2 ⟨h.1, ih hpre.2 h.2⟩

end DefUse.Text
