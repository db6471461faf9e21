import DefUse.Diagnostic.Template
import DefUse.Proofs.Alignment
import DefUse.Text.Split

/-!
# Filling a template at once

Arguments are filled in one after another, each over the whole text so far, so an argument could bring
in a place, or complete one, that a later argument then fills.  `Filled` says what is meant instead: one
pass over the template, from left to right, that puts arguments in the place of their numbers and keeps
every other character.

An argument is inert if it holds no brace and is not made of digits alone.  What begins with digits and
a closing brace then cannot begin inside an argument, so at each step the places that can be filled are
those of the template (`exists_of_filled`), and one more argument is filled in as if all were filled at
once (`filled_replace`).
-/

namespace DefUse.Template

open Text

/-- The place with the number `i`, as a template has it. -/
def place (i : Nat) : List Char := '\x7b' :: (Decimal.digits i ++ ['\x7d'])

/-- The second text is the template with the arguments filled in, all in one pass. -/
inductive Filled (args : List String) : List Char → List Char → Prop
  | nil : Filled args [] []
  | fill {i : Nat} {arg : String} {cs ds : List Char} :
      args[i]? = some arg → Filled args cs ds → Filled args (place i ++ cs) (arg.toList ++ ds)
  | keep {c : Char} {cs ds : List Char} :
      (∀ i < args.length, ¬ place i <+: c :: cs) → Filled args cs ds → Filled args (c :: cs) (c :: ds)

/-- No brace, and a character that is no digit. -/
def IsInert (arg : String) : Prop :=
  '\x7b' ∉ arg.toList ∧ '\x7d' ∉ arg.toList ∧ ∃ c ∈ arg.toList, c.isDigit = false

/-- A name starts with a dollar sign and has no brace. -/
theorem isInert_of_isName {name : String} (h : Reference.IsName name) : IsInert name := by
  refine ⟨h.not_mem (by decide), h.not_mem (by decide), '$', ?_, by decide⟩
  obtain ⟨run, -, -, hname⟩ := h
  rw [hname]
  exact List.mem_cons_self

/-! ## Places -/

theorem open_not_mem_number (i : Nat) : '\x7b' ∉ Decimal.digits i ++ ['\x7d'] := by
  rw [List.mem_append, not_or]
  exact ⟨Decimal.not_mem_digits (by decide) i, by decide⟩

theorem close_not_mem_digits (i : Nat) : '\x7d' ∉ Decimal.digits i :=
  Decimal.not_mem_digits (by decide) i

theorem place_prefix_cons {i : Nat} {c : Char} {cs : List Char} :
    place i <+: c :: cs ↔ c = '\x7b' ∧ Decimal.digits i ++ ['\x7d'] <+: cs := by
  rw [place, List.cons_prefix_cons, eq_comm]

/-- A text begins with one place at most. -/
theorem place_append_inj {i j : Nat} {cs ds : List Char} (h : place i ++ cs = place j ++ ds) :
    i = j ∧ cs = ds := by
  have hdigits : Decimal.digits i ++ '\x7d' :: cs = Decimal.digits j ++ '\x7d' :: ds := by
    simpa [place] using h
  -- the numbers are what stands before the first closing brace
  have hsplit := congrArg (split '\x7d') hdigits
  rw [split_append (close_not_mem_digits i), split_append (close_not_mem_digits j)] at hsplit
  have hij : i = j := by
    rw [← Decimal.value_digits i, (List.cons.inj hsplit).1, Decimal.value_digits]
  subst hij
  exact ⟨rfl, (List.cons.inj (List.append_cancel_left hdigits)).2⟩

/-! ## One pass -/

section

variable {args : List String} {cs ds : List Char}

/-- A template is filled in one way only. -/
theorem Filled.unique (h : Filled args cs ds) {es : List Char} (h' : Filled args cs es) : ds = es := by
  induction h generalizing es with
  | nil => cases h' with
    | nil => rfl
  | @fill i arg cs ds hi _ ih =>
    generalize htext : place i ++ cs = text at h'
    cases h' with
    | nil => simp [place] at htext
    | @fill j arg' cs' ds' hj h' =>
      obtain ⟨rfl, rfl⟩ := place_append_inj htext
      obtain rfl := Option.some.inj (hi.symm.trans hj)
      rw [ih h']
    | keep hno _ =>
      have hlt : i < args.length := (List.getElem?_eq_some_iff.1 hi).1
      exact absurd ⟨cs, htext⟩ (hno i hlt)
  | @keep c cs ds hno _ ih =>
    generalize htext : c :: cs = text at h'
    cases h' with
    | nil => cases htext
    | @fill i arg cs' ds' hi h' =>
      have hlt : i < args.length := (List.getElem?_eq_some_iff.1 hi).1
      exact absurd ⟨cs', htext.symm⟩ (hno i hlt)
    | keep _ h' =>
      cases htext
      rw [ih h']

theorem filled_nil (cs : List Char) : Filled [] cs cs := by
  induction cs with
  | nil => exact .nil
  | cons c cs ih => exact .keep (fun i hi => absurd hi (Nat.not_lt_zero i)) ih

/-- What holds no opening brace is kept. -/
theorem exists_of_filled_append {pre : List Char} (hpre : '\x7b' ∉ pre)
    (h : Filled args (pre ++ cs) ds) : ∃ es, ds = pre ++ es ∧ Filled args cs es := by
  induction pre generalizing ds with
  | nil => exact ⟨ds, rfl, h⟩
  | cons c pre ih =>
    rw [List.mem_cons, not_or] at hpre
    generalize htext : c :: pre ++ cs = text at h
    cases h with
    | nil => cases htext
    | fill =>
      rw [place, List.cons_append, List.cons_append] at htext
      exact absurd (List.cons.inj htext).1.symm hpre.1
    | keep _ h =>
      obtain ⟨rfl, rfl⟩ := List.cons.inj htext
      obtain ⟨es, rfl, hes⟩ := ih hpre.2 h
      exact ⟨es, rfl, hes⟩

/-- An inert argument is no part of digits with a closing brace behind them. -/
theorem IsInert.append_ne {arg : String} (h : IsInert arg) {digits : List Char}
    (hdigits : ∀ c ∈ digits, c.isDigit = true) (ds es : List Char) :
    arg.toList ++ ds ≠ digits ++ '\x7d' :: es := by
  obtain ⟨-, hclose, c, hc, hnot⟩ := h
  intro heq
  have hout : c ∉ digits := fun hm => by rw [hdigits c hm] at hnot; cases hnot
  rcases List.append_eq_append_iff.1 heq with ⟨rest, rfl, -⟩ | ⟨rest, harg, hrest⟩
  · exact hout (List.mem_append_left _ hc)
  · cases rest with
    | nil =>
      rw [List.append_nil] at harg
      exact hout (harg ▸ hc)
    | cons d rest =>
      obtain rfl := (List.cons.inj hrest).1
      exact hclose (harg ▸ List.mem_append_right _ List.mem_cons_self)

/-- Digits with a closing brace behind them come from the template. -/
theorem exists_of_filled (hargs : ∀ arg ∈ args, IsInert arg) {digits : List Char}
    (hdigits : ∀ c ∈ digits, c.isDigit = true) (h : Filled args cs (digits ++ '\x7d' :: ds)) :
    ∃ es, cs = digits ++ '\x7d' :: es := by
  induction digits generalizing cs with
  | nil =>
    generalize htext : ([] ++ '\x7d' :: ds : List Char) = text at h
    cases h with
    | nil => cases htext
    | fill hi _ =>
      exact absurd htext.symm
        ((hargs _ (List.mem_of_getElem? hi)).append_ne (fun c hc => by cases hc) _ _)
    | @keep c cs _ _ _ =>
      obtain rfl := (List.cons.inj htext).1
      exact ⟨cs, rfl⟩
  | cons d digits ih =>
    generalize htext : d :: digits ++ '\x7d' :: ds = text at h
    cases h with
    | nil => cases htext
    | fill hi _ =>
      exact absurd htext.symm ((hargs _ (List.mem_of_getElem? hi)).append_ne hdigits _ _)
    | keep _ h =>
      obtain ⟨rfl, rfl⟩ := List.cons.inj htext
      obtain ⟨es, rfl⟩ := ih (fun c hc => hdigits c (List.mem_cons_of_mem _ hc)) h
      exact ⟨es, rfl⟩

/-- Filling makes no new place and hides none. -/
theorem Filled.place_prefix_iff (hargs : ∀ arg ∈ args, IsInert arg) (h : Filled args cs ds) (c : Char)
    (i : Nat) : place i <+: c :: ds ↔ place i <+: c :: cs := by
  rw [place_prefix_cons, place_prefix_cons]
  refine and_congr_right fun _ => ⟨?_, ?_⟩
  · rintro ⟨rest, rfl⟩
    rw [List.append_assoc] at h
    obtain ⟨es, rfl⟩ := exists_of_filled hargs (fun c hc => Decimal.isDigit_of_mem_digits hc) h
    exact ⟨es, by simp⟩
  · rintro ⟨rest, rfl⟩
    obtain ⟨es, rfl, -⟩ := exists_of_filled_append (open_not_mem_number i) h
    exact ⟨es, rfl⟩

/-! ## One argument after another -/

/-- One more argument, filled in over the whole text so far. -/
theorem filled_replace (hargs : ∀ arg ∈ args, IsInert arg) (h : Filled args cs ds) (new : String) :
    Filled (args ++ [new]) cs
      (replace '\x7b' (Decimal.digits args.length ++ ['\x7d']) new.toList ds) := by
  induction h with
  | nil => exact .nil
  | fill hi _ ih =>
    have hopen := (hargs _ (List.mem_of_getElem? hi)).1
    rw [replace_append_of_not_mem hopen]
    exact .fill (List.getElem?_append_left (List.getElem?_eq_some_iff.1 hi).1 ▸ hi) ih
  | @keep c cs ds hno h ih =>
    by_cases hplace : place args.length <+: c :: cs
    · -- a place with the new number: it stands in the text so far just as in the template
      obtain ⟨rfl, rest, rfl⟩ := place_prefix_cons.1 hplace
      have hopen := open_not_mem_number args.length
      obtain ⟨es, rfl, -⟩ := exists_of_filled_append hopen h
      rw [replace_append_of_not_mem hopen] at ih
      obtain ⟨fs, hfs, hrest⟩ := exists_of_filled_append hopen ih
      obtain rfl := List.append_cancel_left hfs
      rw [replace_occurrence]
      exact .fill (by simp) hrest
    · have hmissed := mt (h.place_prefix_iff hargs c args.length).1 hplace
      rw [replace_cons _ hmissed]
      refine .keep (fun i hi => ?_) ih
      rw [List.length_append, List.length_singleton] at hi
      rcases Nat.lt_succ_iff_lt_or_eq.1 hi with hlt | rfl
      · exact hno i hlt
      · exact hplace

/-- Filling the arguments one after another is filling them at once. -/
theorem filled_fillFrom {more : List String} (hargs : ∀ arg ∈ args ++ more, IsInert arg)
    (h : Filled args cs ds) : Filled (args ++ more) cs (fillFrom args.length more ds) := by
  induction more generalizing args ds with
  | nil => rwa [List.append_nil]
  | cons new more ih =>
    have hstep := filled_replace (fun arg harg => hargs arg (List.mem_append_left _ harg)) h new
    rw [List.append_cons] at hargs
    have hrun := ih hargs hstep
    rw [List.length_append, List.length_singleton] at hrun
    rwa [List.append_cons]

end

/-- Filling in inert arguments one after another is filling them in all at once: places with a number
that has an argument hold the argument, and every other character of the template is kept.  The names
of variables are inert. -/
theorem fill_is_simultaneous :
    (∀ name, Reference.IsName name → IsInert name) ∧
    ∀ (template : String) (args : List String), (∀ arg ∈ args, IsInert arg) →
      ∀ message : String, Filled args template.toList message.toList ↔ message = fill template args := by
  refine ⟨fun name => isInert_of_isName, fun template args hargs message => ?_⟩
  have hfill : Filled args template.toList (fill template args).toList := by
    rw [fill, String.toList_ofList]
    exact filled_fillFrom hargs (filled_nil template.toList)
  constructor
  · intro h
    exact String.toList_inj.1 (h.unique hfill)
  · rintro rfl
    exact hfill

theorem fill_is_simultaneous_sample :
    IsInert "$y" ∧ IsInert "0 1" ∧
    Filled ["$y", "0 1"] "\x7b1\x7d\x7b\x7b0\x7d\x7b01\x7d\x7b2\x7d".toList
      "0 1\x7b$y\x7b01\x7d\x7b2\x7d".toList := by
  have hname : IsInert "$y" := ⟨by decide, by decide, '$', by decide, by decide⟩
  have hdigits : IsInert "0 1" := ⟨by decide, by decide, ' ', by decide, by decide⟩
  have hargs : ∀ arg ∈ ["$y", "0 1"], IsInert arg := by
    rintro arg (_ | ⟨_, _ | ⟨_, ⟨⟩⟩⟩)
    · exact hname
    · exact hdigits
  refine ⟨hname, hdigits, (fill_is_simultaneous.2 _ _ hargs _).2 ?_⟩
  decide +kernel

/-- An argument of digits alone can complete a place for the next argument. -/
example : fill "\x7b\x7b0\x7d\x7d" ["1", "$x"] = "$x" := by decide +kernel

end DefUse.Template
