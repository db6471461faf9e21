import DefUse.Form
import DefUse.Proofs.ByteAccess
import Mathlib.Data.List.Basic

/-!
# The grammar of leading forms

A text has a form if it starts with white characters, an opening parenthesis, at most one space and
the keyword of the form, and the keyword ends there (`classify_eq_some`).  A keyword is all that
stands before the first character that can end one (`takeWhile_keyword`).  So no text opens with two
keywords (`eq_of_opens`), and the order in which they are tried makes no difference.

`Parse` states the grammar on its own, part by part.  The texts with a form are exactly those that it
reads, and it reads each in one way (`classify_accepts_exactly_grammar`).
-/

namespace DefUse.Form

open Text

/-- The part of a text that shows its form. -/
def IsOpening (form : Form) (opening : List Char) : Prop :=
  ∃ white space, (∀ c ∈ white, isWhite c = true) ∧ (space = [] ∨ space = [' ']) ∧
    opening = white ++ '(' :: (space ++ form.keyword.toList)

/-! ## Keywords -/

theorem keyword_injective : Function.Injective keyword := by
  intro form form'
  cases form <;> cases form' <;> decide

theorem not_endsKeyword_of_mem {form : Form} {c : Char} (h : c ∈ form.keyword.toList)
    (cs : List Char) : endsKeyword (c :: cs) = false := by
  have hletters : form.keyword.toList.all (fun c => !(isBlank c || c = '(' || c = ')')) = true := by
    cases form <;> decide
  have hc := List.all_eq_true.1 hletters c h
  rwa [Bool.not_eq_true'] at hc

/-- A keyword that ends is the longest start of the text without a character that ends one. -/
theorem takeWhile_keyword (form : Form) {rest : List Char} (h : endsKeyword rest = true) :
    (form.keyword.toList ++ rest).takeWhile (fun c => !endsKeyword [c]) = form.keyword.toList := by
  have hall : ∀ c ∈ form.keyword.toList, (!endsKeyword [c]) = true := by
    intro c hc
    rw [not_endsKeyword_of_mem hc]
    rfl
  rw [List.takeWhile_append_of_pos hall]
  cases rest with
  | nil => rw [List.takeWhile_nil, List.append_nil]
  | cons c rest =>
    have hc : (!endsKeyword [c]) = false := by
      rw [show endsKeyword [c] = true from h]
      rfl
    rw [List.takeWhile_cons, hc]
    exact List.append_nil _

theorem keyword_append_ne_space (form : Form) (rest cs : List Char) :
    form.keyword.toList ++ rest ≠ ' ' :: cs := by
  cases form <;> simp [keyword]

/-- A form opens a text that starts with its keyword, if the keyword ends there. -/
theorem opens_iff {form : Form} {cs : List Char} :
    opens form cs = true ↔ ∃ rest, cs = form.keyword.toList ++ rest ∧ endsKeyword rest = true := by
  unfold opens
  rw [Bool.and_eq_true, List.isPrefixOf_iff_prefix]
  constructor
  · rintro ⟨⟨rest, rfl⟩, hends⟩
    rw [← String.length_toList, List.drop_left] at hends
    exact ⟨rest, rfl, hends⟩
  · rintro ⟨rest, rfl, hends⟩
    rw [← String.length_toList, List.drop_left]
    exact ⟨⟨rest, rfl⟩, hends⟩

/-- At most one form opens a text: no keyword ends inside another. -/
theorem eq_of_opens {form form' : Form} {cs : List Char} (h : opens form cs = true)
    (h' : opens form' cs = true) : form = form' := by
  obtain ⟨rest, hcs, hends⟩ := opens_iff.1 h
  obtain ⟨rest', hcs', hends'⟩ := opens_iff.1 h'
  have hword := takeWhile_keyword form hends
  rw [← hcs, hcs', takeWhile_keyword form' hends'] at hword
  exact keyword_injective (String.toList_inj.1 hword.symm)

theorem mem_all (form : Form) : form ∈ all := by
  cases form <;> decide

/-- Whatever order the forms are tried in, the one that is found is the one that opens the text. -/
theorem find?_opens {order : List Form} (horder : ∀ form, form ∈ order) {cs : List Char}
    {form : Form} : order.find? (opens · cs) = some form ↔ opens form cs = true := by
  constructor
  · intro h
    exact List.find?_some (p := (opens · cs)) h
  · intro hopens
    cases hfind : order.find? (opens · cs) with
    | none => exact absurd hopens (List.find?_eq_none.1 hfind form (horder form))
    | some form' => rw [eq_of_opens (List.find?_some (p := (opens · cs)) hfind) hopens]

theorem leading?_eq_some {offset k : Nat} {cs : List Char} {form : Form} :
    leading? offset cs = some (form, k) ↔ opens form cs = true ∧ k = offset + form.keyword.length := by
  unfold leading?
  rw [Option.map_eq_some_iff]
  constructor
  · rintro ⟨form', hfind, heq⟩
    obtain ⟨rfl, rfl⟩ := Prod.mk.inj heq
    exact ⟨(find?_opens mem_all).1 hfind, rfl⟩
  · rintro ⟨hopens, rfl⟩
    exact ⟨form, (find?_opens mem_all).2 hopens, rfl⟩

/-! ## Openings -/

theorem dollar_not_mem_opening {form : Form} {opening : List Char} (h : IsOpening form opening) :
    '$' ∉ opening := by
  obtain ⟨white, space, hwhite, hspace, rfl⟩ := h
  have hkeyword : '$' ∉ form.keyword.toList := by
    cases form <;> decide
  have hnotwhite : '$' ∉ white := fun hmem => absurd (hwhite '$' hmem) (by decide)
  have hnotspace : '$' ∉ space := by
    rcases hspace with rfl | rfl <;> decide
  simp [hkeyword, hnotwhite, hnotspace]

theorem byteLength_opening {form : Form} (white space : List Char) (hspace : space = [] ∨ space = [' ']) :
    byteLength (white ++ '(' :: (space ++ form.keyword.toList)) =
      byteLength white + (1 + space.length) + form.keyword.length := by
  have hkeyword : byteLength form.keyword.toList = form.keyword.length := by
    cases form <;> decide
  have hlength : byteLength space = space.length := by
    rcases hspace with rfl | rfl <;> decide
  have hparen : Char.utf8Size '(' = 1 := rfl
  simp only [byteLength_append, byteLength_cons, hkeyword, hlength, hparen]
  omega

theorem takeWhile_white {white rest : List Char} (hwhite : ∀ c ∈ white, isWhite c = true) :
    (white ++ '(' :: rest).takeWhile isWhite = white ∧
      (white ++ '(' :: rest).dropWhile isWhite = '(' :: rest := by
  have hparen : isWhite '(' = false := by decide
  constructor
  · rw [List.takeWhile_append_of_pos hwhite, List.takeWhile_cons, hparen]
    exact List.append_nil white
  · rw [List.dropWhile_append_of_pos hwhite, List.dropWhile_cons, hparen]
    rfl

/-- A text is of a form if it starts with an opening of that form. -/
theorem classify_eq_some {text : String} {form : Form} {k : Nat} :
    classify text = some (form, k) ↔ ∃ opening rest, text.toList = opening ++ rest ∧
      IsOpening form opening ∧ endsKeyword rest = true ∧ k = byteLength opening := by
  constructor
  · intro h
    unfold classify at h
    dsimp only at h
    have hwhite : ∀ c ∈ text.toList.takeWhile isWhite, isWhite c = true :=
      List.all_eq_true.1 List.all_takeWhile
    have htext : text.toList = text.toList.takeWhile isWhite ++ text.toList.dropWhile isWhite :=
      List.takeWhile_append_dropWhile.symm
    generalize text.toList.takeWhile isWhite = white at h hwhite htext
    split at h
    · rename_i body hbody
      obtain ⟨hopens, rfl⟩ := leading?_eq_some.1 h
      obtain ⟨rest, rfl, hends⟩ := opens_iff.1 hopens
      refine ⟨white ++ '(' :: ([' '] ++ form.keyword.toList), rest, ?_,
        ⟨white, [' '], hwhite, Or.inr rfl, rfl⟩, hends, ?_⟩
      · rw [htext, hbody]
        simp
      · rw [byteLength_opening white [' '] (Or.inr rfl), List.length_singleton]
    · rename_i body _ hbody
      obtain ⟨hopens, rfl⟩ := leading?_eq_some.1 h
      obtain ⟨rest, rfl, hends⟩ := opens_iff.1 hopens
      refine ⟨white ++ '(' :: ([] ++ form.keyword.toList), rest, ?_,
        ⟨white, [], hwhite, Or.inl rfl, rfl⟩, hends, ?_⟩
      · rw [htext, hbody]
        simp
      · rw [byteLength_opening white [] (Or.inl rfl), List.length_nil]
    · cases h
  · rintro ⟨opening, rest, htext, ⟨white, space, hwhite, hspace, rfl⟩, hends, rfl⟩
    rw [List.append_assoc, List.cons_append, List.append_assoc] at htext
    have hopens : opens form (form.keyword.toList ++ rest) = true := opens_iff.2 ⟨rest, rfl, hends⟩
    unfold classify
    dsimp only
    rw [htext, (takeWhile_white hwhite).1, (takeWhile_white hwhite).2, byteLength_opening white space hspace]
    rcases hspace with rfl | rfl
    · -- no keyword starts with a space, so the shorter opening is the one that is tried
      split
      · rename_i body hbody
        exact absurd (List.cons.inj hbody).2 (keyword_append_ne_space form rest body)
      · rename_i body _ hbody
        obtain rfl := (List.cons.inj hbody).2
        exact leading?_eq_some.2 ⟨hopens, rfl⟩
      · rename_i hno
        exact absurd rfl (hno _)
    · exact leading?_eq_some.2 ⟨hopens, rfl⟩

/-! ## The grammar -/

/-- The characters are white ones, an opening parenthesis, at most one space, the keyword of the form,
and a rest that is empty or starts with a blank or a parenthesis. -/
structure Parse (cs white space : List Char) (form : Form) (rest : List Char) : Prop where
  parts : cs = white ++ '(' :: (space ++ (form.keyword.toList ++ rest))
  white : ∀ c ∈ white, isWhite c = true
  space : space = [] ∨ space = [' ']
  rest : rest = [] ∨ ∃ c more, rest = c :: more ∧ (isBlank c = true ∨ c = '(' ∨ c = ')')

/-- The form of an expression when the keywords are tried in the given order. -/
def classifyIn (order : List Form) (text : String) : Option (Form × Nat) :=
  let cs := text.toList
  let indent := byteLength (cs.takeWhile isWhite)
  let tryAll (offset : Nat) (body : List Char) :=
    (order.find? (opens · body)).map fun form => (form, offset + form.keyword.length)
  match cs.dropWhile isWhite with
  | '(' :: ' ' :: body => tryAll (indent + 2) body
  | '(' :: body => tryAll (indent + 1) body
  | _ => none

theorem classifyIn_all (text : String) : classifyIn all text = classify text := rfl

/-- The order in which the keywords are tried does not matter. -/
theorem classifyIn_eq {order : List Form} (horder : ∀ form, form ∈ order) (text : String) :
    classifyIn order text = classify text := by
  have hfind : ∀ body, order.find? (opens · body) = all.find? (opens · body) := by
    intro body
    ext form
    rw [find?_opens horder, find?_opens mem_all]
  rw [← classifyIn_all]
  unfold classifyIn
  simp only [hfind]

theorem endsKeyword_iff {cs : List Char} : endsKeyword cs = true ↔
    cs = [] ∨ ∃ c more, cs = c :: more ∧ (isBlank c = true ∨ c = '(' ∨ c = ')') := by
  cases cs with
  | nil => simp [endsKeyword]
  | cons c cs => simp [endsKeyword, or_assoc]

/-- The classifier accepts exactly what the grammar parses, with the offset behind the keyword. -/
theorem classify_eq_some_iff_parse {text : String} {form : Form} {off : Nat} :
    classify text = some (form, off) ↔ ∃ white space rest,
      Parse text.toList white space form rest ∧
        off = byteLength (white ++ '(' :: (space ++ form.keyword.toList)) := by
  rw [classify_eq_some]
  constructor
  · rintro ⟨opening, rest, htext, ⟨white, space, hwhite, hspace, rfl⟩, hends, rfl⟩
    refine ⟨white, space, rest, ⟨?_, hwhite, hspace, endsKeyword_iff.1 hends⟩, rfl⟩
    rw [htext]
    simp
  · rintro ⟨white, space, rest, hparse, rfl⟩
    refine ⟨_, rest, ?_, ⟨white, space, hparse.white, hparse.space, rfl⟩,
      endsKeyword_iff.2 hparse.rest, rfl⟩
    rw [hparse.parts]
    simp

theorem Parse.split_white {cs white space rest : List Char} {form : Form}
    (h : Parse cs white space form rest) :
    cs.takeWhile isWhite = white ∧
      cs.dropWhile isWhite = '(' :: (space ++ (form.keyword.toList ++ rest)) := by
  rw [h.parts]
  exact takeWhile_white h.white

/-- A text has at most one parse. -/
theorem Parse.unique {cs white space rest white' space' rest' : List Char} {form form' : Form}
    (h : Parse cs white space form rest) (h' : Parse cs white' space' form' rest') :
    white = white' ∧ space = space' ∧ form = form' ∧ rest = rest' := by
  have hcut := h.split_white
  have hcut' := h'.split_white
  have hbody : space ++ (form.keyword.toList ++ rest) = space' ++ (form'.keyword.toList ++ rest') :=
    (List.cons.inj (hcut.2.symm.trans hcut'.2)).2
  have hspace : space = space' := by
    rcases h.space with rfl | rfl <;> rcases h'.space with rfl | rfl
    · rfl
    · exact absurd hbody (keyword_append_ne_space form rest _)
    · exact absurd hbody.symm (keyword_append_ne_space form' rest' _)
    · rfl
  subst hspace
  have hkeyword := List.append_cancel_left hbody
  have hform : form = form' :=
    eq_of_opens (opens_iff.2 ⟨rest, rfl, endsKeyword_iff.2 h.rest⟩)
      (opens_iff.2 ⟨rest', hkeyword, endsKeyword_iff.2 h'.rest⟩)
  subst hform
  exact ⟨hcut.1.symm.trans hcut'.1, rfl, rfl, List.append_cancel_left hkeyword⟩

/-- A text has a form exactly if it is one of the grammar, and the offset just past the keyword comes
with it.  The grammar reads a text in one way at most, so the keywords may be tried in any order, and
the offset is between two characters of the text. -/
theorem classify_accepts_exactly_grammar (text : String) :
    (∀ form off, classify text = some (form, off) ↔ ∃ white space rest,
      Parse text.toList white space form rest ∧
        off = byteLength (white ++ '(' :: (space ++ form.keyword.toList))) ∧
    (∀ white space form rest white' space' form' rest',
      Parse text.toList white space form rest → Parse text.toList white' space' form' rest' →
        white = white' ∧ space = space' ∧ form = form' ∧ rest = rest') ∧
    (∀ order : List Form, (∀ form, form ∈ order) → classifyIn order text = classify text) ∧
    ∀ form off, classify text = some (form, off) → String.Pos.Raw.IsValid text ⟨off⟩ := by
  refine ⟨fun form off => classify_eq_some_iff_parse,
    fun white space form rest white' space' form' rest' h h' => h.unique h',
    fun order horder => classifyIn_eq horder text, ?_⟩
  intro form off h
  obtain ⟨opening, rest, htext, -, -, rfl⟩ := classify_eq_some.1 h
  exact Bytewise.isValid_of_split htext

theorem classify_accepts_exactly_grammar_sample :
    classify "\u3000( let*\n(" = some (.letStar, 9) ∧
    Parse "\u3000( let*\n(".toList ['\u3000'] [' '] .letStar ['\n', '('] ∧
    (∀ white space form rest, Parse "\u3000( let*\n(".toList white space form rest →
      ['\u3000'] = white ∧ [' '] = space ∧ .letStar = form ∧ ['\n', '('] = rest) ∧
    (∀ form : Form, form ∈ [.rule, .letOne, .matching, .letStar]) ∧
    classifyIn [.rule, .letOne, .matching, .letStar] "\u3000( let*\n(" =
      classify "\u3000( let*\n(" ∧
    String.Pos.Raw.IsValid "\u3000( let*\n(" ⟨9⟩ := by
  have hclassify : classify "\u3000( let*\n(" = some (.letStar, 9) := by decide
  have hparse : Parse "\u3000( let*\n(".toList ['\u3000'] [' '] .letStar ['\n', '('] :=
    ⟨by decide, List.all_eq_true.1 (by decide), Or.inr rfl, Or.inr ⟨'\n', ['('], rfl, Or.inl rfl⟩⟩
  have horder : ∀ form : Form, form ∈ [.rule, .letOne, .matching, .letStar] := by
    intro form
    cases form <;> decide
  obtain ⟨-, hunique, hany, hvalid⟩ := classify_accepts_exactly_grammar "\u3000( let*\n("
  exact ⟨hclassify, hparse, fun _ _ _ _ h => hunique _ _ _ _ _ _ _ _ hparse h, horder, hany _ horder,
    hvalid _ _ hclassify⟩

end DefUse.Form
