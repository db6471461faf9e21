import DefUse.Binding
import DefUse.Proofs.FormGrammar
import DefUse.Proofs.Occurrence
import DefUse.Proofs.Position

/-!
# The bindings of an expression by their positions

`Bindings.ofText` finds bindings in four ways: a scan of a range, a look at one offset, a look behind
every opening parenthesis up to a limit, and the same over the whole text.  All four select from the
references of the text, and `BoundAt` says which by the position of the reference alone:

    b ∈ (ofText text).sites  ↔  b.reference ∈ scan text, classify text = some (b.form, k)
                                and BoundAt (bytes text) k b.form b.offset

What is found this way has strictly increasing offsets already, so dropping repetitions and sorting
leave it as it is (`ofText_eq`), and each site is there once (`pairwise_sites`).
-/

namespace DefUse

open Text Position

/-- Whether a reference at `o` is bound by a form whose keyword ends at `k`. -/
def BoundAt (bs : List UInt8) (k : Nat) : Form → Nat → Prop
  | .rule, o => ∃ p e, IsFirstSolid bs k p ∧ bs[p]? = some openByte ∧ IsGroupEnd bs p e ∧
      p ≤ o ∧ o < e
  | .letOne, o => IsFirstSolid bs k o
  | .letStar, o => ∃ p e, IsFirstSolid bs k p ∧ bs[p]? = some openByte ∧ IsGroupEnd bs p e ∧
      ∃ q, IsHeadOf bs q o ∧ p < q ∧ q < e
  | .matching, o => ∃ q, IsHeadOf bs q o

section

variable {bs : List UInt8} {k p e : Nat} (hfirst : IsFirstSolid bs k p)

include hfirst

theorem boundAt_rule (hopen : bs[p]? = some openByte) (hend : IsGroupEnd bs p e) (o : Nat) :
    BoundAt bs k .rule o ↔ p ≤ o ∧ o < e := by
  constructor
  · rintro ⟨p', e', hfirst', -, hend', h⟩
    obtain rfl := hfirst'.unique hfirst
    obtain rfl := hend'.unique hend
    exact h
  · intro h
    exact ⟨p, e, hfirst, hopen, hend, h⟩

theorem boundAt_letStar (hopen : bs[p]? = some openByte) (hend : IsGroupEnd bs p e) (o : Nat) :
    BoundAt bs k .letStar o ↔ ∃ q, IsHeadOf bs q o ∧ p < q ∧ q < e := by
  constructor
  · rintro ⟨p', e', hfirst', -, hend', h⟩
    obtain rfl := hfirst'.unique hfirst
    obtain rfl := hend'.unique hend
    exact h
  · intro h
    exact ⟨p, e, hfirst, hopen, hend, h⟩

/-- Without a group behind the keyword a rule and a `let*` bind nothing. -/
theorem not_boundAt (hopen : bs[p]? ≠ some openByte) (o : Nat) :
    ¬ BoundAt bs k .rule o ∧ ¬ BoundAt bs k .letStar o := by
  constructor <;>
  · rintro ⟨p', e', hfirst', hopen', -⟩
    rw [hfirst'.unique hfirst] at hopen'
    exact hopen hopen'

end

namespace Binding

/-! ## Heads of groups -/

theorem head?_eq_some {limit offset : Nat} {cs : List Char} {r : Reference} :
    head? limit offset cs = some r ↔ ∃ blanks post, cs = blanks ++ post ∧
      (∀ c ∈ blanks, isBlank c = true) ∧
      Reference.leading? (offset + byteLength blanks) post = some r ∧ r.stop ≤ limit := by
  unfold head?
  dsimp only
  constructor
  · intro h
    split at h
    · cases h
    · obtain ⟨hr, hstop⟩ := Option.filter_eq_some_iff.1 h
      have hblank : ∀ c ∈ cs.takeWhile isBlank, isBlank c = true :=
        List.all_eq_true.1 List.all_takeWhile
      refine ⟨cs.takeWhile isBlank, cs.dropWhile isBlank,
        List.takeWhile_append_dropWhile.symm, hblank, ?_, by simpa using hstop⟩
      rwa [byteLength_of_blank hblank]
  · rintro ⟨blanks, post, rfl, hblank, hr, hstop⟩
    have hlt := Reference.lt_stop_of_leading? hr
    have hoff := Reference.offset_of_leading? hr
    obtain ⟨run, rest, rfl, -, -, -⟩ := Reference.exists_run_of_leading? hr
    have hsolid : isBlank '$' = false := rfl
    rw [byteLength_of_blank hblank] at hr hoff
    rw [List.takeWhile_append_of_pos hblank, List.dropWhile_append_of_pos hblank,
      List.takeWhile_cons, List.dropWhile_cons, hsolid]
    simp only [Bool.false_eq_true, if_false, List.append_nil]
    rw [if_neg (by omega), hr, Option.filter_some, if_pos (by simpa using hstop)]

theorem heads_cons (limit offset : Nat) (c : Char) (cs : List Char) (h : offset < limit) :
    heads limit offset (c :: cs) =
      (if c = '(' then head? limit (offset + c.utf8Size) cs else none).toList ++
        heads limit (offset + c.utf8Size) cs := by
  rw [heads, if_neg (by omega)]
  cases (if c = '(' then head? limit (offset + c.utf8Size) cs else none) <;> rfl

theorem mem_heads {limit offset : Nat} {cs : List Char} {r : Reference} :
    r ∈ heads limit offset cs ↔ ∃ pre blanks post, cs = pre ++ '(' :: (blanks ++ post) ∧
      (∀ c ∈ blanks, isBlank c = true) ∧
      Reference.leading? (offset + byteLength pre + 1 + byteLength blanks) post = some r ∧
      r.stop ≤ limit := by
  induction cs generalizing offset with
  | nil =>
    constructor
    · intro h
      cases h
    · rintro ⟨pre, blanks, post, h, -⟩
      simp at h
  | cons c cs ih =>
    by_cases hlimit : limit ≤ offset
    · constructor
      · intro h
        rw [heads, if_pos hlimit] at h
        cases h
      · rintro ⟨pre, blanks, post, -, -, hr, hstop⟩
        have := Reference.lt_stop_of_leading? hr
        have := Reference.offset_of_leading? hr
        omega
    · rw [heads_cons limit offset c cs (by omega), List.mem_append, Option.mem_toList, ih]
      constructor
      · rintro (h | ⟨pre, blanks, post, rfl, hblank, hr, hstop⟩)
        · split at h
          · rename_i hc
            obtain ⟨blanks, post, rfl, hblank, hr, hstop⟩ := head?_eq_some.1 h
            subst hc
            exact ⟨[], blanks, post, rfl, hblank, hr, hstop⟩
          · cases h
        · refine ⟨c :: pre, blanks, post, rfl, hblank, ?_, hstop⟩
          rwa [byteLength_cons, ← Nat.add_assoc]
      · rintro ⟨pre, blanks, post, h, hblank, hr, hstop⟩
        cases pre with
        | nil =>
          obtain ⟨rfl, rfl⟩ := List.cons.inj h
          exact Or.inl (head?_eq_some.2 ⟨blanks, post, rfl, hblank, hr, hstop⟩)
        | cons d pre =>
          obtain ⟨rfl, rfl⟩ := List.cons.inj h
          rw [byteLength_cons, ← Nat.add_assoc] at hr
          exact Or.inr ⟨pre, blanks, post, rfl, hblank, hr, hstop⟩

theorem offset_of_head? {limit offset : Nat} {cs : List Char} {r : Reference}
    (h : head? limit offset cs = some r) :
    r.offset = offset + (cs.takeWhile isBlank).length := by
  unfold head? at h
  dsimp only at h
  split at h
  · cases h
  · exact Reference.offset_of_leading? (Option.filter_eq_some_iff.1 h).1

/-- The heads of the groups in `cs` all come behind the blanks with which `cs` start. -/
theorem lt_offset_of_mem_heads {limit offset : Nat} {cs : List Char} {r : Reference}
    (h : r ∈ heads limit offset cs) : offset + (cs.takeWhile isBlank).length < r.offset := by
  induction cs generalizing offset with
  | nil => cases h
  | cons c cs ih =>
    by_cases hlimit : limit ≤ offset
    · rw [heads, if_pos hlimit] at h
      cases h
    · rw [heads_cons limit offset c cs (by omega), List.mem_append, Option.mem_toList] at h
      have hpos := c.utf8Size_pos
      rcases h with h | h
      · split at h
        · rename_i hc
          have := offset_of_head? h
          have hsolid : isBlank '(' = false := rfl
          rw [hc, List.takeWhile_cons, hsolid]
          simp only [Bool.false_eq_true, if_false, List.length_nil]
          omega
        · cases h
      · have := ih h
        rw [List.takeWhile_cons]
        split
        · rw [List.length_cons]
          omega
        · rw [List.length_nil]
          omega

theorem pairwise_heads (limit offset : Nat) (cs : List Char) :
    (heads limit offset cs).Pairwise fun a b => a.offset < b.offset := by
  induction cs generalizing offset with
  | nil => exact List.Pairwise.nil
  | cons c cs ih =>
    by_cases hlimit : limit ≤ offset
    · rw [heads, if_pos hlimit]
      exact List.Pairwise.nil
    · rw [heads_cons limit offset c cs (by omega), List.pairwise_append]
      refine ⟨?_, ih _, ?_⟩
      · cases (if c = '(' then head? limit (offset + c.utf8Size) cs else none) <;> simp
      · intro a ha b hb
        rw [Option.mem_toList] at ha
        split at ha
        · have := offset_of_head? ha
          have := lt_offset_of_mem_heads hb
          omega
        · cases ha

/-- Behind an opening parenthesis and blanks a reference can begin: what stands before it is a blank
or the parenthesis. -/
theorem any_getLast?_of_blanks (before : List Char) {blanks : List Char}
    (h : ∀ c ∈ blanks, isBlank c = true) :
    (before ++ '(' :: blanks).getLast?.any Reference.isIdentifierChar = false := by
  rw [List.getLast?_append, List.getLast?_cons]
  cases hb : blanks.getLast? with
  | none => rfl
  | some c => exact Reference.isIdentifierChar_of_isBlank (h c (List.mem_of_getLast? hb))

/-- The heads that are found behind a split of the text: references with nothing but blanks back to
an opening parenthesis behind that split. -/
theorem mem_heads_iff {text : String} {before inside : List Char}
    (htext : text.toList = before ++ inside) {limit : Nat} {r : Reference} :
    r ∈ heads limit (byteLength before) inside ↔
      r ∈ Reference.scan text ∧ r.stop ≤ limit ∧
        ∃ q, IsHeadOf (bytes text) q r.offset ∧ byteLength before ≤ q := by
  have hsize : Char.utf8Size '(' = 1 := rfl
  rw [mem_heads, Reference.mem_scan]
  constructor
  · rintro ⟨pre, blanks, post, rfl, hblank, hr, hstop⟩
    have hsplit : text.toList = (before ++ pre) ++ '(' :: blanks ++ post := by
      rw [htext]
      simp
    have hlen : byteLength ((before ++ pre) ++ '(' :: blanks) =
        byteLength before + byteLength pre + 1 + byteLength blanks := by
      simp only [byteLength_append, byteLength_cons]
      omega
    have hlast := any_getLast?_of_blanks (before ++ pre) hblank
    rw [← hlen] at hr
    refine ⟨⟨_, post, hsplit, Reference.here?_eq_some.2 ⟨hlast, hr⟩⟩, hstop,
      byteLength (before ++ pre), ?_, ?_⟩
    · rw [bytes_eq_encode, hsplit, Reference.offset_of_leading? hr, isHeadOf_iff]
      exact ⟨before ++ pre, blanks, rfl, rfl, hblank⟩
    · rw [byteLength_append]
      omega
  · rintro ⟨⟨u, post, hsplit, hr⟩, hstop, q, hq, hle⟩
    rw [bytes_eq_encode, hsplit, Reference.offset_of_here? hr, isHeadOf_iff] at hq
    obtain ⟨u₁, u₂, rfl, rfl, hblank⟩ := hq
    have hparts : before ++ inside = u₁ ++ '(' :: (u₂ ++ post) := by
      rw [← htext, hsplit, List.append_assoc, List.cons_append]
    obtain ⟨pre, rfl, rfl⟩ := exists_append_of_byteLength_le hparts hle
    refine ⟨pre, u₂, post, rfl, hblank, ?_, hstop⟩
    have hlen : byteLength ((before ++ pre) ++ '(' :: u₂) =
        byteLength before + byteLength pre + 1 + byteLength u₂ := by
      simp only [byteLength_append, byteLength_cons]
      omega
    rw [← hlen]
    exact (Reference.here?_eq_some.1 hr).2

/-! ## The four ways -/

/-- No reference reaches over the end of a text or over a closing parenthesis. -/
theorem stop_le_of_offset_lt {text : String} {r : Reference} (hr : r ∈ Reference.scan text) {e : Nat}
    (he : e = (bytes text).length ∨ ∃ k, e = k + 1 ∧ (bytes text)[k]? = some closeByte)
    (h : r.offset < e) : r.stop ≤ e := by
  obtain ⟨-, hlen, htoken⟩ := Reference.token_of_mem_scan hr
  rcases he with rfl | ⟨k, rfl, hk⟩
  · exact hlen
  · apply Nat.le_of_not_lt
    intro hlt
    obtain ⟨b, hb, ht⟩ := htoken k (by omega) (by omega)
    rw [hk, Option.some.injEq] at hb
    subst hb
    exact absurd ht (by decide)

/-- A range that cuts no reference is a part of the whole scan. -/
theorem scanRange_of_closed {text : String} {p e : Nat}
    (h : ∀ r ∈ Reference.scan text, r.offset < e → r.stop ≤ e) :
    Reference.scanRange text p e =
      (Reference.scan text).filter fun r => p ≤ r.offset && r.offset < e := by
  rw [Reference.scanRange_eq]
  have huncut : ∀ r ∈ (Reference.scan text).filter fun r => p ≤ r.offset && r.offset < e,
      Reference.cutAt? e r = some r := by
    intro r hr
    obtain ⟨hr, hin⟩ := List.mem_filter.1 hr
    rw [Bool.and_eq_true, decide_eq_true_eq, decide_eq_true_eq] at hin
    rw [Reference.cutAt?, if_pos (h r hr hin.2)]
  generalize (Reference.scan text).filter (fun r => p ≤ r.offset && r.offset < e) = rs at huncut ⊢
  induction rs with
  | nil => rfl
  | cons r rs ih =>
    rw [List.filterMap_cons_some (huncut r (List.mem_cons_self ..)),
      ih fun s hs => huncut s (List.mem_cons_of_mem _ hs)]

/-- The characters `before` and `after` the place where a form looks for its bindings: the first that
is not blank behind the keyword, which ends at `k`. -/
structure Layout (text : String) (k : Nat) (before after : List Char) : Prop where
  toList_eq : text.toList = before ++ after
  dropWhile_eq : (dropBytes k text.toList).dropWhile isBlank = after
  first_eq : k + ((dropBytes k text.toList).takeWhile isBlank).length = byteLength before

theorem layout_of_append {text : String} {opening rest : List Char}
    (htext : text.toList = opening ++ rest) :
    Layout text (byteLength opening) (opening ++ rest.takeWhile isBlank) (rest.dropWhile isBlank) := by
  have hblank : ∀ c ∈ rest.takeWhile isBlank, isBlank c = true :=
    List.all_eq_true.1 List.all_takeWhile
  refine ⟨?_, ?_, ?_⟩
  · rw [htext, List.append_assoc, List.takeWhile_append_dropWhile]
  · rw [htext, dropBytes_byteLength]
  · rw [htext, dropBytes_byteLength, byteLength_append, byteLength_of_blank hblank]

theorem isFirstSolid_of_append {text : String} {opening rest : List Char}
    (htext : text.toList = opening ++ rest) :
    IsFirstSolid (bytes text) (byteLength opening)
      (byteLength (opening ++ rest.takeWhile isBlank)) := by
  have hblank : ∀ c ∈ rest.takeWhile isBlank, isBlank c = true :=
    List.all_eq_true.1 List.all_takeWhile
  have hsolid : ∀ c ∈ (rest.dropWhile isBlank).head?, isBlank c = false := by
    intro c hc
    have := List.head?_dropWhile_not isBlank rest
    rw [Option.mem_def.1 hc] at this
    simpa using this
  have := isFirstSolid_skip hblank hsolid opening
  rwa [List.takeWhile_append_dropWhile, ← htext, ← bytes_eq_encode, ← byteLength_append] at this

/-- Behind the keyword of a form come blanks and then the first place that is none. -/
theorem exists_layout {text : String} {form : Form} {k : Nat}
    (h : Form.classify text = some (form, k)) :
    ∃ before after, Layout text k before after ∧
      IsFirstSolid (bytes text) k (byteLength before) := by
  obtain ⟨opening, rest, htext, -, -, rfl⟩ := Form.classify_eq_some.1 h
  exact ⟨_, _, layout_of_append htext, isFirstSolid_of_append htext⟩

/-- A head behind an opening parenthesis inside a group ends inside the group. -/
theorem stop_le_of_isHeadOf {text : String} {r : Reference} (hr : r ∈ Reference.scan text) {q e : Nat}
    (hq : IsHeadOf (bytes text) q r.offset)
    (he : e = (bytes text).length ∨ ∃ k, e = k + 1 ∧ (bytes text)[k]? = some closeByte)
    (h : q < e) : r.stop ≤ e := by
  apply stop_le_of_offset_lt hr he
  obtain ⟨hlt, hlen, -⟩ := Reference.token_of_mem_scan hr
  rcases he with rfl | ⟨k, rfl, hk⟩
  · omega
  · -- the closing parenthesis is neither the opening one nor a blank before the head
    apply Nat.lt_of_not_le
    intro hle
    have hkq : k ≤ q := hq.2.2 ⟨by omega, closeByte, hk, rfl⟩
    obtain rfl : k = q := by omega
    rw [hq.1] at hk
    exact absurd hk (by decide)

section

variable {text : String} {k : Nat} {before after inside : List Char}

theorem boundBy_rule (h : Layout text k before ('(' :: inside)) :
    boundBy .rule text k = Reference.scanRange text (byteLength before)
      (Nesting.groupEnd 0 (byteLength before + 1) inside) := by
  unfold boundBy
  dsimp only
  rw [h.dropWhile_eq, h.first_eq]
  rfl

theorem boundBy_letOne (h : Layout text k before after) :
    boundBy .letOne text k = (Reference.at? text (byteLength before)).toList := by
  rw [boundBy, h.first_eq]

theorem boundBy_letStar (h : Layout text k before ('(' :: inside)) :
    boundBy .letStar text k =
      heads (Nesting.groupEnd 0 (byteLength before + 1) inside) (byteLength before + 1) inside := by
  unfold boundBy
  dsimp only
  rw [h.dropWhile_eq, h.first_eq]
  rfl

/-- Without a group behind the keyword nothing is bound by a rule or a `let*`. -/
theorem boundBy_of_not_open (h : Layout text k before after)
    (hopen : ¬ ∃ inside, after = '(' :: inside) :
    boundBy .rule text k = [] ∧ boundBy .letStar text k = [] := by
  unfold boundBy
  dsimp only
  rw [h.dropWhile_eq]
  constructor
  · split
    case h_1 => exact absurd ⟨_, rfl⟩ hopen
    case h_5 => rfl
    all_goals contradiction
  · split
    case h_3 => exact absurd ⟨_, rfl⟩ hopen
    case h_5 => rfl
    all_goals contradiction

/-- Where a group that was read to its end may stop. -/
theorem end_of_group (htext : text.toList = before ++ '(' :: inside) :
    Nesting.groupEnd 0 (byteLength before + 1) inside = (bytes text).length ∨
      ∃ j, Nesting.groupEnd 0 (byteLength before + 1) inside = j + 1 ∧
        (bytes text)[j]? = some closeByte := by
  rw [bytes_eq_encode, htext]
  exact (closed_or_end before inside).imp_right fun ⟨j, hj, _, hb⟩ => ⟨j, hj, hb⟩

/-- The references in a group are those of the text that start in it. -/
theorem mem_scanRange_group (htext : text.toList = before ++ '(' :: inside)
    {r : Reference} :
    r ∈ Reference.scanRange text (byteLength before)
        (Nesting.groupEnd 0 (byteLength before + 1) inside) ↔
      r ∈ Reference.scan text ∧ byteLength before ≤ r.offset ∧
        r.offset < Nesting.groupEnd 0 (byteLength before + 1) inside := by
  rw [scanRange_of_closed fun r hr => stop_le_of_offset_lt hr (end_of_group htext), List.mem_filter,
    Bool.and_eq_true, decide_eq_true_eq, decide_eq_true_eq]

/-- The heads in a group are those of the text whose parenthesis stands in it. -/
theorem mem_heads_group (htext : text.toList = before ++ '(' :: inside)
    {r : Reference} :
    r ∈ heads (Nesting.groupEnd 0 (byteLength before + 1) inside) (byteLength before + 1) inside ↔
      r ∈ Reference.scan text ∧ ∃ q, IsHeadOf (bytes text) q r.offset ∧ byteLength before < q ∧
        q < Nesting.groupEnd 0 (byteLength before + 1) inside := by
  have hlen := byteLength_concat_open before
  have hsplit : text.toList = before ++ ['('] ++ inside := by
    rw [htext, List.append_assoc, List.singleton_append]
  rw [← hlen, mem_heads_iff hsplit, hlen]
  refine and_congr_right fun hr => ?_
  constructor
  · rintro ⟨hstop, q, hq, hle⟩
    have hlt := hq.2.1.1
    have := (Reference.token_of_mem_scan hr).1
    exact ⟨q, hq, hle, by omega⟩
  · rintro ⟨q, hq, hle, hlt⟩
    exact ⟨stop_le_of_isHeadOf hr hq (end_of_group htext) hlt, q, hq, hle⟩

theorem mem_heads_text {r : Reference} :
    r ∈ heads text.utf8ByteSize 0 text.toList ↔
      r ∈ Reference.scan text ∧ ∃ q, IsHeadOf (bytes text) q r.offset := by
  have hsplit : text.toList = [] ++ text.toList := rfl
  rw [← byteLength_nil, mem_heads_iff hsplit, ← length_bytes]
  refine and_congr_right fun hr => ?_
  constructor
  · rintro ⟨-, q, hq, -⟩
    exact ⟨q, hq⟩
  · rintro ⟨q, hq⟩
    exact ⟨(Reference.token_of_mem_scan hr).2.1, q, hq, Nat.zero_le q⟩

end

/-- What a form binds is said by the byte positions alone. -/
theorem mem_boundBy {text : String} {form : Form} {k : Nat}
    (h : Form.classify text = some (form, k)) {r : Reference} :
    r ∈ boundBy form text k ↔ r ∈ Reference.scan text ∧ BoundAt (bytes text) k form r.offset := by
  obtain ⟨before, after, hlayout, hfirst⟩ := exists_layout h
  have htext := hlayout.toList_eq
  have hbyte : (bytes text)[byteLength before]? = some openByte ↔ ∃ inside, after = '(' :: inside := by
    rw [bytes_eq_encode, htext]
    exact open_iff before after
  have hend : ∀ inside, after = '(' :: inside → IsGroupEnd (bytes text) (byteLength before)
      (Nesting.groupEnd 0 (byteLength before + 1) inside) := by
    rintro inside rfl
    rw [bytes_eq_encode, htext]
    exact isGroupEnd_groupEnd before inside
  cases form with
  | rule =>
    by_cases hopen : ∃ inside, after = '(' :: inside
    · obtain ⟨inside, rfl⟩ := hopen
      rw [boundAt_rule hfirst (hbyte.2 ⟨inside, rfl⟩) (hend inside rfl), ← mem_scanRange_group htext,
        boundBy_rule hlayout]
    · rw [(boundBy_of_not_open hlayout hopen).1]
      have := (not_boundAt hfirst (mt hbyte.1 hopen) r.offset).1
      simp [this]
  | letOne =>
    rw [boundBy_letOne hlayout, Option.mem_toList, Reference.at?_eq_some]
    exact and_congr_right fun _ => ⟨fun he => by rw [he]; exact hfirst, fun hb => hb.unique hfirst⟩
  | letStar =>
    by_cases hopen : ∃ inside, after = '(' :: inside
    · obtain ⟨inside, rfl⟩ := hopen
      rw [boundAt_letStar hfirst (hbyte.2 ⟨inside, rfl⟩) (hend inside rfl), ← mem_heads_group htext,
        boundBy_letStar hlayout]
    · rw [(boundBy_of_not_open hlayout hopen).2]
      have := (not_boundAt hfirst (mt hbyte.1 hopen) r.offset).2
      simp [this]
  | matching => exact mem_heads_text

theorem pairwise_boundBy (form : Form) (text : String) (k : Nat) :
    (boundBy form text k).Pairwise fun a b => a.offset < b.offset := by
  unfold boundBy
  dsimp only
  split
  · exact Reference.pairwise_scanRange ..
  · cases Reference.at? text _ <;> simp
  · exact pairwise_heads ..
  · exact pairwise_heads ..
  · exact List.Pairwise.nil

end Binding

namespace Bindings

/-! ## Nothing is found twice or out of order -/

theorem push_of_lt {found : List Binding} {b : Binding} (h : ∀ d ∈ found, d.offset < b.offset) :
    push found b = found ++ [b] := by
  unfold push
  rw [if_neg]
  intro hany
  obtain ⟨d, hd, heq⟩ := List.any_eq_true.1 hany
  have hlt := h d hd
  rw [beq_iff_eq] at heq
  omega

theorem place_of_lt {sorted : List Binding} {b : Binding} (h : ∀ d ∈ sorted, d.offset < b.offset) :
    place sorted b = sorted ++ [b] := by
  induction sorted with
  | nil => rfl
  | cons d rest ih =>
    have hlt := h d List.mem_cons_self
    unfold place
    rw [if_neg (by omega), ih fun e he => h e (List.mem_cons_of_mem _ he)]
    rfl

/-- A step that puts each further binding at the end rebuilds the list. -/
theorem foldl_of_lt {step : List Binding → Binding → List Binding}
    (hstep : ∀ {found b}, (∀ d ∈ found, Binding.offset d < b.offset) → step found b = found ++ [b])
    {found bs : List Binding} (h : (found ++ bs).Pairwise fun a b => a.offset < b.offset) :
    bs.foldl step found = found ++ bs := by
  induction bs generalizing found with
  | nil => rw [List.foldl_nil, List.append_nil]
  | cons b bs ih =>
    have hlast : ∀ d ∈ found, d.offset < b.offset :=
      fun d hd => (List.pairwise_append.1 h).2.2 d hd b List.mem_cons_self
    rw [List.append_cons] at h
    rw [List.foldl_cons, hstep hlast, ih h, List.append_assoc, List.singleton_append]

theorem arrange_of_pairwise {bs : List Binding} (h : bs.Pairwise fun a b => a.offset < b.offset) :
    arrange bs = bs := by
  have hpush : bs.foldl push [] = bs := foldl_of_lt push_of_lt h
  have hplace : bs.foldl place [] = bs := foldl_of_lt place_of_lt h
  unfold arrange
  rw [hpush, hplace]

/-- What the search finds is arranged as it is. -/
theorem ofText_eq {text : String} {form : Form} {k : Nat}
    (h : Form.classify text = some (form, k)) :
    ofText text = ⟨some form, (Binding.boundBy form text k).map fun r => ⟨r, form⟩⟩ := by
  unfold ofText
  rw [h]
  dsimp only
  rw [arrange_of_pairwise (List.pairwise_map.2 (Binding.pairwise_boundBy ..))]

/-! ## The bindings of a text -/

theorem pairwise_sites (text : String) :
    (ofText text).sites.Pairwise fun a b => a.offset < b.offset := by
  cases h : Form.classify text with
  | none =>
    unfold ofText
    rw [h]
    exact List.Pairwise.nil
  | some found =>
    rw [ofText_eq h]
    exact List.pairwise_map.2 (Binding.pairwise_boundBy ..)

theorem mem_sites {text : String} {b : Binding} :
    b ∈ (ofText text).sites ↔ b.reference ∈ Reference.scan text ∧
      ∃ k, Form.classify text = some (b.form, k) ∧ BoundAt (bytes text) k b.form b.offset := by
  cases hsome : Form.classify text with
  | none =>
    unfold ofText
    simp [hsome]
  | some found =>
    obtain ⟨form, k⟩ := found
    rw [ofText_eq hsome, List.mem_map]
    constructor
    · rintro ⟨r, hr, rfl⟩
      obtain ⟨hscan, hbound⟩ := (Binding.mem_boundBy hsome).1 hr
      exact ⟨hscan, k, rfl, hbound⟩
    · rintro ⟨hscan, k', hk', hbound⟩
      obtain ⟨rfl, rfl⟩ := Prod.mk.inj (Option.some.inj hk')
      exact ⟨b.reference, (Binding.mem_boundBy hsome).2 ⟨hscan, hbound⟩, rfl⟩

theorem form_ofText (text : String) : (ofText text).form = (Form.classify text).map Prod.fst := by
  unfold ofText
  split
  · rename_i hnone
    rw [hnone]
    rfl
  · rename_i hsome
    rw [hsome]
    rfl

/-- The bindings of an expression are the references of its text that stand where its form binds,
each of them once, in the order of the text, and marked with that form. -/
theorem sites_are_references_where_form_binds (text : String) :
    (ofText text).form = (Form.classify text).map Prod.fst ∧
    ((ofText text).sites.Pairwise fun a b => a.offset < b.offset) ∧
    ∀ b : Binding, b ∈ (ofText text).sites ↔ b.reference ∈ Reference.scan text ∧
      ∃ k, Form.classify text = some (b.form, k) ∧ BoundAt (bytes text) k b.form b.offset :=
  ⟨form_ofText text, pairwise_sites text, fun _ => mem_sites⟩

end Bindings

end DefUse
