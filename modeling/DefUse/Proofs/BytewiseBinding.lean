import DefUse.Proofs.BindingSites
import DefUse.Proofs.ReferenceScanner

/-!
# Forms and bindings by bytes

The form of an expression and the references that it binds are found on the bytes of the text as well:
blanks are skipped byte by byte, a group is followed to its end with a count of the parentheses that
are open, and the parentheses of a range are the positions that hold the byte of one.  Each step that
looks at a byte, cuts out a range or counts down may fail with a `Fault`.

None does.  On every text the form is the one that its characters show (`classify_eq`), and the
bindings are those of the text (`bindings_eq`); the end of a group is found at every opening
parenthesis (`groupEnd_eq`), the parentheses in every range (`openings_eq`), and a head behind every
position (`headReference_eq`).
-/

namespace DefUse.Bytewise

open Text Position

/-- The first position from `pos` on that is not blank. -/
def skipBlanks (bs : List UInt8) (pos : Nat) : Nat :=
  pos + ((bs.drop pos).takeWhile isBlankByte).length

/-- Reads on at `pos` with `depth` groups open: the position behind the parenthesis that closes the
last of them, or `total` if none does. -/
def groupEndFrom (total depth pos : Nat) : List UInt8 → Except Fault Nat
  | [] => .ok total
  | b :: bs =>
    if b = openByte then groupEndFrom total (depth + 1) (pos + 1) bs
    else if b = closeByte then do
      let depth ← subtract depth 1
      if depth = 0 then .ok (pos + 1) else groupEndFrom total depth (pos + 1) bs
    else groupEndFrom total depth (pos + 1) bs

/-- The end of the group that opens at `opening`. -/
def groupEnd (bs : List UInt8) (opening : Nat) : Except Fault Nat :=
  groupEndFrom bs.length 0 opening (bs.drop opening)

def openingsAmong (bs : List UInt8) : List Nat → Except Fault (List Nat)
  | [] => .ok []
  | q :: qs => do
    let b ← byteAt bs q
    let more ← openingsAmong bs qs
    .ok (if b = openByte then q :: more else more)

/-- The opening parentheses from `start` on and before `stop`. -/
def openings (bs : List UInt8) (start stop : Nat) : Except Fault (List Nat) :=
  openingsAmong bs (List.range' start (min stop bs.length - start))

/-- The reference at the head of the group that opens at `opening`, if it ends at `limit` or before. -/
def headReference (text : String) (opening limit : Nat) : Except Fault (Option Reference) :=
  let first := skipBlanks (bytes text) (opening + 1)
  if limit ≤ first then .ok none
  else (referenceAt text first).map (·.filter (·.stop ≤ limit))

/-- The heads of the groups that open at the given positions. -/
def headReferences (text : String) (limit : Nat) : List Nat → Except Fault (List Reference)
  | [] => .ok []
  | q :: qs => do
    let head ← headReference text q limit
    let more ← headReferences text limit qs
    .ok (head.toList ++ more)

/-- Whether a keyword ends before the given byte. -/
def endsKeyword : Option UInt8 → Bool
  | none => true
  | some b => isBlankByte b || b == openByte || b == closeByte

/-- Whether the bytes start with the keyword of the form. -/
def opens (form : Form) (bs : List UInt8) : Bool :=
  (bytes form.keyword).isPrefixOf bs && endsKeyword bs[(bytes form.keyword).length]?

/-- The form whose keyword starts at `pos`, and the position behind it. -/
def leading (bs : List UInt8) (pos : Nat) : Except Fault (Option (Form × Nat)) := do
  let rest ← slice bs pos bs.length
  .ok ((Form.all.find? (opens · rest)).map fun form => (form, pos + (bytes form.keyword).length))

def spaceByte : UInt8 := 32

/-- The form of an expression and the position behind its keyword. -/
def classify (text : String) : Except Fault (Option (Form × Nat)) := do
  let bs := bytes text
  let trimmed := String.ofList (text.toList.dropWhile isWhite)
  let opening ← subtract bs.length trimmed.utf8ByteSize
  if bs[opening]? ≠ some openByte then .ok none
  else leading bs (if bs[opening + 1]? = some spaceByte then opening + 2 else opening + 1)

/-- The references of `text` that its form binds, where the keyword ends at `keywordEnd`. -/
def boundBy (form : Form) (text : String) (keywordEnd : Nat) : Except Fault (List Reference) :=
  let bs := bytes text
  let first := skipBlanks bs keywordEnd
  match form with
  | .rule =>
    if bs[first]? = some openByte then do
      let stop ← groupEnd bs first
      (Scanner.inRange text first stop).drain
    else .ok []
  | .letOne => (referenceAt text first).map Option.toList
  | .letStar =>
    if bs[first]? = some openByte then do
      let stop ← groupEnd bs first
      let qs ← openings bs (first + 1) stop
      headReferences text stop qs
    else .ok []
  | .matching => do
    let qs ← openings bs 0 bs.length
    headReferences text bs.length qs

/-- The bindings of an expression. -/
def bindings (text : String) : Except Fault Bindings := do
  match ← classify text with
  | none => .ok ⟨none, []⟩
  | some (form, keywordEnd) =>
    let found ← boundBy form text keywordEnd
    .ok ⟨some form, Bindings.arrange (found.map fun r => ⟨r, form⟩)⟩

/-! ## Blanks -/

/-- Blanks are one byte each, so they can be skipped on bytes. -/
theorem skipBlanks_eq {text : String} {pre post : List Char} (htext : text.toList = pre ++ post) :
    skipBlanks (bytes text) (byteLength pre) =
      byteLength pre + (post.takeWhile isBlank).length := by
  have hblank : ∀ c ∈ post.takeWhile isBlank, isBlank c = true :=
    List.all_eq_true.1 List.all_takeWhile
  rw [skipBlanks, bytes_eq_encode, htext, encode_append, List.drop_left' (length_encode pre),
    takeWhile_encode isBlankByte_of_mem, length_encode, byteLength_of_blank hblank]

/-! ## Groups -/

/-- Bytes that are no parentheses are passed over. -/
theorem groupEndFrom_append {flat : List UInt8} (h : ∀ b ∈ flat, b ≠ openByte ∧ b ≠ closeByte)
    (total depth pos : Nat) (bs : List UInt8) :
    groupEndFrom total depth pos (flat ++ bs) = groupEndFrom total depth (pos + flat.length) bs := by
  induction flat generalizing pos with
  | nil => rfl
  | cons b flat ih =>
    obtain ⟨hopen, hclose⟩ := h b List.mem_cons_self
    rw [List.cons_append, groupEndFrom, if_neg hopen, if_neg hclose,
      ih fun d hd => h d (List.mem_cons_of_mem _ hd), List.length_cons]
    congr 1
    omega

/-- The count of open groups is one more than that of the groups inside the one to be closed, so it is
never zero where a parenthesis closes. -/
theorem groupEndFrom_eq (inner pos : Nat) (cs : List Char) {total : Nat}
    (htotal : total = pos + byteLength cs) :
    groupEndFrom total (inner + 1) pos (encode cs) = .ok (Nesting.groupEnd inner pos cs) := by
  fun_induction Nesting.groupEnd inner pos cs with
  | case1 inner pos =>
    rw [htotal]
    rfl
  | case2 inner pos cs ih =>
    rw [byteLength_cons, ← Nat.add_assoc] at htotal
    rw [encode_open, groupEndFrom, if_pos rfl]
    exact ih htotal
  | case3 pos cs =>
    rw [encode_close, groupEndFrom, if_neg (by decide), if_pos rfl, subtract_eq (Nat.le_refl _), ok_bind]
    rfl
  | case4 pos cs inner hne ih =>
    rw [byteLength_cons, ← Nat.add_assoc] at htotal
    rw [encode_close, groupEndFrom, if_neg (by decide), if_pos rfl, subtract_eq (by omega), ok_bind,
      Nat.add_sub_cancel, if_neg (by omega)]
    exact ih htotal
  | case5 inner pos c cs hopen hclose ih =>
    have hflat : ∀ b ∈ String.utf8EncodeChar c, b ≠ openByte ∧ b ≠ closeByte := fun b hb =>
      ⟨mt (eq_ofNat_iff_of_mem (d := '(') hb (by decide)).1 hopen,
        mt (eq_ofNat_iff_of_mem (d := ')') hb (by decide)).1 hclose⟩
    rw [byteLength_cons, ← Nat.add_assoc] at htotal
    rw [encode_cons, groupEndFrom_append hflat, String.length_utf8EncodeChar]
    exact ih htotal

/-- The end of a group is found on bytes without a fault. -/
theorem groupEnd_eq {text : String} {before inside : List Char}
    (htext : text.toList = before ++ '(' :: inside) :
    groupEnd (bytes text) (byteLength before) =
      .ok (Nesting.groupEnd 0 (byteLength before + 1) inside) := by
  have hlen : (bytes text).length = byteLength before + 1 + byteLength inside := by
    rw [bytes_eq_encode, htext, length_group, length_encode]
  rw [groupEnd, hlen, bytes_eq_encode, htext, encode_append, List.drop_left' (length_encode before),
    encode_open, groupEndFrom, if_pos rfl]
  exact groupEndFrom_eq 0 _ inside rfl

-- Elsewhere the count can go below zero.
example : groupEnd (encode ")".toList) 0 = .error .underflow := rfl

/-! ## Opening parentheses -/

/-- The positions of a range at which a parenthesis opens. -/
def openingsIn (bs : List UInt8) (start stop : Nat) : List Nat :=
  (List.range' start (min stop bs.length - start)).filter fun q => bs[q]? = some openByte

theorem openingsAmong_eq {bs : List UInt8} {qs : List Nat} (h : ∀ q ∈ qs, q < bs.length) :
    openingsAmong bs qs = .ok (qs.filter fun q => bs[q]? = some openByte) := by
  induction qs with
  | nil => rfl
  | cons q qs ih =>
    have hq := List.getElem?_eq_getElem (h q List.mem_cons_self)
    rw [openingsAmong, byteAt_eq hq, ok_bind, ih fun p hp => h p (List.mem_cons_of_mem _ hp), ok_bind,
      List.filter_cons, hq]
    simp only [Option.some.injEq, decide_eq_true_eq]

theorem openings_eq (bs : List UInt8) (start stop : Nat) :
    openings bs start stop = .ok (openingsIn bs start stop) := by
  apply openingsAmong_eq
  intro q hq
  rw [List.mem_range'_1] at hq
  omega

theorem openingsIn_of_le {bs : List UInt8} {start stop : Nat} (h : min stop bs.length ≤ start) :
    openingsIn bs start stop = [] := by
  rw [openingsIn, Nat.sub_eq_zero_of_le h]
  rfl

theorem openingsIn_of_open {bs : List UInt8} {start stop : Nat} (h : start < stop)
    (hopen : bs[start]? = some openByte) :
    openingsIn bs start stop = start :: openingsIn bs (start + 1) stop := by
  have hlen := (List.getElem?_eq_some_iff.1 hopen).1
  rw [openingsIn, show min stop bs.length - start = min stop bs.length - (start + 1) + 1 by omega,
    List.range'_succ, List.filter_cons, if_pos (by simpa using hopen)]
  rfl

theorem openingsIn_skip {bs : List UInt8} {start : Nat} (stop n : Nat)
    (h : ∀ j < n, bs[start + j]? ≠ some openByte) :
    openingsIn bs start stop = openingsIn bs (start + n) stop := by
  induction n with
  | zero => rfl
  | succ n ih =>
    rw [ih fun j hj => h j (by omega)]
    by_cases hle : min stop bs.length ≤ start + n
    · rw [openingsIn_of_le hle, openingsIn_of_le (by omega)]
    · rw [openingsIn, show min stop bs.length - (start + n) =
          min stop bs.length - (start + (n + 1)) + 1 by omega, List.range'_succ, List.filter_cons,
        if_neg (by simpa using h n (by omega))]
      rfl

/-! ## Heads of groups -/

theorem headReference_eq (text : String) (opening limit : Nat) :
    headReference text opening limit =
      .ok (if limit ≤ skipBlanks (bytes text) (opening + 1) then none
        else (Reference.at? text (skipBlanks (bytes text) (opening + 1))).filter (·.stop ≤ limit)) := by
  unfold headReference
  dsimp only
  split
  · rfl
  · rw [referenceAt_eq]
    rfl

/-- Behind an opening parenthesis this is the head of the group. -/
theorem headReference_group {text : String} {before inside : List Char}
    (htext : text.toList = before ++ '(' :: inside) (limit : Nat) :
    headReference text (byteLength before) limit =
      .ok (Binding.head? limit (byteLength before + 1) inside) := by
  have hblank : ∀ c ∈ inside.takeWhile isBlank, isBlank c = true :=
    List.all_eq_true.1 List.all_takeWhile
  have hlen := byteLength_concat_open before
  have hskip := skipBlanks_eq (htext.trans (List.append_cons ..))
  rw [hlen] at hskip
  have hsplit : text.toList = (before ++ '(' :: inside.takeWhile isBlank) ++ inside.dropWhile isBlank := by
    rw [htext, List.append_assoc, List.cons_append, List.takeWhile_append_dropWhile]
  have hfirst : byteLength (before ++ '(' :: inside.takeWhile isBlank) =
      byteLength before + 1 + (inside.takeWhile isBlank).length := by
    rw [List.append_cons, byteLength_append, hlen, byteLength_of_blank hblank]
  have hat := Reference.at?_byteLength hsplit
  rw [hfirst, Reference.here?, Binding.any_getLast?_of_blanks before hblank] at hat
  rw [headReference_eq, hskip, hat]
  rfl

/-- The heads of the groups in a range are found on bytes. -/
theorem headReferences_eq {text : String} {before inside : List Char}
    (htext : text.toList = before ++ inside) (limit : Nat) :
    headReferences text limit (openingsIn (bytes text) (byteLength before) limit) =
      .ok (Binding.heads limit (byteLength before) inside) := by
  induction inside generalizing before with
  | nil =>
    have hlen : (bytes text).length = byteLength before := by
      rw [bytes_eq_encode, htext, List.append_nil, length_encode]
    rw [openingsIn_of_le (by omega)]
    rfl
  | cons c cs ih =>
    by_cases hlimit : limit ≤ byteLength before
    · rw [openingsIn_of_le (by omega), Binding.heads, if_pos hlimit]
      rfl
    · have hnext := ih (htext.trans (List.append_cons ..))
      rw [byteLength_concat] at hnext
      rw [Binding.heads_cons _ _ _ _ (by omega)]
      by_cases hc : c = '('
      · subst hc
        have hopen : (bytes text)[byteLength before]? = some openByte := by
          rw [bytes_eq_encode, htext]
          exact (open_iff before _).2 ⟨cs, rfl⟩
        have hsize : Char.utf8Size '(' = 1 := rfl
        rw [hsize] at hnext ⊢
        rw [openingsIn_of_open (by omega) hopen, headReferences, headReference_group htext, ok_bind, hnext,
          ok_bind, if_pos rfl]
      · -- no byte of another character is that of a parenthesis
        have hskip : ∀ j < c.utf8Size, (bytes text)[byteLength before + j]? ≠ some openByte := by
          intro j hj hopen
          rw [← String.length_utf8EncodeChar] at hj
          rw [bytes_eq_encode, htext, getElem?_encode_append_add, encode_cons,
            List.getElem?_append_left hj] at hopen
          exact hc ((eq_ofNat_iff_of_mem (d := '(') (List.mem_of_getElem? hopen) (by decide)).1 rfl)
        rw [openingsIn_skip limit c.utf8Size hskip, hnext, if_neg hc]
        rfl

/-! ## Forms -/

theorem isPrefixOf_encode {ks : List Char} (h : ∀ c ∈ ks, c.toNat < 128) (cs : List Char) :
    (encode ks).isPrefixOf (encode cs) = ks.isPrefixOf cs := by
  induction ks generalizing cs with
  | nil => rfl
  | cons k ks ih =>
    have hk := h k List.mem_cons_self
    rw [encode_cons, utf8Encode_ascii hk, List.singleton_append]
    cases cs with
    | nil => rfl
    | cons c cs =>
      by_cases hc : c = k
      · subst hc
        rw [encode_cons, utf8Encode_ascii hk, List.singleton_append, List.isPrefixOf_cons_cons, beq_self_eq_true,
          List.isPrefixOf_cons_cons, beq_self_eq_true, ih fun d hd => h d (List.mem_cons_of_mem _ hd)]
      · obtain ⟨b, bs, hmem, hbs⟩ := exists_encode_cons c cs
        have hb : UInt8.ofNat k.toNat ≠ b := fun heq => hc ((eq_ofNat_iff_of_mem hmem hk).1 heq.symm)
        rw [hbs, List.isPrefixOf_cons_cons, List.isPrefixOf_cons_cons, beq_false_of_ne hb,
          beq_false_of_ne (Ne.symm hc)]
        rfl

theorem endsKeyword_eq (cs : List Char) : endsKeyword (encode cs)[0]? = Form.endsKeyword cs := by
  cases cs with
  | nil => rfl
  | cons c cs =>
    obtain ⟨b, bs, hmem, hbs⟩ := exists_encode_cons c cs
    have hopen : b = openByte ↔ c = '(' := eq_ofNat_iff_of_mem (d := '(') hmem (by decide)
    have hclose : b = closeByte ↔ c = ')' := eq_ofNat_iff_of_mem (d := ')') hmem (by decide)
    rw [hbs]
    simp only [List.getElem?_cons_zero, endsKeyword, Form.endsKeyword,
      isBlankByte_of_mem hmem, Bool.beq_eq_decide_eq, hopen, hclose]

/-- Keywords are ASCII, so they can be compared on bytes. -/
theorem opens_eq (form : Form) (cs : List Char) : opens form (encode cs) = Form.opens form cs := by
  have hletters : form.keyword.toList.all (fun c => c.toNat < 128) = true := by
    cases form <;> decide
  have hascii : ∀ c ∈ form.keyword.toList, c.toNat < 128 := fun c hc => by
    simpa using List.all_eq_true.1 hletters c hc
  unfold opens Form.opens
  rw [bytes_eq_encode, isPrefixOf_encode hascii, length_encode]
  by_cases hstarts : form.keyword.toList.isPrefixOf cs = true
  · obtain ⟨rest, rfl⟩ := List.isPrefixOf_iff_prefix.1 hstarts
    have hends := getElem?_encode_append_add form.keyword.toList rest 0
    rw [Nat.add_zero] at hends
    rw [hends, endsKeyword_eq, ← String.length_toList, List.drop_left]
  · rw [Bool.not_eq_true] at hstarts
    rw [hstarts, Bool.false_and, Bool.false_and]

theorem leading_eq {text : String} {pre body : List Char} (htext : text.toList = pre ++ body) :
    leading (bytes text) (byteLength pre) = .ok (Form.leading? (byteLength pre) body) := by
  have hlen : (bytes text).length = byteLength pre + byteLength body := by
    rw [bytes_eq_encode, htext, length_encode, byteLength_append]
  have hrest : (bytes text).drop (byteLength pre) = encode body := by
    rw [bytes_eq_encode, htext, encode_append, List.drop_left' (length_encode pre)]
  have hkeyword : ∀ form : Form, (bytes form.keyword).length = form.keyword.length := by
    intro form
    cases form <;> decide
  rw [leading, slice_eq (by omega) (Nat.le_refl _), ok_bind, List.take_length, hrest]
  simp only [opens_eq, hkeyword]
  rfl

theorem space_iff {text : String} {white body : List Char}
    (htext : text.toList = white ++ '(' :: body) :
    (bytes text)[byteLength white + 1]? = some spaceByte ↔ ∃ rest, body = ' ' :: rest := by
  rw [bytes_eq_encode, htext, ← byteLength_concat_open, List.append_cons]
  exact getElem?_encode_eq_iff (c := ' ') (by decide) _ body

/-- The classifier on bytes does not fault and gives the same form and offset. -/
theorem classify_eq (text : String) : classify text = .ok (Form.classify text) := by
  have htext : text.toList = text.toList.takeWhile isWhite ++ text.toList.dropWhile isWhite :=
    List.takeWhile_append_dropWhile.symm
  have hlen : (bytes text).length = byteLength (text.toList.takeWhile isWhite) +
      byteLength (text.toList.dropWhile isWhite) := by
    rw [← byteLength_append, ← htext, bytes_eq_encode, length_encode]
  unfold classify Form.classify
  dsimp only
  generalize text.toList.takeWhile isWhite = white at *
  generalize text.toList.dropWhile isWhite = after at *
  have hopen : (bytes text)[byteLength white]? = some openByte ↔ ∃ body, after = '(' :: body := by
    rw [bytes_eq_encode, htext]
    exact open_iff white after
  have hindent : subtract (bytes text).length (byteLength after) = .ok (byteLength white) := by
    rw [hlen, subtract_eq (Nat.le_add_left ..), Nat.add_sub_cancel]
  rw [utf8ByteSize_ofList, hindent, ok_bind]
  by_cases hafter : ∃ body, after = '(' :: body
  · obtain ⟨body, rfl⟩ := hafter
    rw [if_neg (not_not.2 (hopen.2 ⟨body, rfl⟩))]
    by_cases hbody : ∃ rest, body = ' ' :: rest
    · obtain ⟨rest, rfl⟩ := hbody
      have hparts : text.toList = white ++ ['(', ' '] ++ rest := by
        rw [htext, List.append_assoc]
        rfl
      have hsize : byteLength (white ++ ['(', ' ']) = byteLength white + 2 := byteLength_append white _
      have hleading := leading_eq hparts
      rw [hsize] at hleading
      rw [if_pos ((space_iff htext).2 ⟨rest, rfl⟩)]
      exact hleading
    · have hleading := leading_eq (htext.trans (List.append_cons ..))
      rw [byteLength_concat_open] at hleading
      rw [if_neg (mt (space_iff htext).1 hbody), hleading]
      split
      · rename_i hspaced
        exact absurd ⟨_, (List.cons.inj hspaced).2⟩ hbody
      · rename_i hplain
        rw [(List.cons.inj hplain).2]
      · rename_i hno
        exact absurd rfl (hno body)
  · rw [if_pos (mt hopen.1 hafter)]
    split
    · exact absurd ⟨_, rfl⟩ hafter
    · exact absurd ⟨_, rfl⟩ hafter
    · rfl

/-! ## Bindings -/

theorem boundBy_eq {text : String} {form : Form} {k : Nat}
    (h : Form.classify text = some (form, k)) :
    boundBy form text k = .ok (Binding.boundBy form text k) := by
  obtain ⟨opening, rest, htext, -, -, rfl⟩ := Form.classify_eq_some.1 h
  have hlayout := Binding.layout_of_append htext
  have hfirst := hlayout.first_eq
  rw [htext, dropBytes_byteLength, ← skipBlanks_eq htext] at hfirst
  generalize opening ++ rest.takeWhile isBlank = before at hlayout hfirst
  generalize rest.dropWhile isBlank = after at hlayout
  have hopen : (bytes text)[byteLength before]? = some openByte ↔ ∃ inside, after = '(' :: inside := by
    rw [bytes_eq_encode, hlayout.toList_eq]
    exact open_iff before after
  unfold boundBy
  dsimp only
  rw [hfirst]
  cases form with
  | rule =>
    by_cases hgroup : ∃ inside, after = '(' :: inside
    · obtain ⟨inside, rfl⟩ := hgroup
      rw [Binding.boundBy_rule hlayout]
      dsimp only
      rw [if_pos (hopen.2 ⟨inside, rfl⟩), groupEnd_eq hlayout.toList_eq, ok_bind,
        Scanner.drain_eq (Scanner.inside_inRange ..), Scanner.pending_inRange]
    · rw [(Binding.boundBy_of_not_open hlayout hgroup).1]
      exact if_neg (mt hopen.1 hgroup)
  | letOne =>
    rw [Binding.boundBy_letOne hlayout]
    dsimp only
    rw [referenceAt_eq]
    rfl
  | letStar =>
    by_cases hgroup : ∃ inside, after = '(' :: inside
    · obtain ⟨inside, rfl⟩ := hgroup
      have hheads := headReferences_eq (hlayout.toList_eq.trans (List.append_cons ..))
        (Nesting.groupEnd 0 (byteLength before + 1) inside)
      rw [byteLength_concat_open] at hheads
      rw [Binding.boundBy_letStar hlayout]
      dsimp only
      rw [if_pos (hopen.2 ⟨inside, rfl⟩), groupEnd_eq hlayout.toList_eq, ok_bind, openings_eq, ok_bind,
        hheads]
    · rw [(Binding.boundBy_of_not_open hlayout hgroup).2]
      exact if_neg (mt hopen.1 hgroup)
  | matching =>
    have hheads := headReferences_eq (List.nil_append text.toList).symm (bytes text).length
    rw [byteLength_nil, length_bytes] at hheads
    dsimp only
    rw [openings_eq, ok_bind, length_bytes, hheads]
    rfl

/-- The bindings of a text are found on bytes without a fault. -/
theorem bindings_eq (text : String) : bindings text = .ok (Bindings.ofText text) := by
  unfold bindings Bindings.ofText
  rw [classify_eq, ok_bind]
  cases h : Form.classify text with
  | none => rfl
  | some found =>
    dsimp only
    rw [boundBy_eq h, ok_bind]

end DefUse.Bytewise
