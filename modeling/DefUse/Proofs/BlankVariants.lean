import DefUse.Proofs.BindingSites
import DefUse.Proofs.ReferenceSearch

/-!
# Which blank it is makes no difference

Blanks separate the parts of an expression, and which of the five stands somewhere matters in one
place only: between the opening parenthesis and the keyword there may be a space, but no other blank.

To level bytes is to make every blank a space.  Texts that differ only in their blanks are levelled to
the same bytes (`BlankVariant.map_level_eq`), and every rule about positions holds of levelled bytes
exactly if it holds of the bytes themselves:

    BoundAt (bs.map level) k form o       ↔  BoundAt bs k form o                  (boundAt_level)
    Reference.IsSigil (bs.map level) o    ↔  Reference.IsSigil bs o               (isSigil_level)
    Reference.nameBytes (bs.map level) o  =  Reference.nameBytes bs o             (nameBytes_level)

The form is read from the characters, which are levelled to the same characters (`map_levelChar_eq`).
What the grammar reads in one text it reads in the other, part by part (`Form.Parse.exists_of_level`).
-/

namespace DefUse

open Text Position

/-- Where two texts differ, both have a blank. -/
structure BlankVariant (bs bs' : List UInt8) : Prop where
  length_eq : bs.length = bs'.length
  blank : ∀ pair ∈ bs.zip bs', pair.1 ≠ pair.2 →
    isBlankByte pair.1 = true ∧ isBlankByte pair.2 = true

theorem blankVariant_iff_all {bs bs' : List UInt8} : BlankVariant bs bs' ↔
    bs.length = bs'.length ∧ (bs.zip bs').all (fun pair =>
      pair.1 == pair.2 || isBlankByte pair.1 && isBlankByte pair.2) = true := by
  constructor
  · rintro ⟨hlen, hblank⟩
    refine ⟨hlen, List.all_eq_true.2 fun pair hpair => ?_⟩
    by_cases hsame : pair.1 = pair.2
    · simp [hsame]
    · simp [hblank pair hpair hsame]
  · rintro ⟨hlen, hall⟩
    refine ⟨hlen, fun pair hpair hne => ?_⟩
    simpa [hne] using List.all_eq_true.1 hall pair hpair

instance (bs bs' : List UInt8) : Decidable (BlankVariant bs bs') :=
  decidable_of_iff _ blankVariant_iff_all.symm

/-- The offset of the first character that is not white. -/
def firstOffset (text : String) : Nat := byteLength (text.toList.takeWhile isWhite)

/-- The byte behind the parenthesis that opens the first text, if one does, is the same in both. -/
def SameBehindOpening (text text' : String) : Prop :=
  (bytes text)[firstOffset text]? = some openByte →
    (bytes text)[firstOffset text + 1]? = (bytes text')[firstOffset text + 1]?

instance (text text' : String) : Decidable (SameBehindOpening text text') :=
  inferInstanceAs (Decidable (_ → _))

namespace Text

/-! ## Levelled bytes -/

/-- A byte, or a space if it is that of a blank. -/
def level (b : UInt8) : UInt8 := if isBlankByte b = true then 32 else b

theorem level_of_blank {b : UInt8} (h : isBlankByte b = true) : level b = 32 := if_pos h

theorem level_of_solid {b : UInt8} (h : isBlankByte b = false) : level b = b :=
  if_neg (by simp [h])

theorem map_level_of_solid {bs : List UInt8} (h : ∀ b ∈ bs, isBlankByte b = false) :
    bs.map level = bs := by
  rw [List.map_congr_left fun b hb => level_of_solid (h b hb), List.map_id']

/-- What is the same for all blanks is the same for a byte and the levelled one. -/
theorem apply_level {α : Type} {f : UInt8 → α} (h : ∀ b, isBlankByte b = true → f b = f 32)
    (b : UInt8) : f (level b) = f b := by
  cases hb : isBlankByte b with
  | false => rw [level_of_solid hb]
  | true => rw [level_of_blank hb, h b hb]

theorem eq_of_isBlankByte {b : UInt8} (h : isBlankByte b = true) :
    b = 32 ∨ b = 9 ∨ b = 10 ∨ b = 12 ∨ b = 13 := by
  simpa [isBlankByte, or_assoc] using h

@[simp] theorem isBlankByte_level (b : UInt8) : isBlankByte (level b) = isBlankByte b :=
  apply_level (fun _ h => h) b

theorem isIdentifierByte_of_blank {b : UInt8} (h : isBlankByte b = true) :
    isIdentifierByte b = false := by
  rcases eq_of_isBlankByte h with rfl | rfl | rfl | rfl | rfl <;> rfl

@[simp] theorem isIdentifierByte_level (b : UInt8) : isIdentifierByte (level b) = isIdentifierByte b :=
  apply_level (fun _ h => isIdentifierByte_of_blank h) b

@[simp] theorem byteWeight_level (b : UInt8) : byteWeight (level b) = byteWeight b := by
  apply apply_level
  intro b hb
  rcases eq_of_isBlankByte hb with rfl | rfl | rfl | rfl | rfl <;> rfl

theorem level_eq_iff {b d : UInt8} (hd : isBlankByte d = false) : level b = d ↔ b = d := by
  constructor
  · rintro rfl
    rw [isBlankByte_level] at hd
    exact (level_of_solid hd).symm
  · rintro rfl
    exact level_of_solid hd

/-! ## Levelled characters -/

/-- A character, or a space if it is blank. -/
def levelChar (c : Char) : Char := if isBlank c = true then ' ' else c

theorem levelChar_of_blank {c : Char} (h : isBlank c = true) : levelChar c = ' ' := if_pos h

theorem levelChar_of_solid {c : Char} (h : isBlank c = false) : levelChar c = c :=
  if_neg (by simp [h])

@[simp] theorem isBlank_levelChar (c : Char) : isBlank (levelChar c) = isBlank c := by
  cases hc : isBlank c with
  | false => rw [levelChar_of_solid hc, hc]
  | true => rw [levelChar_of_blank hc]; rfl

@[simp] theorem isWhite_levelChar (c : Char) : isWhite (levelChar c) = isWhite c := by
  cases hc : isBlank c with
  | false => rw [levelChar_of_solid hc]
  | true => rw [levelChar_of_blank hc, isWhite_of_isBlank hc]; rfl

theorem levelChar_eq_iff {c d : Char} (hd : isBlank d = false) : levelChar c = d ↔ c = d := by
  constructor
  · rintro rfl
    rw [isBlank_levelChar] at hd
    exact (levelChar_of_solid hd).symm
  · rintro rfl
    exact levelChar_of_solid hd

/-- Only the word itself is levelled to a word without blanks. -/
theorem eq_of_map_levelChar {cs word : List Char} (hword : ∀ c ∈ word, isBlank c = false)
    (h : cs.map levelChar = word.map levelChar) : cs = word := by
  rw [List.map_congr_left fun c hc => levelChar_of_solid (hword c hc), List.map_id'] at h
  have hsolid : ∀ c ∈ cs, levelChar c = c := by
    intro c hc
    apply levelChar_of_solid
    rw [← isBlank_levelChar]
    exact hword _ (h ▸ List.mem_map_of_mem hc)
  rw [← h, List.map_congr_left hsolid, List.map_id']

theorem utf8EncodeChar_levelChar (c : Char) :
    String.utf8EncodeChar (levelChar c) = (String.utf8EncodeChar c).map level := by
  cases hc : isBlank c with
  | false =>
    have hsolid : ∀ b ∈ String.utf8EncodeChar c, isBlankByte b = false :=
      fun b hb => (isBlankByte_of_mem hb).trans hc
    rw [levelChar_of_solid hc, map_level_of_solid hsolid]
  | true => rcases isBlank_iff.1 hc with rfl | rfl | rfl | rfl | rfl <;> decide

/-- Levelling characters is levelling their bytes. -/
theorem encode_map_levelChar (cs : List Char) :
    encode (cs.map levelChar) = (encode cs).map level := by
  induction cs with
  | nil => rfl
  | cons c cs ih =>
    rw [List.map_cons, encode_cons, encode_cons, utf8EncodeChar_levelChar, ih, List.map_append]

@[simp] theorem byteLength_map_levelChar (cs : List Char) :
    byteLength (cs.map levelChar) = byteLength cs := by
  rw [← length_encode, encode_map_levelChar, List.length_map, length_encode]

end Text

/-- Blank variants are the same when levelled. -/
theorem BlankVariant.map_level_eq {bs bs' : List UInt8} (h : BlankVariant bs bs') :
    bs.map level = bs'.map level := by
  have hlen := h.length_eq
  refine List.ext_getElem (by rw [List.length_map, List.length_map, hlen]) fun i hi hi' => ?_
  rw [List.length_map] at hi hi'
  rw [List.getElem_map, List.getElem_map]
  by_cases hsame : bs[i] = bs'[i]
  · rw [hsame]
  · have hpair : (bs[i], bs'[i]) ∈ bs.zip bs' :=
      List.mem_iff_getElem.2 ⟨i, by rw [List.length_zip]; omega, List.getElem_zip⟩
    obtain ⟨hblank, hblank'⟩ := h.blank _ hpair hsame
    rw [level_of_blank hblank, level_of_blank hblank']

/-! ## Positions and references -/

section

variable (bs : List UInt8)

theorem getElem?_level_eq_some {d : UInt8} (hd : isBlankByte d = false) (i : Nat) :
    (bs.map level)[i]? = some d ↔ bs[i]? = some d := by
  rw [List.getElem?_map]
  cases bs[i]? with
  | none => simp
  | some b => simp [level_eq_iff hd]

/-- Levelling moves no byte that is not blank. -/
theorem isFirstSolid_level (start p : Nat) :
    IsFirstSolid (bs.map level) start p ↔ IsFirstSolid bs start p := by
  simp [IsFirstSolid]

theorem byteDepth_level : byteDepth (bs.map level) = byteDepth bs := by
  induction bs with
  | nil => rfl
  | cons b bs ih => rw [List.map_cons, byteDepth_cons, byteDepth_cons, byteWeight_level, ih]

theorem closings_level (p : Nat) : closings (bs.map level) p = closings bs p := by
  unfold closings
  simp only [List.length_map, ← List.map_take, ← List.map_drop, byteDepth_level]

theorem isGroupEnd_level (p e : Nat) : IsGroupEnd (bs.map level) p e ↔ IsGroupEnd bs p e := by
  rw [IsGroupEnd, closings_level, List.length_map, IsGroupEnd]

theorem isHeadOf_level (q o : Nat) : IsHeadOf (bs.map level) q o ↔ IsHeadOf bs q o := by
  have hopen := getElem?_level_eq_some bs (d := openByte) rfl
  rw [IsHeadOf, hopen, IsHeadOf]
  simp

/-- Levelling keeps the places where a form binds. -/
theorem boundAt_level (k : Nat) (form : Form) (o : Nat) :
    BoundAt (bs.map level) k form o ↔ BoundAt bs k form o := by
  have hopen := getElem?_level_eq_some bs (d := openByte) rfl
  cases form <;>
  simp only [BoundAt, isFirstSolid_level, isGroupEnd_level, isHeadOf_level, hopen]

theorem isSigil_level (o : Nat) : Reference.IsSigil (bs.map level) o ↔ Reference.IsSigil bs o := by
  have hsigil := getElem?_level_eq_some bs (d := Reference.sigilByte) rfl o
  have hbefore : (∀ k b, k + 1 = o → (bs.map level)[k]? = some b → isIdentifierByte b = false) ↔
      ∀ k b, k + 1 = o → bs[k]? = some b → isIdentifierByte b = false := by
    constructor
    · intro h k b hk hb
      rw [← isIdentifierByte_level]
      exact h k (level b) hk (by rw [List.getElem?_map, hb]; rfl)
    · intro h k b hk hb
      rw [List.getElem?_map, Option.map_eq_some_iff] at hb
      obtain ⟨b, hb, rfl⟩ := hb
      rw [isIdentifierByte_level]
      exact h k b hk hb
  have hbehind : (∃ b, (bs.map level)[o + 1]? = some b ∧ isIdentifierByte b = true) ↔
      ∃ b, bs[o + 1]? = some b ∧ isIdentifierByte b = true := by
    simp
  exact ⟨fun h => ⟨hsigil.1 h.sigil, hbefore.1 h.before, hbehind.1 h.behind⟩,
    fun h => ⟨hsigil.2 h.sigil, hbefore.2 h.before, hbehind.2 h.behind⟩⟩

theorem nameBytes_level (o : Nat) :
    Reference.nameBytes (bs.map level) o = Reference.nameBytes bs o := by
  -- a name has no blanks, so levelling leaves it as it is
  have hrun : ∀ b ∈ (bs.drop (o + 1)).takeWhile isIdentifierByte, isBlankByte b = false := by
    intro b hb
    rw [← Bool.not_eq_true]
    intro hblank
    have hident := List.all_eq_true.1 List.all_takeWhile b hb
    rw [isIdentifierByte_of_blank hblank] at hident
    cases hident
  have hsame : isIdentifierByte ∘ level = isIdentifierByte := funext isIdentifierByte_level
  rw [Reference.nameBytes, ← List.map_drop, List.takeWhile_map, hsame, map_level_of_solid hrun,
    Reference.nameBytes]

end

/-! ## The form -/

namespace Form

theorem endsKeyword_map_levelChar (cs : List Char) :
    endsKeyword (cs.map levelChar) = endsKeyword cs := by
  have hopen : isBlank '(' = false := rfl
  have hclose : isBlank ')' = false := rfl
  cases cs with
  | nil => rfl
  | cons c cs => simp [endsKeyword, levelChar_eq_iff hopen, levelChar_eq_iff hclose]

theorem isBlank_of_mem_keyword {form : Form} {c : Char} (h : c ∈ form.keyword.toList) :
    isBlank c = false := by
  have hends := not_endsKeyword_of_mem h []
  rw [endsKeyword, Bool.or_eq_false_iff, Bool.or_eq_false_iff] at hends
  exact hends.1.1

/-- What the grammar reads it reads with other blanks too, if the byte behind the parenthesis stays
the same. -/
theorem Parse.exists_of_level {cs cs' white space rest : List Char} {form : Form}
    (h : Parse cs white space form rest) (hlevel : cs'.map levelChar = cs.map levelChar)
    (hbehind : (encode cs)[byteLength white + 1]? = (encode cs')[byteLength white + 1]?) :
    ∃ white' rest', Parse cs' white' space form rest' ∧ byteLength white' = byteLength white := by
  rw [h.parts, List.map_append, List.map_cons, List.map_append, List.map_append] at hlevel
  obtain ⟨white', inside, rfl, hwhite, hinside⟩ := List.map_eq_append_iff.1 hlevel
  obtain ⟨paren, body, rfl, hparen, hbody⟩ := List.map_eq_cons_iff.1 hinside
  obtain ⟨space', behind, rfl, hspace, hkeyword⟩ := List.map_eq_append_iff.1 hbody
  obtain ⟨keyword, rest', rfl, hword, hrest⟩ := List.map_eq_append_iff.1 hkeyword
  obtain rfl := (levelChar_eq_iff (d := '(') rfl).1 hparen
  obtain rfl := eq_of_map_levelChar (fun c hc => isBlank_of_mem_keyword hc) hword
  have hlength : byteLength white' = byteLength white := by
    rw [← byteLength_map_levelChar, hwhite, byteLength_map_levelChar]
  have hsame : space' = space := by
    rcases h.space with rfl | rfl
    · exact List.map_eq_nil_iff.1 hspace
    · -- one blank stands there, and by its byte it is a space
      obtain ⟨d, more, rfl, -, hmore⟩ := List.map_eq_cons_iff.1 hspace
      obtain rfl := List.map_eq_nil_iff.1 hmore
      have hbyte : (encode cs)[byteLength white + 1]? = some (UInt8.ofNat ' '.toNat) := by
        rw [h.parts, List.append_cons, ← byteLength_concat_open]
        exact (getElem?_encode_eq_iff (by decide) _ _).2 ⟨_, rfl⟩
      rw [hbehind, ← hlength, ← byteLength_concat_open, List.append_cons] at hbyte
      obtain ⟨more, hmore⟩ := (getElem?_encode_eq_iff (by decide) _ _).1 hbyte
      rw [(List.cons.inj hmore).1]
  subst hsame
  refine ⟨white', rest', ⟨rfl, ?_, h.space, endsKeyword_iff.1 ?_⟩, hlength⟩
  · intro c hc
    have hmem : levelChar c ∈ white.map levelChar := hwhite ▸ List.mem_map_of_mem hc
    obtain ⟨d, hd, hsame⟩ := List.mem_map.1 hmem
    rw [← isWhite_levelChar, ← hsame, isWhite_levelChar, h.white d hd]
  · rw [← endsKeyword_map_levelChar, hrest, endsKeyword_map_levelChar]
    exact endsKeyword_iff.2 h.rest

end Form

/-! ## Two texts -/

section

variable {text text' : String} (hlevel : (bytes text).map level = (bytes text').map level)

include hlevel

theorem map_levelChar_eq : text.toList.map levelChar = text'.toList.map levelChar := by
  have hbytes : bytes (String.ofList (text.toList.map levelChar)) =
      bytes (String.ofList (text'.toList.map levelChar)) := by
    rw [bytes_eq_encode, bytes_eq_encode, String.toList_ofList, String.toList_ofList,
      encode_map_levelChar, encode_map_levelChar, ← bytes_eq_encode, ← bytes_eq_encode, hlevel]
  exact String.ofList_injective (Reference.bytes_injective hbytes)

theorem firstOffset_eq : firstOffset text = firstOffset text' := by
  have hlevelled : ∀ cs : List Char,
      byteLength (cs.takeWhile isWhite) = byteLength ((cs.map levelChar).takeWhile isWhite) := by
    intro cs
    rw [List.takeWhile_map, show isWhite ∘ levelChar = isWhite from funext isWhite_levelChar,
      byteLength_map_levelChar]
  rw [firstOffset, hlevelled, map_levelChar_eq hlevel, ← hlevelled, firstOffset]

theorem SameBehindOpening.symm (h : SameBehindOpening text text') : SameBehindOpening text' text := by
  intro hopen
  rw [← firstOffset_eq hlevel] at hopen ⊢
  rw [← getElem?_level_eq_some _ rfl, ← hlevel, getElem?_level_eq_some _ rfl] at hopen
  exact (h hopen).symm

/-- A variant is of the same form, if it has the same byte behind the parenthesis. -/
theorem classify_of_level {form : Form} {k : Nat} (hopening : SameBehindOpening text text')
    (h : Form.classify text = some (form, k)) : Form.classify text' = some (form, k) := by
  obtain ⟨white, space, rest, hparse, rfl⟩ := Form.classify_eq_some_iff_parse.1 h
  have hfirst : firstOffset text = byteLength white := congrArg byteLength hparse.split_white.1
  have hopen : (bytes text)[firstOffset text]? = some openByte := by
    rw [hfirst, bytes_eq_encode, hparse.parts]
    exact (open_iff _ _).2 ⟨_, rfl⟩
  have hbehind := hopening hopen
  rw [hfirst, bytes_eq_encode, bytes_eq_encode] at hbehind
  obtain ⟨white', rest', hparse', hlength⟩ :=
    hparse.exists_of_level (map_levelChar_eq hlevel).symm hbehind
  refine Form.classify_eq_some_iff_parse.2 ⟨white', space, rest', hparse', ?_⟩
  rw [byteLength_append, byteLength_append, hlength]

theorem classify_eq_of_level (h : SameBehindOpening text text') :
    Form.classify text' = Form.classify text := by
  ext ⟨form, k⟩
  exact ⟨classify_of_level hlevel.symm (h.symm hlevel), classify_of_level hlevel h⟩

theorem mem_scan_iff_of_level (r : Reference) :
    r ∈ Reference.scan text' ↔ r ∈ Reference.scan text := by
  have hscan : ∀ t, r ∈ Reference.scan t ↔ Reference.at? t r.offset = some r := by
    intro t
    rw [Reference.at?_eq_some]
    exact (and_iff_left rfl).symm
  rw [hscan, hscan, Reference.at?_eq_some_iff, Reference.at?_eq_some_iff, ← isSigil_level,
    ← nameBytes_level, ← hlevel, isSigil_level, nameBytes_level]

theorem scan_eq_of_level : Reference.scan text' = Reference.scan text :=
  Reference.eq_of_pairwise_of_mem_iff (Reference.pairwise_scan _) (Reference.pairwise_scan _)
    (mem_scan_iff_of_level hlevel)

/-- Variants have the same bindings. -/
theorem ofText_eq_of_level (h : SameBehindOpening text text') :
    Bindings.ofText text' = Bindings.ofText text := by
  have hclassify := classify_eq_of_level hlevel h
  cases hsome : Form.classify text with
  | none => rw [Bindings.ofText, Bindings.ofText, hclassify, hsome]
  | some found =>
    obtain ⟨form, k⟩ := found
    have hsome' := hclassify.trans hsome
    have hbound : Binding.boundBy form text' k = Binding.boundBy form text k := by
      refine Reference.eq_of_pairwise_of_mem_iff (Binding.pairwise_boundBy ..)
        (Binding.pairwise_boundBy ..) fun r => ?_
      rw [Binding.mem_boundBy hsome', Binding.mem_boundBy hsome, mem_scan_iff_of_level hlevel,
        ← boundAt_level, ← hlevel, boundAt_level]
    rw [Bindings.ofText_eq hsome', Bindings.ofText_eq hsome, hbound]

end

/-- Two texts that differ in nothing but which blanks they have, and not directly behind the opening
parenthesis, have the same form, bindings, introductions and references. -/
theorem binding_ignores_kind_of_blank {text text' : String}
    (hvariant : BlankVariant (bytes text) (bytes text')) (hopening : SameBehindOpening text text') :
    Form.classify text' = Form.classify text ∧
    Bindings.ofText text' = Bindings.ofText text ∧
    (∀ o, (Bindings.ofText text').isIntroductionSite o =
      (Bindings.ofText text).isIntroductionSite o) ∧
    Reference.scan text' = Reference.scan text := by
  have hlevel := hvariant.map_level_eq
  have hofText := ofText_eq_of_level hlevel hopening
  refine ⟨classify_eq_of_level hlevel hopening, hofText, fun o => ?_, scan_eq_of_level hlevel⟩
  rw [hofText]

theorem binding_ignores_kind_of_blank_sample :
    BlankVariant (bytes " ( let* (( $x 1)) $x") (bytes "\n( let*\t((\x0c$x\r1))\n$x") ∧
    SameBehindOpening " ( let* (( $x 1)) $x" "\n( let*\t((\x0c$x\r1))\n$x" ∧
    Bindings.ofText "\n( let*\t((\x0c$x\r1))\n$x" = Bindings.ofText " ( let* (( $x 1)) $x" ∧
    Bindings.ofText " ( let* (( $x 1)) $x" = ⟨some .letStar, [⟨⟨"$x", 11⟩, .letStar⟩]⟩ := by
  have hvariant : BlankVariant (bytes " ( let* (( $x 1)) $x") (bytes "\n( let*\t((\x0c$x\r1))\n$x") := by
    decide
  have hopening : SameBehindOpening " ( let* (( $x 1)) $x" "\n( let*\t((\x0c$x\r1))\n$x" := by
    decide
  exact ⟨hvariant, hopening, (binding_ignores_kind_of_blank hvariant hopening).2.1, by decide⟩

/-- Behind the opening parenthesis a tab is not as good as a space. -/
example : Form.classify "( let $x 1)" = some (.letOne, 5) ∧ Form.classify "(\tlet $x 1)" = none := by
  decide

end DefUse
