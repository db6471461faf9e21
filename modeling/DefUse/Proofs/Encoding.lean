import DefUse.Nesting
import DefUse.Reference
import DefUse.Text.Blank
import DefUse.Text.Offset

/-!
# Characters and bytes

Texts are read as characters, but every position is a byte offset, so the rules about positions
are stated on the bytes of the UTF-8 encoding.  The characters that carry a meaning (`$`, blanks,
parentheses, identifier characters) are all ASCII, and no byte of another character is:

- a byte of the encoding of `c` is `c` itself or both are outside ASCII (`toNat_of_mem_utf8Encode`);
- so blanks, identifiers and depths can be read off the bytes (`isBlankByte_of_mem`,
  `isIdentifierByte_of_mem`, `byteDepth_encode`);
- an ASCII byte at an offset is a character that starts there (`exists_split_of_byte`).
-/

namespace DefUse.Text

/-- The UTF-8 encoding of `cs`. -/
def encode (cs : List Char) : List UInt8 := cs.flatMap String.utf8EncodeChar

/-- The bytes of a text. -/
def bytes (text : String) : List UInt8 := text.toUTF8.data.toList

def openByte : UInt8 := 40

def closeByte : UInt8 := 41

/-- The bytes of the blanks. -/
def isBlankByte (b : UInt8) : Bool :=
  b == 32 || b == 9 || b == 10 || b == 12 || b == 13

/-- The bytes of ASCII letters, digits and the underscore. -/
def isIdentifierByte (b : UInt8) : Bool :=
  (65 ≤ b && b ≤ 90) || (97 ≤ b && b ≤ 122) || (48 ≤ b && b ≤ 57) || b == 95

/-- What one byte adds to the depth. -/
def byteWeight (b : UInt8) : Int :=
  if b = openByte then 1 else if b = closeByte then -1 else 0

/-- Opening minus closing parentheses among `bs`. -/
def byteDepth (bs : List UInt8) : Int :=
  bs.foldr (fun b d => byteWeight b + d) 0

/-! ## The encoding as a list -/

@[simp] theorem encode_nil : encode [] = [] := rfl

@[simp] theorem encode_cons (c : Char) (cs : List Char) :
    encode (c :: cs) = String.utf8EncodeChar c ++ encode cs := rfl

@[simp] theorem encode_append (as bs : List Char) : encode (as ++ bs) = encode as ++ encode bs :=
  List.flatMap_append

@[simp] theorem length_encode (cs : List Char) : (encode cs).length = byteLength cs := by
  induction cs with
  | nil => rfl
  | cons c cs ih => simp [ih]

theorem encode_eq_nil {cs : List Char} : encode cs = [] ↔ cs = [] := by
  cases cs with
  | nil => simp
  | cons c cs => simp [String.utf8EncodeChar_ne_nil]

/-- The first byte of a text is one of its first character. -/
theorem exists_encode_cons (c : Char) (cs : List Char) :
    ∃ b bs, b ∈ String.utf8EncodeChar c ∧ encode (c :: cs) = b :: bs := by
  obtain ⟨b, bs, hbs⟩ := List.exists_cons_of_ne_nil (String.utf8EncodeChar_ne_nil (c := c))
  refine ⟨b, bs ++ encode cs, ?_, ?_⟩
  · rw [hbs]
    exact List.mem_cons_self
  · rw [encode_cons, hbs, List.cons_append]

theorem bytes_eq_encode (text : String) : bytes text = encode text.toList := by
  rw [bytes, String.toUTF8_eq_toByteArray, ← String.utf8Encode_toList, List.utf8Encode,
    List.data_toByteArray]
  rfl

theorem length_bytes (text : String) : (bytes text).length = text.utf8ByteSize := by
  rw [bytes_eq_encode, length_encode, byteLength_toList]

/-- Of two splits of a text, the earlier one splits the first part of the later one. -/
theorem exists_append_of_byteLength_le {as bs cs ds : List Char} (h : as ++ bs = cs ++ ds)
    (hle : byteLength as ≤ byteLength cs) : ∃ mid, cs = as ++ mid ∧ bs = mid ++ ds := by
  rcases List.append_eq_append_iff.1 h with h | ⟨mid, rfl, rfl⟩
  · exact h
  · rw [byteLength_append] at hle
    cases mid with
    | nil => exact ⟨[], by simp, by simp⟩
    | cons c mid =>
      have := c.utf8Size_pos
      rw [byteLength_cons] at hle
      omega

/-! ## ASCII bytes -/

/-- A byte below 128 is an ASCII character, and all others belong to longer encodings. -/
theorem toNat_of_mem_utf8Encode {c : Char} {b : UInt8} (h : b ∈ String.utf8EncodeChar c) :
    b.toNat = c.toNat ∧ c.toNat < 128 ∨ 128 ≤ b.toNat ∧ 128 ≤ c.toNat := by
  have hc : c.val.toNat = c.toNat := rfl
  unfold String.utf8EncodeChar at h
  simp only [hc] at h
  split at h
  · simp only [List.mem_singleton] at h
    subst h
    left
    rw [UInt8.toNat_ofNat']
    omega
  · right
    refine ⟨?_, by omega⟩
    split at h
    · simp only [List.mem_cons, List.not_mem_nil, or_false] at h
      rcases h with rfl | rfl <;> rw [UInt8.toNat_ofNat'] <;> omega
    · split at h
      · simp only [List.mem_cons, List.not_mem_nil, or_false] at h
        rcases h with rfl | rfl | rfl <;> rw [UInt8.toNat_ofNat'] <;> omega
      · simp only [List.mem_cons, List.not_mem_nil, or_false] at h
        rcases h with rfl | rfl | rfl | rfl <;> rw [UInt8.toNat_ofNat'] <;> omega

theorem utf8Encode_ascii {c : Char} (h : c.toNat < 128) :
    String.utf8EncodeChar c = [UInt8.ofNat c.toNat] := by
  have hc : c.val.toNat = c.toNat := rfl
  unfold String.utf8EncodeChar
  simp only [hc]
  rw [if_pos (by omega)]

theorem encode_open (cs : List Char) : encode ('(' :: cs) = openByte :: encode cs := rfl

theorem byteLength_concat_open (cs : List Char) : byteLength (cs ++ ['(']) = byteLength cs + 1 :=
  byteLength_concat cs '('

theorem encode_close (cs : List Char) : encode (')' :: cs) = closeByte :: encode cs := rfl

theorem isBlankByte_of_mem {c : Char} {b : UInt8} (h : b ∈ String.utf8EncodeChar c) :
    isBlankByte b = isBlank c := by
  have hb : isBlankByte b = true ↔
      b.toNat = 32 ∨ b.toNat = 9 ∨ b.toNat = 10 ∨ b.toNat = 12 ∨ b.toNat = 13 := by
    simp [isBlankByte, ← UInt8.toNat_inj, or_assoc]
  have hc : isBlank c = true ↔
      c.toNat = 32 ∨ c.toNat = 9 ∨ c.toNat = 10 ∨ c.toNat = 12 ∨ c.toNat = 13 := by
    rw [isBlank_iff]
    simp only [← Char.toNat_inj]
    rfl
  rw [Bool.eq_iff_iff, hb, hc]
  have := toNat_of_mem_utf8Encode h
  omega

theorem isIdentifierChar_iff {c : Char} : Reference.isIdentifierChar c = true ↔
    65 ≤ c.toNat ∧ c.toNat ≤ 90 ∨ 97 ≤ c.toNat ∧ c.toNat ≤ 122 ∨
    48 ≤ c.toNat ∧ c.toNat ≤ 57 ∨ c.toNat = 95 := by
  unfold Reference.isIdentifierChar Char.isAlphanum Char.isAlpha Char.isUpper Char.isLower
    Char.isDigit
  simp [← Char.toNat_inj, UInt32.le_iff_toNat_le, or_assoc]

theorem ascii_of_isIdentifierChar {c : Char} (h : Reference.isIdentifierChar c = true) :
    c.toNat < 128 := by
  have := isIdentifierChar_iff.1 h
  omega

theorem isIdentifierByte_of_mem {c : Char} {b : UInt8} (h : b ∈ String.utf8EncodeChar c) :
    isIdentifierByte b = Reference.isIdentifierChar c := by
  have hb : isIdentifierByte b = true ↔ 65 ≤ b.toNat ∧ b.toNat ≤ 90 ∨ 97 ≤ b.toNat ∧ b.toNat ≤ 122 ∨
      48 ≤ b.toNat ∧ b.toNat ≤ 57 ∨ b.toNat = 95 := by
    simp [isIdentifierByte, ← UInt8.toNat_inj, UInt8.le_iff_toNat_le, or_assoc]
  rw [Bool.eq_iff_iff, hb, isIdentifierChar_iff]
  have := toNat_of_mem_utf8Encode h
  omega

/-- A byte of a character is that of an ASCII character only if the character is. -/
theorem eq_ofNat_iff_of_mem {c d : Char} {b : UInt8} (h : b ∈ String.utf8EncodeChar c)
    (hd : d.toNat < 128) : b = UInt8.ofNat d.toNat ↔ c = d := by
  rw [← UInt8.toNat_inj, ← Char.toNat_inj, UInt8.toNat_ofNat']
  have := toNat_of_mem_utf8Encode h
  omega

theorem byteWeight_of_mem {c : Char} {b : UInt8} (h : b ∈ String.utf8EncodeChar c) :
    byteWeight b = Nesting.weight c := by
  have hopen : b = openByte ↔ c = '(' := eq_ofNat_iff_of_mem (d := '(') h (by decide)
  have hclose : b = closeByte ↔ c = ')' := eq_ofNat_iff_of_mem (d := ')') h (by decide)
  simp only [byteWeight, Nesting.weight, hopen, hclose]

/-- The byte of an ASCII character is that character, which starts at the offset of the byte. -/
theorem exists_split_of_byte {d : Char} (hd : d.toNat < 128) {cs : List Char} {o : Nat}
    (h : (encode cs)[o]? = some (UInt8.ofNat d.toNat)) :
    ∃ pre post, cs = pre ++ d :: post ∧ byteLength pre = o := by
  induction cs generalizing o with
  | nil => simp at h
  | cons c cs ih =>
    rw [encode_cons] at h
    by_cases ho : o < (String.utf8EncodeChar c).length
    · rw [List.getElem?_append_left ho] at h
      obtain rfl := (eq_ofNat_iff_of_mem (List.mem_of_getElem? h) hd).1 rfl
      rw [utf8Encode_ascii hd, List.length_singleton] at ho
      exact ⟨[], cs, rfl, by rw [byteLength_nil]; omega⟩
    · rw [List.getElem?_append_right (by omega)] at h
      obtain ⟨pre, post, rfl, hpre⟩ := ih h
      refine ⟨c :: pre, post, rfl, ?_⟩
      rw [byteLength_cons, hpre, ← String.length_utf8EncodeChar]
      omega

/-- Bytes behind a split of the text are those of what follows it. -/
theorem getElem?_encode_append_add (pre post : List Char) (j : Nat) :
    (encode (pre ++ post))[byteLength pre + j]? = (encode post)[j]? := by
  rw [encode_append, List.getElem?_append_right (by rw [length_encode]; omega), length_encode,
    Nat.add_sub_cancel_left]

theorem getElem?_encode_append {c : Char} (hc : c.toNat < 128) (pre post : List Char) :
    (encode (pre ++ c :: post))[byteLength pre]? = some (UInt8.ofNat c.toNat) := by
  rw [← Nat.add_zero (byteLength pre), getElem?_encode_append_add, encode_cons, utf8Encode_ascii hc]
  rfl

/-- An ASCII character stands behind a split exactly if its byte does. -/
theorem getElem?_encode_eq_iff {c : Char} (hc : c.toNat < 128) (pre post : List Char) :
    (encode (pre ++ post))[byteLength pre]? = some (UInt8.ofNat c.toNat) ↔
      ∃ rest, post = c :: rest := by
  constructor
  · intro h
    obtain ⟨pre', post', hsplit, hpre⟩ := exists_split_of_byte hc h
    obtain ⟨mid, rfl, rfl⟩ := exists_append_of_byteLength_le hsplit (by omega)
    cases mid with
    | nil => exact ⟨post', rfl⟩
    | cons d mid =>
      have := d.utf8Size_pos
      rw [byteLength_append, byteLength_cons] at hpre
      omega
  · rintro ⟨rest, rfl⟩
    exact getElem?_encode_append hc pre rest

/-- The bytes between two splits of a text are those of the characters between them. -/
theorem exists_mem_encode_of_between (pre mid post : List Char) {k : Nat} (h₁ : byteLength pre ≤ k)
    (h₂ : k < byteLength pre + byteLength mid) :
    ∃ b ∈ encode mid, (encode (pre ++ (mid ++ post)))[k]? = some b := by
  obtain ⟨j, rfl⟩ := Nat.le.dest h₁
  have hj : j < (encode mid).length := by
    rw [length_encode]
    omega
  refine ⟨(encode mid)[j], List.getElem_mem hj, ?_⟩
  rw [getElem?_encode_append_add, encode_append, List.getElem?_append_left hj,
    List.getElem?_eq_getElem hj]

/-! ## Blanks and depths -/

theorem isBlankByte_of_mem_encode {cs : List Char} (h : ∀ c ∈ cs, isBlank c = true) {b : UInt8}
    (hb : b ∈ encode cs) : isBlankByte b = true := by
  obtain ⟨c, hc, hbc⟩ := List.mem_flatMap.1 hb
  rw [isBlankByte_of_mem hbc, h c hc]

theorem isBlank_of_encode {cs : List Char} (h : ∀ b ∈ encode cs, isBlankByte b = true) {c : Char}
    (hc : c ∈ cs) : isBlank c = true := by
  obtain ⟨b, hb⟩ := List.exists_mem_of_ne_nil _ (String.utf8EncodeChar_ne_nil (c := c))
  rw [← isBlankByte_of_mem hb]
  exact h b (List.mem_flatMap.2 ⟨c, hc, hb⟩)

theorem byteLength_of_blank {cs : List Char} (h : ∀ c ∈ cs, isBlank c = true) :
    byteLength cs = cs.length := by
  induction cs with
  | nil => rfl
  | cons c cs ih =>
    rw [byteLength_cons, utf8Size_of_isBlank (h c (List.mem_cons_self ..)),
      ih fun d hd => h d (List.mem_cons_of_mem _ hd), List.length_cons, Nat.add_comm]

@[simp] theorem byteDepth_nil : byteDepth [] = 0 := rfl

@[simp] theorem byteDepth_cons (b : UInt8) (bs : List UInt8) :
    byteDepth (b :: bs) = byteWeight b + byteDepth bs := rfl

@[simp] theorem byteDepth_append (as bs : List UInt8) :
    byteDepth (as ++ bs) = byteDepth as + byteDepth bs := by
  induction as with
  | nil => simp
  | cons a as ih => simp [ih, Int.add_assoc]

theorem byteDepth_of_flat {bs : List UInt8} (h : ∀ b ∈ bs, byteWeight b = 0) :
    byteDepth bs = 0 := by
  induction bs with
  | nil => rfl
  | cons b bs ih =>
    rw [byteDepth_cons, h b (List.mem_cons_self ..), ih fun d hd => h d (List.mem_cons_of_mem _ hd)]
    rfl

/-- The depth of a part of an encoding: what a character adds comes with its last byte. -/
theorem byteDepth_take_cons (c : Char) (cs : List Char) (n : Nat) :
    byteDepth ((encode (c :: cs)).take n) =
      (if c.utf8Size ≤ n then Nesting.weight c else 0) +
        byteDepth ((encode cs).take (n - c.utf8Size)) := by
  rw [encode_cons, List.take_append, byteDepth_append, String.length_utf8EncodeChar]
  congr 1
  by_cases hw : Nesting.weight c = 0
  · have hflat : byteDepth ((String.utf8EncodeChar c).take n) = 0 := by
      apply byteDepth_of_flat
      intro b hb
      rw [byteWeight_of_mem (List.mem_of_mem_take hb), hw]
    rw [hflat, hw, ite_self]
  · -- a parenthesis takes one byte, so its encoding has no proper part
    have hc : c.toNat < 128 := by
      unfold Nesting.weight at hw
      split at hw
      · rename_i h
        rw [h]
        decide
      · split at hw
        · rename_i h
          rw [h]
          decide
        · exact absurd rfl hw
    have henc := utf8Encode_ascii hc
    have hsize : c.utf8Size = 1 := by
      rw [← String.length_utf8EncodeChar, henc, List.length_singleton]
    have hb : byteWeight (UInt8.ofNat c.toNat) = Nesting.weight c := by
      apply byteWeight_of_mem
      rw [henc]
      exact List.mem_singleton_self _
    rw [henc, hsize]
    cases n with
    | zero => rfl
    | succ n =>
      rw [if_pos (by omega), List.take_succ_cons, List.take_nil, byteDepth_cons, byteDepth_nil,
        Int.add_zero, hb]

/-- The depth of a text can be counted on its bytes. -/
theorem byteDepth_encode (cs : List Char) : byteDepth (encode cs) = Nesting.depth cs := by
  induction cs with
  | nil => rfl
  | cons c cs ih =>
    have h := byteDepth_take_cons c cs (encode (c :: cs)).length
    have hlen : (encode (c :: cs)).length = c.utf8Size + (encode cs).length := by simp
    rw [List.take_length, hlen, if_pos (by omega), Nat.add_sub_cancel_left, List.take_length, ih] at h
    rw [h, Nesting.depth_cons]

end DefUse.Text
