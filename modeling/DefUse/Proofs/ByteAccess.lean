import DefUse.Proofs.Encoding

/-!
# Access to the bytes of a text

A search that works on the bytes of a text takes steps that can go wrong: it looks at a byte, cuts
out a range of bytes or a piece of the text, counts down.  Each of these steps is an operation that
gives its result or says by a `Fault` what went wrong.

- a range inside the bytes can be cut out (`slice_eq`);
- a piece of text can be cut out where it stands between two characters (`sliceText_eq`);
- reading bytes while they are of a kind reads the bytes of the characters of that kind
  (`takeWhile_encode`).
-/

namespace DefUse.Bytewise

open Text

/-- What can go wrong at a step that works on bytes. -/
inductive Fault where
  /-- A position behind the last byte. -/
  | outOfBounds
  /-- A range that ends before it starts. -/
  | inverted
  /-- A piece of text that starts or ends inside a character. -/
  | insideCharacter
  /-- A count below zero. -/
  | underflow
  /-- A number too large for its width. -/
  | overflow
deriving DecidableEq

/-- The byte at a position. -/
def byteAt (bs : List UInt8) (i : Nat) : Except Fault UInt8 :=
  match bs[i]? with
  | some b => .ok b
  | none => .error .outOfBounds

/-- The bytes of a range. -/
def slice (bs : List UInt8) (start stop : Nat) : Except Fault (List UInt8) :=
  if stop < start then .error .inverted
  else if bs.length < stop then .error .outOfBounds
  else .ok ((bs.take stop).drop start)

/-- The piece of a text in a range of its bytes. -/
def sliceText (text : String) (start stop : Nat) : Except Fault String :=
  if stop < start then .error .inverted
  else if text.utf8ByteSize < stop then .error .outOfBounds
  else if h : String.Pos.Raw.IsValid text ⟨start⟩ ∧ String.Pos.Raw.IsValid text ⟨stop⟩ then
    .ok (text.extract (text.pos ⟨start⟩ h.1) (text.pos ⟨stop⟩ h.2))
  else .error .insideCharacter

/-- The difference of two counts. -/
def subtract (m n : Nat) : Except Fault Nat :=
  if m < n then .error .underflow else .ok (m - n)

/-! ## Steps that do not fail -/

theorem ok_bind {α β : Type} (a : α) (f : α → Except Fault β) : (Except.ok a >>= f) = f a := rfl

theorem byteAt_eq {bs : List UInt8} {i : Nat} {b : UInt8} (h : bs[i]? = some b) :
    byteAt bs i = .ok b := by
  rw [byteAt, h]

theorem slice_eq {bs : List UInt8} {start stop : Nat} (h : start ≤ stop) (hlen : stop ≤ bs.length) :
    slice bs start stop = .ok ((bs.take stop).drop start) := by
  rw [slice, if_neg (by omega), if_neg (by omega)]

theorem slice_eq_ok {bs : List UInt8} {start stop : Nat} {piece : List UInt8}
    (h : slice bs start stop = .ok piece) : start ≤ stop ∧ stop ≤ bs.length := by
  unfold slice at h
  split at h
  · cases h
  · split at h
    · cases h
    · omega

theorem subtract_eq {m n : Nat} (h : n ≤ m) : subtract m n = .ok (m - n) := by
  rw [subtract, if_neg (by omega)]

/-- Every split of the characters of a text is at a position of the text. -/
theorem isValid_of_split {text : String} {pre post : List Char} (h : text.toList = pre ++ post) :
    String.Pos.Raw.IsValid text ⟨byteLength pre⟩ := by
  rw [String.Pos.Raw.isValid_iff_exists_append]
  refine ⟨String.ofList pre, String.ofList post, ?_, ?_⟩
  · rw [← String.ofList_append, ← h, String.ofList_toList]
  · rw [String.Pos.Raw.ext_iff]
    exact (utf8ByteSize_ofList pre).symm

/-- A slice of a text between two places where characters start is the text between them. -/
theorem sliceText_eq {text : String} {pre mid post : List Char}
    (h : text.toList = pre ++ (mid ++ post)) :
    sliceText text (byteLength pre) (byteLength pre + byteLength mid) = .ok (String.ofList mid) := by
  have hsize : text.utf8ByteSize = byteLength pre + (byteLength mid + byteLength post) := by
    rw [← byteLength_toList, h, byteLength_append, byteLength_append]
  have hstart := isValid_of_split h
  have hstop : String.Pos.Raw.IsValid text ⟨byteLength pre + byteLength mid⟩ := by
    rw [← byteLength_append]
    exact isValid_of_split (h.trans (List.append_assoc ..).symm)
  have htext : text = String.ofList pre ++ (String.ofList mid ++ String.ofList post) := by
    rw [← String.ofList_append, ← String.ofList_append, ← h, String.ofList_toList]
  have hbefore : (text.pos _ hstart).Splits (String.ofList pre)
      (String.ofList mid ++ String.ofList post) := by
    refine ⟨htext, String.Pos.Raw.ext ?_⟩
    exact (utf8ByteSize_ofList pre).symm
  have hbehind : (text.pos _ hstop).Splits (String.ofList pre ++ String.ofList mid)
      (String.ofList post) := by
    refine ⟨htext.trans (String.append_assoc ..).symm, String.Pos.Raw.ext ?_⟩
    have hlen := utf8ByteSize_ofList (pre ++ mid)
    rw [String.ofList_append, byteLength_append] at hlen
    exact hlen.symm
  obtain ⟨hle, hpiece⟩ := String.copy_slice_eq_iff_splits.2 ⟨_, _, hbefore, hbehind⟩
  rw [sliceText, if_neg (by omega), if_neg (by omega), dif_pos ⟨hstart, hstop⟩,
    String.extract_eq_copy_slice _ _ hle, hpiece]

example : sliceText "é" 0 1 = .error .insideCharacter := rfl

/-! ## Reading on while a kind of character lasts -/

/-- A run of bytes of one class is the encoding of a run of characters. -/
theorem takeWhile_encode {p : UInt8 → Bool} {q : Char → Bool}
    (h : ∀ {c : Char} {b : UInt8}, b ∈ String.utf8EncodeChar c → p b = q c) (cs : List Char) :
    (encode cs).takeWhile p = encode (cs.takeWhile q) := by
  induction cs with
  | nil => rfl
  | cons c cs ih =>
    by_cases hc : q c = true
    · have hall : ∀ b ∈ String.utf8EncodeChar c, p b = true := fun b hb => (h hb).trans hc
      rw [encode_cons, List.takeWhile_append_of_pos hall, ih, List.takeWhile_cons_of_pos hc, encode_cons]
    · -- the first byte of the character is not of the kind either
      obtain ⟨b, bs, hmem, hbs⟩ := exists_encode_cons c cs
      have hb : ¬ p b = true := by
        rw [h hmem]
        exact hc
      rw [hbs, List.takeWhile_cons_of_neg hb, List.takeWhile_cons_of_neg hc, encode_nil]

/-! ## ASCII characters take one byte each -/

section

variable {cs : List Char} (h : ∀ c ∈ cs, c.toNat < 128)

include h

theorem encode_ascii : encode cs = cs.map fun c => UInt8.ofNat c.toNat := by
  induction cs with
  | nil => rfl
  | cons c cs ih =>
    rw [encode_cons, utf8Encode_ascii (h c List.mem_cons_self),
      ih fun d hd => h d (List.mem_cons_of_mem _ hd)]
    rfl

theorem byteLength_ascii : byteLength cs = cs.length := by
  rw [← length_encode, encode_ascii h, List.length_map]

/-- An ASCII text can be cut at any byte. -/
theorem take_encode_ascii (n : Nat) : (encode cs).take n = encode (cs.take n) := by
  rw [encode_ascii h, encode_ascii fun c hc => h c (List.mem_of_mem_take hc), List.map_take]

end

end DefUse.Bytewise
