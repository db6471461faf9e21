import DefUse.Proofs.Encoding
import DefUse.Reference

/-!
# Where references stand

A reference is found by `scan` exactly where a split of the text has it at the head of what follows
(`mem_scan`), and the references come out with strictly increasing offsets (`pairwise_scan`).  So
an offset belongs to at most one reference (`eq_of_mem_scan`), and the two other ways to look for
references are selections from the scan of the whole text:

    at? text o              =  the member of `scan text` at offset `o`                (at?_eq_find?)
    scanRange text lo hi    =  the members at `lo ≤ offset < hi`, cut off at `hi`     (scanRange_eq)

The bytes of a reference are a `$` and identifier bytes, so none of them is blank or a parenthesis
(`token_of_mem_scan`).
-/

namespace DefUse

/-- Two entries of a list with increasing keys are the same if their keys are. -/
theorem eq_of_pairwise_lt {α : Type} {f : α → Nat} {l : List α}
    (hl : l.Pairwise fun a b => f a < f b) {a b : α} (ha : a ∈ l) (hb : b ∈ l) (h : f a = f b) :
    a = b := by
  induction l with
  | nil => cases ha
  | cons x xs ih =>
    rw [List.pairwise_cons] at hl
    rcases List.mem_cons.1 ha with rfl | ha'
    · rcases List.mem_cons.1 hb with rfl | hb'
      · rfl
      · have := hl.1 b hb'
        omega
    · rcases List.mem_cons.1 hb with rfl | hb'
      · have := hl.1 a ha'
        omega
      · exact ih hl.2 ha' hb'

namespace Reference

open Text

/-! ## One reference -/

theorem isIdentifierChar_of_isBlank {c : Char} (h : isBlank c = true) : isIdentifierChar c = false := by
  rcases isBlank_iff.1 h with rfl | rfl | rfl | rfl | rfl <;> decide

/-- A reference is a dollar sign and a run of identifier characters behind it. -/
theorem exists_run_of_leading? {offset : Nat} {cs : List Char} {r : Reference}
    (h : leading? offset cs = some r) :
    ∃ run rest, cs = '$' :: (run ++ rest) ∧ run ≠ [] ∧ (∀ c ∈ run, isIdentifierChar c = true) ∧
      r = ⟨String.ofList ('$' :: run), offset⟩ := by
  unfold leading? at h
  split at h
  · cases h
  · rename_i c cs
    split at h
    · rename_i hc
      split at h
      · cases h
      · rename_i hrun
        refine ⟨cs.takeWhile isIdentifierChar, cs.dropWhile isIdentifierChar, ?_, hrun, ?_, ?_⟩
        · rw [List.takeWhile_append_dropWhile, hc]
        · intro d hd
          exact List.all_eq_true.1 List.all_takeWhile d hd
        · exact (Option.some.inj h).symm
    · cases h

theorem here?_eq_some {before : Option Char} {offset : Nat} {cs : List Char} {r : Reference} :
    here? before offset cs = some r ↔
      before.any isIdentifierChar = false ∧ leading? offset cs = some r := by
  unfold here?
  split
  · rename_i h
    simp [h]
  · rename_i h
    simp [h]

theorem offset_of_leading? {offset : Nat} {cs : List Char} {r : Reference}
    (h : leading? offset cs = some r) : r.offset = offset := by
  obtain ⟨run, rest, -, -, -, rfl⟩ := exists_run_of_leading? h
  rfl

theorem lt_stop_of_leading? {offset : Nat} {cs : List Char} {r : Reference}
    (h : leading? offset cs = some r) : r.offset < r.stop := by
  obtain ⟨run, rest, -, -, -, rfl⟩ := exists_run_of_leading? h
  have := Char.utf8Size_pos '$'
  rw [stop, utf8ByteSize_ofList, byteLength_cons]
  omega

theorem offset_of_here? {before : Option Char} {offset : Nat} {cs : List Char} {r : Reference}
    (h : here? before offset cs = some r) : r.offset = offset :=
  offset_of_leading? (here?_eq_some.1 h).2

theorem here?_nil (before : Option Char) (offset : Nat) : here? before offset [] = none := by
  unfold here?
  split <;> rfl

/-! ## The whole text -/

theorem scanFrom_cons (before : Option Char) (offset : Nat) (c : Char) (cs : List Char) :
    scanFrom before offset (c :: cs) =
      (here? before offset (c :: cs)).toList ++ scanFrom (some c) (offset + c.utf8Size) cs := by
  rw [scanFrom]
  cases here? before offset (c :: cs) <;> rfl

theorem getLast?_or_cons (before : Option Char) (c : Char) (cs : List Char) :
    (c :: cs).getLast?.or before = cs.getLast?.or (some c) := by
  rw [List.getLast?_cons]
  cases cs.getLast? <;> rfl

/-- The scan finds the references that stand behind some part of the text. -/
theorem mem_scanFrom {before : Option Char} {offset : Nat} {cs : List Char} {r : Reference} :
    r ∈ scanFrom before offset cs ↔ ∃ pre post, cs = pre ++ post ∧
      here? (pre.getLast?.or before) (offset + byteLength pre) post = some r := by
  induction cs generalizing before offset with
  | nil =>
    constructor
    · intro h
      cases h
    · rintro ⟨pre, post, h, hr⟩
      obtain ⟨rfl, rfl⟩ := List.append_eq_nil_iff.1 h.symm
      rw [here?_nil] at hr
      cases hr
  | cons c cs ih =>
    rw [scanFrom_cons, List.mem_append, Option.mem_toList, ih]
    constructor
    · rintro (h | ⟨pre, post, rfl, hr⟩)
      · exact ⟨[], c :: cs, rfl, h⟩
      · refine ⟨c :: pre, post, rfl, ?_⟩
        rwa [byteLength_cons, ← Nat.add_assoc, getLast?_or_cons]
    · rintro ⟨pre, post, h, hr⟩
      cases pre with
      | nil =>
        left
        rw [List.nil_append] at h
        rwa [h]
      | cons d pre =>
        obtain ⟨rfl, rfl⟩ := List.cons.inj h
        refine Or.inr ⟨pre, post, rfl, ?_⟩
        rwa [byteLength_cons, ← Nat.add_assoc, getLast?_or_cons] at hr

theorem le_offset_of_mem_scanFrom {before : Option Char} {offset : Nat} {cs : List Char}
    {r : Reference} (h : r ∈ scanFrom before offset cs) : offset ≤ r.offset := by
  obtain ⟨pre, post, -, hr⟩ := mem_scanFrom.1 h
  rw [offset_of_here? hr]
  omega

theorem pairwise_scanFrom (before : Option Char) (offset : Nat) (cs : List Char) :
    (scanFrom before offset cs).Pairwise fun a b => a.offset < b.offset := by
  induction cs generalizing before offset with
  | nil => exact List.Pairwise.nil
  | cons c cs ih =>
    rw [scanFrom_cons, List.pairwise_append]
    refine ⟨?_, ih _ _, ?_⟩
    · cases here? before offset (c :: cs) <;> simp
    · intro a ha b hb
      have ha := offset_of_here? (Option.mem_toList.1 ha)
      have hb := le_offset_of_mem_scanFrom hb
      have := c.utf8Size_pos
      omega

/-- A reference of a text is what stands at the head of the text behind some split of it. -/
theorem mem_scan {text : String} {r : Reference} :
    r ∈ scan text ↔ ∃ pre post, text.toList = pre ++ post ∧
      here? pre.getLast? (byteLength pre) post = some r := by
  unfold scan
  simp only [mem_scanFrom, Option.or_none, Nat.zero_add]

theorem pairwise_scan (text : String) : (scan text).Pairwise fun a b => a.offset < b.offset :=
  pairwise_scanFrom none 0 text.toList

theorem eq_of_mem_scan {text : String} {a b : Reference} (ha : a ∈ scan text) (hb : b ∈ scan text)
    (h : a.offset = b.offset) : a = b :=
  eq_of_pairwise_lt (pairwise_scan text) ha hb h

/-! ## Selections from the scan -/

/-- Behind `target` nothing is found at it. -/
theorem find?_scanFrom_of_lt {target offset : Nat} (h : target < offset) (before : Option Char)
    (cs : List Char) : (scanFrom before offset cs).find? (·.offset == target) = none := by
  rw [List.find?_eq_none]
  intro r hr
  have := le_offset_of_mem_scanFrom hr
  simp only [beq_iff_eq]
  omega

/-- The search at an offset is the scan up to the reference that starts there. -/
theorem atFrom?_eq_find? (target : Nat) (before : Option Char) (offset : Nat) (cs : List Char) :
    atFrom? target before offset cs =
      (scanFrom before offset cs).find? (·.offset == target) := by
  induction cs generalizing before offset with
  | nil => rfl
  | cons c cs ih =>
    have hc := c.utf8Size_pos
    rw [atFrom?, scanFrom_cons, List.find?_append]
    split
    · rename_i hlt
      have hhead : (here? before offset (c :: cs)).toList.find? (·.offset == target) = none := by
        rw [List.find?_eq_none]
        intro r hr
        rw [offset_of_here? (Option.mem_toList.1 hr)]
        simp only [beq_iff_eq]
        omega
      rw [hhead, Option.none_or, ih]
    · split
      · rename_i heq
        rw [find?_scanFrom_of_lt (by omega), Option.or_none]
        cases hr : here? before offset (c :: cs) with
        | none => rfl
        | some r =>
          have := offset_of_here? hr
          simp [this, heq]
      · rename_i hne
        rw [← List.find?_append, ← scanFrom_cons, find?_scanFrom_of_lt (by omega)]

theorem at?_eq_find? (text : String) (offset : Nat) :
    at? text offset = (scan text).find? (·.offset == offset) :=
  atFrom?_eq_find? offset none 0 text.toList

theorem at?_eq_some {text : String} {offset : Nat} {r : Reference} :
    at? text offset = some r ↔ r ∈ scan text ∧ r.offset = offset := by
  rw [at?_eq_find?]
  constructor
  · intro h
    exact ⟨List.mem_of_find?_eq_some h, by simpa using List.find?_some h⟩
  · rintro ⟨hr, rfl⟩
    cases h : (scan text).find? (·.offset == r.offset) with
    | none => simpa using List.find?_eq_none.1 h r hr
    | some s =>
      have hs : s.offset = r.offset := by simpa using List.find?_some h
      rw [eq_of_mem_scan (List.mem_of_find?_eq_some h) hr hs]

theorem atFrom?_append (before : Option Char) (offset : Nat) (part rest : List Char) :
    atFrom? (offset + byteLength part) before offset (part ++ rest) =
      here? (part.getLast?.or before) (offset + byteLength part) rest := by
  induction part generalizing before offset with
  | nil =>
    cases rest with
    | nil => rw [List.append_nil, here?_nil]; rfl
    | cons c rest =>
      rw [List.nil_append, byteLength_nil, Nat.add_zero, atFrom?, if_neg (by omega), if_pos rfl]
      rfl
  | cons c part ih =>
    have hc := c.utf8Size_pos
    have hlimit : offset + byteLength (c :: part) = offset + c.utf8Size + byteLength part := by
      rw [byteLength_cons, Nat.add_assoc]
    rw [List.cons_append, atFrom?, if_pos (by omega), hlimit, ih, getLast?_or_cons]

/-- Behind a part of the text the search sees the last character of that part. -/
theorem at?_byteLength {text : String} {before after : List Char}
    (htext : text.toList = before ++ after) :
    at? text (byteLength before) = here? before.getLast? (byteLength before) after := by
  have h := atFrom?_append none 0 before after
  rw [Nat.zero_add, Option.or_none] at h
  unfold at?
  rw [htext, h]

/-- The scan of a range keeps the references that start in it, cut at its end. -/
theorem scanRangeFrom_eq (start stop : Nat) (before : Option Char) (offset : Nat)
    (cs : List Char) :
    scanRangeFrom start stop before offset cs =
      ((scanFrom before offset cs).filter fun r => start ≤ r.offset && r.offset < stop).filterMap
        (cutAt? stop) := by
  induction cs generalizing before offset with
  | nil => rfl
  | cons c cs ih =>
    rw [scanRangeFrom]
    split
    · rename_i hstop
      have hnone : ((scanFrom before offset (c :: cs)).filter fun r =>
          start ≤ r.offset && r.offset < stop) = [] := by
        rw [List.filter_eq_nil_iff]
        intro r hr
        have := le_offset_of_mem_scanFrom hr
        simp only [Bool.and_eq_true, decide_eq_true_eq]
        omega
      rw [hnone, List.filterMap_nil]
    · rename_i hstop
      rw [scanFrom_cons, List.filter_append, List.filterMap_append, ← ih]
      cases hr : here? before offset (c :: cs) with
      | none => split <;> rfl
      | some r =>
        have hoff := offset_of_here? hr
        split
        · rename_i hstart
          simp [hoff, Nat.not_le.2 hstart]
        · rename_i hstart
          have hin : (decide (start ≤ r.offset) && decide (r.offset < stop)) = true := by
            simp only [Bool.and_eq_true, decide_eq_true_eq]
            omega
          rw [Option.bind_some, Option.toList_some, List.filter_cons, hin]
          cases hcut : cutAt? stop r <;> simp [hcut]

theorem scanRange_eq (text : String) (start stop : Nat) :
    scanRange text start stop =
      ((scan text).filter fun r => start ≤ r.offset && r.offset < stop).filterMap (cutAt? stop) :=
  scanRangeFrom_eq start stop none 0 text.toList

theorem offset_of_cutAt? {limit : Nat} {r s : Reference} (h : cutAt? limit r = some s) :
    s.offset = r.offset := by
  unfold cutAt? at h
  split at h
  · rw [Option.some.inj h]
  · split at h
    · cases h
    · rw [← Option.some.inj h]

theorem pairwise_scanRange (text : String) (start stop : Nat) :
    (scanRange text start stop).Pairwise fun a b => a.offset < b.offset := by
  rw [scanRange_eq, List.pairwise_filterMap]
  apply ((pairwise_scan text).filter _).imp
  intro a b hab a' ha' b' hb'
  rw [offset_of_cutAt? ha', offset_of_cutAt? hb']
  exact hab

/-! ## The bytes of a reference -/

/-- The bytes that a reference is made of. -/
def isTokenByte (b : UInt8) : Bool := b == 36 || isIdentifierByte b

/-- The bytes of a reference are those of a dollar sign and of identifier characters. -/
theorem isTokenByte_of_mem {run : List Char} (h : ∀ c ∈ run, isIdentifierChar c = true) {b : UInt8}
    (hb : b ∈ encode ('$' :: run)) : isTokenByte b = true := by
  rw [encode_cons, List.mem_append] at hb
  rcases hb with hb | hb
  · rw [utf8Encode_ascii (by decide), List.mem_singleton] at hb
    subst hb
    rfl
  · obtain ⟨c, hc, hbc⟩ := List.mem_flatMap.1 hb
    rw [isTokenByte, isIdentifierByte_of_mem hbc, h c hc, Bool.or_true]

/-- A reference lies inside its text and covers nothing but its own bytes. -/
theorem token_of_mem_scan {text : String} {r : Reference} (h : r ∈ scan text) :
    r.offset < r.stop ∧ r.stop ≤ (bytes text).length ∧
      ∀ k, r.offset ≤ k → k < r.stop → ∃ b, (bytes text)[k]? = some b ∧ isTokenByte b = true := by
  obtain ⟨pre, post, htext, hr⟩ := mem_scan.1 h
  have hlt := lt_stop_of_leading? (here?_eq_some.1 hr).2
  obtain ⟨run, rest, rfl, -, hrun, rfl⟩ := exists_run_of_leading? (here?_eq_some.1 hr).2
  have hbytes : bytes text = encode (pre ++ (('$' :: run) ++ rest)) := by
    rw [bytes_eq_encode, htext, List.cons_append]
  have hstop : stop ⟨String.ofList ('$' :: run), byteLength pre⟩ =
      byteLength pre + byteLength ('$' :: run) := by
    rw [stop, utf8ByteSize_ofList]
  refine ⟨hlt, ?_, ?_⟩ <;> rw [hstop, hbytes]
  · rw [length_encode, byteLength_append, byteLength_append]
    omega
  · intro k hk hk'
    obtain ⟨b, hb, hkb⟩ := exists_mem_encode_of_between pre ('$' :: run) rest hk hk'
    exact ⟨b, hkb, isTokenByte_of_mem hrun hb⟩

end Reference

end DefUse
