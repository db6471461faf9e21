import DefUse.Proofs.ByteAccess
import DefUse.Proofs.Occurrence
import Mathlib.Data.List.Sort

/-!
# References offset by offset

A reference stands at an offset or it does not, and the bytes around the offset decide: `IsSigil` is
the rule and `nameBytes` the name (`at?_eq_some_iff`).  Both scans go through the offsets one after
another:

    scan text               =  at? text o for each offset o of the text           (scan_eq_filterMap)
    scanRange text lo hi    =  the same for lo ≤ o < hi, cut off at hi      (scanRange_eq_filterMap)

No reference starts inside another (`at?_inside`), so behind the first reference of a range the scan
may go on at the end of its name (`scanRange_stop`).  A range may be clamped to the text
(`scanRange_clamp`), and what a scan of it gives is a `selection` of the references of the text.
-/

namespace DefUse

open Text

namespace Reference

/-! ## Where a reference starts, by its bytes -/

def sigilByte : UInt8 := 36

/-- A reference starts at `o`: a `$` with no identifier byte before it and one behind it. -/
structure IsSigil (bs : List UInt8) (o : Nat) : Prop where
  sigil : bs[o]? = some sigilByte
  before : ∀ k b, k + 1 = o → bs[k]? = some b → isIdentifierByte b = false
  behind : ∃ b, bs[o + 1]? = some b ∧ isIdentifierByte b = true

/-- The bytes of the name of a reference at `o`: the `$` and the longest run of identifier bytes
behind it. -/
def nameBytes (bs : List UInt8) (o : Nat) : List UInt8 :=
  sigilByte :: (bs.drop (o + 1)).takeWhile isIdentifierByte

theorem any_getLast?_encode (cs : List Char) :
    (encode cs).getLast?.any isIdentifierByte = cs.getLast?.any isIdentifierChar := by
  rcases List.eq_nil_or_concat cs with rfl | ⟨init, c, rfl⟩
  · rfl
  · have hne := String.utf8EncodeChar_ne_nil (c := c)
    rw [List.concat_eq_append, encode_append, encode_cons, encode_nil, List.append_nil,
      List.getLast?_append, List.getLast?_eq_some_getLast hne, List.getLast?_concat]
    exact isIdentifierByte_of_mem (List.getLast_mem hne)

theorem here?_dollar (before : Option Char) (offset : Nat) (cs : List Char) :
    here? before offset ('$' :: cs) =
      if before.any isIdentifierChar = true ∨ cs.takeWhile isIdentifierChar = [] then none
      else some ⟨String.ofList ('$' :: cs.takeWhile isIdentifierChar), offset⟩ := by
  unfold here? leading?
  dsimp only
  by_cases hbefore : before.any isIdentifierChar = true
  · rw [if_pos hbefore, if_pos (Or.inl hbefore)]
  · rw [if_neg hbefore, if_pos rfl]
    cases hrun : cs.takeWhile isIdentifierChar with
    | nil => rw [if_pos (Or.inr rfl)]
    | cons d run => rw [if_neg (by simp [hbefore])]

section

variable {text : String} {pre post : List Char} (htext : text.toList = pre ++ '$' :: post)

include htext

theorem bytes_at_sigil : bytes text = encode pre ++ sigilByte :: encode post := by
  rw [bytes_eq_encode, htext, encode_append, encode_cons, utf8Encode_ascii (by decide)]
  rfl

theorem getElem?_sigil : (bytes text)[byteLength pre]? = some sigilByte := by
  rw [bytes_at_sigil htext, ← length_encode, List.getElem?_append_right (Nat.le_refl _), Nat.sub_self]
  rfl

theorem drop_sigil : (bytes text).drop (byteLength pre + 1) = encode post := by
  rw [bytes_at_sigil htext, List.append_cons, List.drop_left']
  rw [List.length_append, length_encode, List.length_singleton]

theorem getElem?_before_sigil {k : Nat} (hk : k + 1 = byteLength pre) :
    (bytes text)[k]? = (encode pre).getLast? := by
  have hlen := length_encode pre
  rw [bytes_at_sigil htext, List.getElem?_append_left (by omega), List.getLast?_eq_getElem?]
  congr 1
  omega

theorem any_before_sigil :
    (∀ k b, k + 1 = byteLength pre → (bytes text)[k]? = some b → isIdentifierByte b = false) ↔
      pre.getLast?.any isIdentifierChar = false := by
  rw [← any_getLast?_encode]
  constructor
  · intro h
    cases hlast : (encode pre).getLast? with
    | none => rfl
    | some b =>
      have hpos := List.length_pos_of_mem (List.mem_of_getLast? hlast)
      rw [length_encode] at hpos
      have hk : byteLength pre - 1 + 1 = byteLength pre := by omega
      exact h _ b hk ((getElem?_before_sigil htext hk).trans hlast)
  · intro h k b hk hb
    rw [getElem?_before_sigil htext hk] at hb
    rwa [hb, Option.any_some] at h

/-- The rule for a reference on bytes is that on characters. -/
theorem isSigil_iff : IsSigil (bytes text) (byteLength pre) ↔
    pre.getLast?.any isIdentifierChar = false ∧ post.takeWhile isIdentifierChar ≠ [] := by
  have hbehind : (∃ b, (bytes text)[byteLength pre + 1]? = some b ∧ isIdentifierByte b = true) ↔
      post.takeWhile isIdentifierChar ≠ [] := by
    have hfirst : (bytes text)[byteLength pre + 1]? = (encode post)[0]? := by
      rw [← drop_sigil htext, List.getElem?_drop, Nat.add_zero]
    rw [hfirst, ne_eq, ← encode_eq_nil, ← Bytewise.takeWhile_encode isIdentifierByte_of_mem]
    cases encode post with
    | nil => simp
    | cons b bs => cases hb : isIdentifierByte b <;> simp [hb]
  rw [← any_before_sigil htext, ← hbehind]
  exact ⟨fun h => ⟨h.before, h.behind⟩, fun h => ⟨getElem?_sigil htext, h.1, h.2⟩⟩

theorem at?_sigil : at? text (byteLength pre) =
    if pre.getLast?.any isIdentifierChar = true ∨ post.takeWhile isIdentifierChar = [] then none
    else some ⟨String.ofList ('$' :: post.takeWhile isIdentifierChar), byteLength pre⟩ := by
  rw [at?_byteLength htext, here?_dollar]

end

/-- A sigil byte is a dollar sign, so a character starts there. -/
theorem exists_split_of_sigil {text : String} {o : Nat} (h : (bytes text)[o]? = some sigilByte) :
    ∃ pre post, text.toList = pre ++ '$' :: post ∧ byteLength pre = o := by
  rw [bytes_eq_encode] at h
  exact exists_split_of_byte (d := '$') (by decide) h

theorem at?_eq_none {text : String} {o : Nat} (h : (bytes text)[o]? ≠ some sigilByte) :
    at? text o = none := by
  cases hr : at? text o with
  | none => rfl
  | some r =>
    obtain ⟨hscan, rfl⟩ := at?_eq_some.1 hr
    obtain ⟨pre, post, htext, hhere⟩ := mem_scan.1 hscan
    obtain ⟨run, rest, rfl, -, -, rfl⟩ := exists_run_of_leading? (here?_eq_some.1 hhere).2
    exact absurd (getElem?_sigil htext) h

/-- There is a reference exactly at the offsets that the rule names. -/
theorem isSome_at?_iff (text : String) (o : Nat) :
    (at? text o).isSome = true ↔ IsSigil (bytes text) o := by
  by_cases h : (bytes text)[o]? = some sigilByte
  · obtain ⟨pre, post, htext, rfl⟩ := exists_split_of_sigil h
    rw [at?_sigil htext, isSigil_iff htext]
    split
    · rename_i hnone
      simp only [Option.isSome_none, Bool.false_eq_true, false_iff, not_and, not_not]
      intro hbefore
      rcases hnone with hany | hrun
      · rw [hbefore] at hany
        cases hany
      · exact hrun
    · rename_i hsome
      rw [not_or, Bool.not_eq_true] at hsome
      simpa using hsome
  · rw [at?_eq_none h]
    constructor
    · intro hsome
      cases hsome
    · intro hsigil
      exact absurd hsigil.sigil h

theorem bytes_injective {a b : String} (h : bytes a = bytes b) : a = b := by
  rw [bytes, bytes, Array.toList_inj] at h
  exact String.toByteArray_inj.1 (ByteArray.ext h)

theorem name_of_at? {text : String} {o : Nat} {r : Reference} (h : at? text o = some r) :
    r.offset = o ∧ bytes r.name = nameBytes (bytes text) o := by
  have hsigil : (bytes text)[o]? = some sigilByte := ((isSome_at?_iff text o).1 (by rw [h]; rfl)).sigil
  obtain ⟨pre, post, htext, rfl⟩ := exists_split_of_sigil hsigil
  rw [at?_sigil htext] at h
  split at h
  · cases h
  · obtain rfl := Option.some.inj h
    refine ⟨rfl, ?_⟩
    rw [bytes_eq_encode, String.toList_ofList, nameBytes, drop_sigil htext,
      Bytewise.takeWhile_encode isIdentifierByte_of_mem, encode_cons, utf8Encode_ascii (by decide)]
    rfl

/-- The reference at an offset, by the bytes alone. -/
theorem at?_eq_some_iff {text : String} {o : Nat} {r : Reference} : at? text o = some r ↔
    IsSigil (bytes text) o ∧ r.offset = o ∧ bytes r.name = nameBytes (bytes text) o := by
  constructor
  · intro h
    exact ⟨(isSome_at?_iff text o).1 (by rw [h]; rfl), name_of_at? h⟩
  · rintro ⟨hsigil, hoffset, hname⟩
    obtain ⟨s, hs⟩ := Option.isSome_iff_exists.1 ((isSome_at?_iff text o).2 hsigil)
    obtain ⟨hoffset', hname'⟩ := name_of_at? hs
    have hsame : s = r := by
      obtain ⟨name, offset⟩ := s
      obtain ⟨name', offset'⟩ := r
      rw [mk.injEq]
      exact ⟨bytes_injective (hname'.trans hname.symm), hoffset'.trans hoffset.symm⟩
    rw [hs, hsame]

/-- Behind its `$` a reference has identifier bytes only. -/
theorem isIdentifierByte_of_at? {text : String} {o k : Nat} {r : Reference} (h : at? text o = some r)
    (hk : o < k) (hstop : k < r.stop) :
    ∃ b, (bytes text)[k]? = some b ∧ isIdentifierByte b = true := by
  obtain ⟨rfl, hname⟩ := name_of_at? h
  have hlen : r.name.utf8ByteSize =
      1 + (((bytes text).drop (r.offset + 1)).takeWhile isIdentifierByte).length := by
    rw [← length_bytes, hname, nameBytes, List.length_cons, Nat.add_comm]
  obtain ⟨j, rfl⟩ := Nat.le.dest hk
  have hj : j < (((bytes text).drop (r.offset + 1)).takeWhile isIdentifierByte).length := by
    rw [stop] at hstop
    omega
  have hmem := List.getElem_mem hj
  refine ⟨_, ?_, List.all_eq_true.1 List.all_takeWhile _ hmem⟩
  have hrun := List.takeWhile_prefix isIdentifierByte (l := (bytes text).drop (r.offset + 1))
  rw [← List.getElem?_drop, ← List.getElem?_eq_getElem hj]
  exact (List.prefix_iff_getElem?.1 hrun j hj).trans (List.getElem?_eq_getElem hj).symm

/-- No reference starts inside another one. -/
theorem at?_inside {text : String} {o k : Nat} {r : Reference} (h : at? text o = some r)
    (hk : o < k) (hstop : k < r.stop) : at? text k = none := by
  obtain ⟨b, hb, hident⟩ := isIdentifierByte_of_at? h hk hstop
  apply at?_eq_none
  rw [hb]
  rintro ⟨rfl⟩
  exact absurd hident (by decide)

/-! ## Offset by offset -/

/-- Two lists of references in the order of their offsets are the same if they have the same
members. -/
theorem eq_of_pairwise_of_mem_iff {l l' : List Reference}
    (hl : l.Pairwise fun a b => a.offset < b.offset)
    (hl' : l'.Pairwise fun a b => a.offset < b.offset) (h : ∀ r, r ∈ l ↔ r ∈ l') : l = l' := by
  have hirrefl : Std.Irrefl fun a b : Reference => a.offset < b.offset := ⟨fun a => Nat.lt_irrefl _⟩
  have hantisymm : Std.Antisymm fun a b : Reference => a.offset < b.offset :=
    ⟨fun a b hab hba => absurd hab (Nat.lt_asymm hba)⟩
  exact hl.eq_of_mem_iff hl' h

theorem pairwise_filterMap_offset {f : Nat → Option Reference}
    (hf : ∀ o r, f o = some r → r.offset = o) {os : List Nat} (hos : os.Pairwise (· < ·)) :
    (os.filterMap f).Pairwise fun a b => a.offset < b.offset := by
  rw [List.pairwise_filterMap]
  refine hos.imp fun {o o'} hlt r hr r' hr' => ?_
  rw [hf o r hr, hf o' r' hr']
  exact hlt

/-- The scan is the search at each offset in turn. -/
theorem scan_eq_filterMap {text : String} {n : Nat} (h : (bytes text).length ≤ n) :
    scan text = (List.range n).filterMap (at? text) := by
  refine eq_of_pairwise_of_mem_iff (pairwise_scan text)
    (pairwise_filterMap_offset (fun o r hr => (name_of_at? hr).1) List.pairwise_lt_range) ?_
  intro r
  rw [List.mem_filterMap]
  constructor
  · intro hr
    obtain ⟨hlt, hle, -⟩ := token_of_mem_scan hr
    exact ⟨r.offset, List.mem_range.2 (by omega), at?_eq_some.2 ⟨hr, rfl⟩⟩
  · rintro ⟨o, -, hr⟩
    exact (at?_eq_some.1 hr).1

/-- The scan of a range finds what the search finds in it, cut at its end. -/
theorem mem_scanRange {text : String} {start stop : Nat} {r : Reference} :
    r ∈ scanRange text start stop ↔
      start ≤ r.offset ∧ r.offset < stop ∧ (at? text r.offset).bind (cutAt? stop) = some r := by
  rw [scanRange_eq, List.mem_filterMap]
  constructor
  · rintro ⟨s, hs, hcut⟩
    rw [List.mem_filter, Bool.and_eq_true, decide_eq_true_eq, decide_eq_true_eq] at hs
    obtain ⟨hs, hstart, hstop⟩ := hs
    rw [offset_of_cutAt? hcut]
    exact ⟨hstart, hstop, by rw [at?_eq_some.2 ⟨hs, rfl⟩, Option.bind_some, hcut]⟩
  · rintro ⟨hstart, hstop, hbind⟩
    obtain ⟨s, hs, hcut⟩ := Option.bind_eq_some_iff.1 hbind
    obtain ⟨hscan, hoffset⟩ := at?_eq_some.1 hs
    refine ⟨s, List.mem_filter.2 ⟨hscan, ?_⟩, hcut⟩
    rw [hoffset, Bool.and_eq_true, decide_eq_true_eq, decide_eq_true_eq]
    exact ⟨hstart, hstop⟩

theorem scanRange_eq_filterMap (text : String) (start stop : Nat) :
    scanRange text start stop = (List.range' start (stop - start)).filterMap fun o =>
      (at? text o).bind (cutAt? stop) := by
  have hoffset : ∀ o r, (at? text o).bind (cutAt? stop) = some r → r.offset = o := by
    intro o r hr
    obtain ⟨s, hs, hcut⟩ := Option.bind_eq_some_iff.1 hr
    rw [offset_of_cutAt? hcut, (name_of_at? hs).1]
  refine eq_of_pairwise_of_mem_iff (pairwise_scanRange text start stop)
    (pairwise_filterMap_offset hoffset List.pairwise_lt_range') ?_
  intro r
  rw [mem_scanRange, List.mem_filterMap]
  constructor
  · rintro ⟨hstart, hstop, hr⟩
    exact ⟨r.offset, List.mem_range'_1.2 (by omega), hr⟩
  · rintro ⟨o, ho, hr⟩
    obtain rfl := hoffset o r hr
    rw [List.mem_range'_1] at ho
    exact ⟨ho.1, by omega, hr⟩

theorem scanRange_of_lt {text : String} {start stop : Nat} (h : start < stop) :
    scanRange text start stop =
      ((at? text start).bind (cutAt? stop)).toList ++ scanRange text (start + 1) stop := by
  rw [scanRange_eq_filterMap, scanRange_eq_filterMap,
    show stop - start = stop - (start + 1) + 1 by omega, List.range'_succ, List.filterMap_cons]
  cases (at? text start).bind (cutAt? stop) <;> rfl

theorem scanRange_of_le {text : String} {start stop : Nat} (h : stop ≤ start) :
    scanRange text start stop = [] := by
  rw [scanRange_eq_filterMap, Nat.sub_eq_zero_of_le h]
  rfl

/-! ## Names cut off -/

theorem stop_run {run : List Char} (hrun : ∀ c ∈ run, c.toNat < 128) (o : Nat) :
    stop ⟨String.ofList ('$' :: run), o⟩ = o + 1 + run.length := by
  rw [stop, utf8ByteSize_ofList, byteLength_cons, Bytewise.byteLength_ascii hrun, Nat.add_assoc]
  rfl

theorem exists_run_of_at? {text : String} {o : Nat} {r : Reference} (h : at? text o = some r) :
    ∃ run, run ≠ [] ∧ (∀ c ∈ run, c.toNat < 128) ∧ r = ⟨String.ofList ('$' :: run), o⟩ := by
  obtain ⟨hscan, rfl⟩ := at?_eq_some.1 h
  obtain ⟨pre, post, -, hhere⟩ := mem_scan.1 hscan
  obtain ⟨run, rest, -, hne, hident, rfl⟩ := exists_run_of_leading? (here?_eq_some.1 hhere).2
  exact ⟨run, hne, fun c hc => ascii_of_isIdentifierChar (hident c hc), rfl⟩

/-- A reference that is cut keeps what stands before the limit, if this is more than the sigil. -/
theorem cutAt?_run {run : List Char} (hne : run ≠ []) (hrun : ∀ c ∈ run, c.toNat < 128)
    {o limit : Nat} (h : o < limit) :
    cutAt? limit ⟨String.ofList ('$' :: run), o⟩ =
      if run.take (limit - (o + 1)) = [] then none
      else some ⟨String.ofList ('$' :: run.take (limit - (o + 1))), o⟩ := by
  have hpos := List.length_pos_iff.2 hne
  unfold cutAt?
  rw [stop_run hrun]
  dsimp only
  split
  · rw [List.take_of_length_le (by omega), if_neg hne]
  · split
    · rw [show limit - (o + 1) = 0 by omega, List.take_zero, if_pos rfl]
    · have hcut : run.take (limit - (o + 1)) ≠ [] := by
        rw [← List.length_pos_iff, List.length_take]
        omega
      rw [if_neg hcut, String.toList_ofList, show limit - o = limit - (o + 1) + 1 by omega,
        List.take_succ_cons]

/-- A reference that is cut off at `limit` stays where it is and does not reach over `limit`. -/
theorem stop_of_cutAt? {text : String} {o limit : Nat} {r s : Reference} (hr : at? text o = some r)
    (h : o < limit) (hcut : cutAt? limit r = some s) :
    s.offset = o ∧ o < s.stop ∧ s.stop ≤ limit ∧ s.stop ≤ r.stop := by
  obtain ⟨run, hne, hrun, rfl⟩ := exists_run_of_at? hr
  rw [cutAt?_run hne hrun h] at hcut
  split at hcut
  · cases hcut
  · obtain rfl := Option.some.inj hcut
    rw [stop_run hrun, stop_run fun c hc => hrun c (List.mem_of_mem_take hc), List.length_take]
    exact ⟨rfl, by omega, by omega, by omega⟩

/-- Behind the first reference of a range the scan goes on at the end of its name. -/
theorem scanRange_stop {text : String} {start stop : Nat} {r : Reference} {rs : List Reference}
    (h : scanRange text start stop = r :: rs) :
    start < r.stop ∧ r.stop ≤ stop ∧ scanRange text r.stop stop = rs := by
  have hsorted := pairwise_scanRange text start stop
  rw [h, List.pairwise_cons] at hsorted
  have hmem : ∀ t, t ∈ r :: rs ↔
      start ≤ t.offset ∧ t.offset < stop ∧ (at? text t.offset).bind (cutAt? stop) = some t := by
    intro t
    rw [← h, mem_scanRange]
  obtain ⟨hstart, hlt, hr⟩ := (hmem r).1 List.mem_cons_self
  obtain ⟨s, hs, hcut⟩ := Option.bind_eq_some_iff.1 hr
  obtain ⟨-, hpos, hle, hshort⟩ := stop_of_cutAt? hs hlt hcut
  refine ⟨by omega, hle, eq_of_pairwise_of_mem_iff (pairwise_scanRange ..) hsorted.2 fun t => ?_⟩
  rw [mem_scanRange]
  constructor
  · rintro ⟨hstop, hlt', ht⟩
    have hmem' : t ∈ r :: rs := (hmem t).2 ⟨by omega, hlt', ht⟩
    rcases List.mem_cons.1 hmem' with rfl | hmem'
    · omega
    · exact hmem'
  · intro ht
    obtain ⟨-, hlt', ht'⟩ := (hmem t).1 (List.mem_cons_of_mem _ ht)
    refine ⟨?_, hlt', ht'⟩
    -- a reference between the `$` and the end of the name would start inside the reference
    apply Nat.le_of_not_lt
    intro hinside
    have hafter := hsorted.1 t ht
    rw [at?_inside hs hafter (by omega)] at ht'
    cases ht'

/-- A range may as well be clamped to the text. -/
theorem scanRange_clamp (text : String) (start stop : Nat) :
    scanRange text start stop =
      scanRange text (min start (min stop (bytes text).length)) (min stop (bytes text).length) := by
  refine eq_of_pairwise_of_mem_iff (pairwise_scanRange ..) (pairwise_scanRange ..) fun t => ?_
  rw [mem_scanRange, mem_scanRange]
  cases hs : at? text t.offset with
  | none => simp
  | some s =>
    obtain ⟨hscan, hoffset⟩ := at?_eq_some.1 hs
    obtain ⟨hpos, hlen, -⟩ := token_of_mem_scan hscan
    -- a name ends inside the text, so it is cut off at both ends alike
    have hcut : cutAt? (min stop (bytes text).length) s = cutAt? stop s := by
      by_cases hstop : stop ≤ (bytes text).length
      · rw [Nat.min_eq_left hstop]
      · rw [Nat.min_eq_right (by omega), cutAt?, cutAt?, if_pos hlen, if_pos (by omega)]
    rw [Option.bind_some, Option.bind_some, hcut, ← and_assoc, ← and_assoc]
    exact and_congr_left fun _ => by omega

/-- The reference with the part of its name that stands before `e`. -/
def cutTo (e : Nat) (r : Reference) : Reference :=
  ⟨String.ofList (r.name.toList.take (e - r.offset)), r.offset⟩

/-- The references of a text that start in a range, with their names cut off at its end, without those
of which only the `$` is left. -/
def selection (text : String) (start stop : Nat) : List Reference :=
  (((scan text).filter fun r => start ≤ r.offset && r.offset < stop).map (cutTo stop)).filter
    fun r => r.name ≠ "$"

/-- The scan of a range is the selection from the scan of the whole text. -/
theorem scanRange_eq_selection (text : String) (start stop : Nat) :
    scanRange text start stop = selection text start stop := by
  unfold selection
  rw [scanRange_eq, ← List.filterMap_eq_filter (p := fun r : Reference => decide (r.name ≠ "$")),
    List.filterMap_map]
  refine List.filterMap_congr fun r hr => ?_
  obtain ⟨hscan, hin⟩ := List.mem_filter.1 hr
  rw [Bool.and_eq_true, decide_eq_true_eq, decide_eq_true_eq] at hin
  obtain ⟨run, hne, hrun, heq⟩ := exists_run_of_at? (at?_eq_some.2 ⟨hscan, rfl⟩)
  generalize r.offset = o at heq hin
  subst heq
  have hname : cutTo stop ⟨String.ofList ('$' :: run), o⟩ =
      ⟨String.ofList ('$' :: run.take (stop - (o + 1))), o⟩ := by
    unfold cutTo
    rw [String.toList_ofList, show stop - o = stop - (o + 1) + 1 by omega, List.take_succ_cons]
  rw [cutAt?_run hne hrun hin.2, Function.comp_apply, hname, Option.guard]
  by_cases hcut : run.take (stop - (o + 1)) = []
  · rw [if_pos hcut, if_neg (by simp [hcut])]
  · rw [if_neg hcut, if_pos (by simp [hcut])]

end Reference

end DefUse
