import DefUse.Proofs.ReferenceSearch

/-!
# A scanner of bytes

A `Scanner` gives out the references of a range of bytes one by one.  Each call looks at the bytes from
its position to the end of the range only, tries the `$`s among them from left to right, and moves its
position behind the name that it has found, or to the end if it has found none.

What a scanner has still to give is `pending`, the scan of the rest of its range.  One call takes the
first of these and leaves the others (`Scanner.next_spec`), so the calls give them in order and then
nothing any more (`Scanner.answers_eq`), and the whole scan is `scanRange` (`Scanner.drain_eq`).  With
that the three ways to look for references agree (`reference_searches_agree`).
-/

namespace DefUse.Bytewise

open Text Reference

/-! ## The search -/

/-- Whether the byte before `o` belongs to an identifier. -/
def followsIdentifier (bs : List UInt8) : Nat → Except Fault Bool
  | 0 => .ok false
  | k + 1 => (byteAt bs k).map isIdentifierByte

/-- The reference at `offset`, with a name that ends at `limit` or before. -/
def referenceWithin (text : String) (offset limit : Nat) : Except Fault (Option Reference) :=
  if (bytes text)[offset]? ≠ some sigilByte then .ok none
  else do
    let joined ← followsIdentifier (bytes text) offset
    if joined then .ok none
    else
      let tail ← slice (bytes text) (offset + 1) limit
      let run := tail.takeWhile isIdentifierByte
      if run = [] then .ok none
      else
        let name ← sliceText text offset (offset + 1 + run.length)
        .ok (some ⟨name, offset⟩)

/-- The reference at `offset`. -/
def referenceAt (text : String) (offset : Nat) : Except Fault (Option Reference) :=
  if (bytes text).length ≤ offset then .ok none
  else referenceWithin text offset (bytes text).length

/-- A scan in progress: the references that start at `pos` or later are still to come, with names
that end at `stop` or before. -/
structure Scanner where
  text : String
  pos : Nat
  stop : Nat
deriving DecidableEq

namespace Scanner

/-- A scanner of a range, which is clamped to the text. -/
def inRange (text : String) (start stop : Nat) : Scanner :=
  let last := min stop (bytes text).length
  ⟨text, min start last, last⟩

/-- Tries each `$` of a window of bytes, the first of which is at `offset`. -/
def search (text : String) (limit offset : Nat) : List UInt8 → Except Fault (Option Reference)
  | [] => .ok none
  | b :: window =>
    if b = sigilByte then do
      match ← referenceWithin text offset limit with
      | some r => .ok (some r)
      | none => search text limit (offset + 1) window
    else search text limit (offset + 1) window

/-- The next reference, and the scanner behind it. -/
def next (s : Scanner) : Except Fault (Option Reference × Scanner) := do
  let window ← slice (bytes s.text) s.pos s.stop
  match ← search s.text s.stop s.pos window with
  | some r => .ok (some r, { s with pos := r.stop })
  | none => .ok (none, { s with pos := s.stop })

/-- What the next `n` calls give. -/
def answers (s : Scanner) : Nat → Except Fault (List (Option Reference))
  | 0 => .ok []
  | n + 1 => do
    let (answer, s) ← s.next
    let more ← s.answers n
    .ok (answer :: more)

end Scanner

/-! ## One reference -/

theorem followsIdentifier_eq {text : String} {pre post : List Char}
    (htext : text.toList = pre ++ '$' :: post) :
    followsIdentifier (bytes text) (byteLength pre) = .ok (pre.getLast?.any isIdentifierChar) := by
  rw [← any_getLast?_encode]
  have hlen := length_encode pre
  cases hk : byteLength pre with
  | zero =>
    rw [hk, List.length_eq_zero_iff] at hlen
    rw [hlen]
    rfl
  | succ k =>
    have hne : encode pre ≠ [] := by
      intro hnil
      rw [hnil, hk] at hlen
      cases hlen
    have hb := getElem?_before_sigil htext hk.symm
    rw [List.getLast?_eq_some_getLast hne] at hb ⊢
    rw [followsIdentifier, byteAt_eq hb]
    rfl

theorem ascii_of_mem_run {cs : List Char} : ∀ c ∈ cs.takeWhile isIdentifierChar, c.toNat < 128 :=
  fun c hc => ascii_of_isIdentifierChar (List.all_eq_true.1 List.all_takeWhile c hc)

section

variable {text : String} {pre post : List Char} (htext : text.toList = pre ++ '$' :: post)

include htext

/-- In a window behind a `$` the run of identifier bytes is that of the identifier characters, cut off
at the end of the window. -/
theorem takeWhile_window (limit : Nat) :
    (((bytes text).take limit).drop (byteLength pre + 1)).takeWhile isIdentifierByte =
      encode ((post.takeWhile isIdentifierChar).take (limit - (byteLength pre + 1))) := by
  rw [List.drop_take, drop_sigil htext, ← List.take_takeWhile, takeWhile_encode isIdentifierByte_of_mem,
    take_encode_ascii ascii_of_mem_run]

/-- Wherever the run is cut off, the name stands between two characters. -/
theorem sliceText_name (n : Nat) :
    sliceText text (byteLength pre)
        (byteLength pre + 1 + byteLength ((post.takeWhile isIdentifierChar).take n)) =
      .ok (String.ofList ('$' :: (post.takeWhile isIdentifierChar).take n)) := by
  have hparts : text.toList = pre ++ (('$' :: (post.takeWhile isIdentifierChar).take n) ++
      ((post.takeWhile isIdentifierChar).drop n ++ post.dropWhile isIdentifierChar)) := by
    rw [htext, List.cons_append, ← List.append_assoc ((post.takeWhile isIdentifierChar).take n),
      List.take_append_drop, List.takeWhile_append_dropWhile]
  have hsize : Char.utf8Size '$' = 1 := rfl
  have hname := sliceText_eq hparts
  rwa [byteLength_cons, hsize, ← Nat.add_assoc] at hname

end

/-- The search on bytes does not fault inside the text, and finds what the search finds. -/
theorem referenceWithin_eq {text : String} {offset limit : Nat} (h : offset < limit)
    (hlen : limit ≤ (bytes text).length) :
    referenceWithin text offset limit = .ok ((at? text offset).bind (cutAt? limit)) := by
  unfold referenceWithin
  by_cases hsigil : (bytes text)[offset]? = some sigilByte
  · obtain ⟨pre, post, htext, rfl⟩ := exists_split_of_sigil hsigil
    rw [if_neg (not_not.2 hsigil), followsIdentifier_eq htext, ok_bind, at?_sigil htext]
    by_cases hbefore : pre.getLast?.any isIdentifierChar = true
    · rw [if_pos hbefore, if_pos (Or.inl hbefore)]
      rfl
    · rw [if_neg hbefore, slice_eq (by omega) hlen, ok_bind, takeWhile_window htext]
      dsimp only
      by_cases hrun : post.takeWhile isIdentifierChar = []
      · rw [if_pos (Or.inr hrun), hrun, List.take_nil, if_pos encode_nil]
        rfl
      · rw [if_neg (not_or.2 ⟨hbefore, hrun⟩), Option.bind_some, cutAt?_run hrun ascii_of_mem_run h]
        by_cases hcut : (post.takeWhile isIdentifierChar).take (limit - (byteLength pre + 1)) = []
        · rw [if_pos hcut, if_pos (encode_eq_nil.2 hcut)]
        · rw [if_neg hcut, if_neg (mt encode_eq_nil.1 hcut), length_encode, sliceText_name htext, ok_bind]
  · rw [if_pos hsigil, at?_eq_none hsigil]
    rfl

theorem referenceAt_eq (text : String) (offset : Nat) :
    referenceAt text offset = .ok (at? text offset) := by
  unfold referenceAt
  split
  · rename_i hle
    rw [at?_eq_none (by rw [List.getElem?_eq_none hle]; simp)]
  · rename_i hlt
    rw [referenceWithin_eq (by omega) (Nat.le_refl _)]
    cases hr : at? text offset with
    | none => rfl
    | some r =>
      -- no name reaches behind the text
      have hstop := (token_of_mem_scan (at?_eq_some.1 hr).1).2.1
      rw [Option.bind_some, cutAt?, if_pos hstop]

namespace Scanner

variable {s : Scanner}

/-- The references still to come. -/
def pending (s : Scanner) : List Reference := scanRange s.text s.pos s.stop

/-- The range of the scanner lies in the text. -/
structure Inside (s : Scanner) : Prop where
  pos_le : s.pos ≤ s.stop
  stop_le : s.stop ≤ (bytes s.text).length

theorem inside_inRange (text : String) (start stop : Nat) : (inRange text start stop).Inside :=
  ⟨Nat.min_le_right .., Nat.min_le_right ..⟩

theorem pending_inRange (text : String) (start stop : Nat) :
    (inRange text start stop).pending = scanRange text start stop :=
  (scanRange_clamp text start stop).symm

/-- The search on bytes goes on to the next reference of the range. -/
theorem search_eq {text : String} {limit pos : Nat} {window : List UInt8}
    (hlimit : limit ≤ (bytes text).length) (hwindow : ((bytes text).take limit).drop pos = window) :
    search text limit pos window = .ok (scanRange text pos limit).head? := by
  induction window generalizing pos with
  | nil =>
    rw [List.drop_eq_nil_iff, List.length_take] at hwindow
    rw [scanRange_of_le (by omega)]
    rfl
  | cons b window ih =>
    have hlt : pos < limit := by
      have := congrArg List.length hwindow
      rw [List.length_drop, List.length_take, List.length_cons] at this
      omega
    have hb : (bytes text)[pos]? = some b := by
      have := congrArg (·[0]?) hwindow
      rwa [List.getElem?_drop, Nat.add_zero, List.getElem?_take_of_lt hlt] at this
    have hrest : ((bytes text).take limit).drop (pos + 1) = window := by
      rw [← List.tail_drop, hwindow, List.tail_cons]
    rw [search, scanRange_of_lt hlt]
    split
    · rw [referenceWithin_eq hlt hlimit, ok_bind]
      cases (at? text pos).bind (cutAt? limit) with
      | none => exact ih hrest
      | some r => rfl
    · rename_i hne
      rw [at?_eq_none (by rw [hb]; simpa using hne)]
      exact ih hrest

/-- A call gives the first reference still to come and leaves the others. -/
theorem next_spec (h : s.Inside) :
    ∃ s', s.next = .ok (s.pending.head?, s') ∧ s'.Inside ∧ s'.pending = s.pending.tail := by
  unfold next
  rw [slice_eq h.pos_le h.stop_le, ok_bind, search_eq h.stop_le rfl, ok_bind]
  cases hpending : s.pending with
  | nil =>
    rw [pending] at hpending
    rw [hpending]
    refine ⟨{ s with pos := s.stop }, rfl, ⟨Nat.le_refl _, h.stop_le⟩, ?_⟩
    exact scanRange_of_le (Nat.le_refl _)
  | cons r rs =>
    rw [pending] at hpending
    obtain ⟨-, hle, htail⟩ := scanRange_stop hpending
    rw [hpending]
    exact ⟨{ s with pos := r.stop }, rfl, ⟨hle, h.stop_le⟩, htail⟩

/-- The scanner answers with its references in order, and then with none. -/
theorem answers_eq (h : s.Inside) (n : Nat) :
    s.answers n = .ok ((List.range n).map fun i => s.pending[i]?) := by
  induction n generalizing s with
  | zero => rfl
  | succ n ih =>
    obtain ⟨s', hnext, hinside, htail⟩ := next_spec h
    rw [answers, hnext, ok_bind]
    dsimp only
    rw [ih hinside, ok_bind, htail, List.range_succ_eq_map, List.map_cons, List.map_map,
      List.head?_eq_getElem?]
    congr 2
    refine List.map_congr_left fun i _ => ?_
    rw [List.getElem?_tail]
    rfl

/-! ## A whole scan -/

theorem inside_of_next {result : Option Reference × Scanner} (h : s.next = .ok result) :
    s.Inside := by
  unfold next at h
  cases hwindow : slice (bytes s.text) s.pos s.stop with
  | error fault =>
    rw [hwindow] at h
    cases h
  | ok window => exact ⟨(slice_eq_ok hwindow).1, (slice_eq_ok hwindow).2⟩

theorem length_pending_lt {r : Reference} {s' : Scanner} (h : s.next = .ok (some r, s')) :
    s'.pending.length < s.pending.length := by
  obtain ⟨s'', hnext, -, htail⟩ := next_spec (inside_of_next h)
  rw [h, Except.ok.injEq, Prod.mk.injEq] at hnext
  obtain ⟨hhead, rfl⟩ := hnext
  have hpos : 0 < s.pending.length := List.length_pos_of_mem (List.mem_of_head? hhead.symm)
  rw [htail, List.length_tail]
  omega

/-- Calls until there is no further reference. -/
def drain (s : Scanner) : Except Fault (List Reference) :=
  match h : s.next with
  | .error fault => .error fault
  | .ok (none, _) => .ok []
  | .ok (some r, s') =>
    have := length_pending_lt h
    s'.drain.map (r :: ·)
termination_by s.pending.length

/-- A scanner that is drained gives all its references. -/
theorem drain_eq (h : s.Inside) : s.drain = .ok s.pending := by
  fun_induction drain s with
  | case1 s fault herror =>
    obtain ⟨s', hnext, -⟩ := next_spec h
    rw [herror] at hnext
    cases hnext
  | case2 s s' hnone =>
    obtain ⟨s'', hnext, -⟩ := next_spec h
    rw [hnone, Except.ok.injEq, Prod.mk.injEq] at hnext
    rw [List.head?_eq_none_iff.1 hnext.1.symm]
  | case3 s r s' hsome hlt ih =>
    obtain ⟨s'', hnext, hinside, htail⟩ := next_spec h
    rw [hsome, Except.ok.injEq, Prod.mk.injEq] at hnext
    obtain ⟨hhead, rfl⟩ := hnext
    rw [ih hinside, htail]
    exact congrArg Except.ok (List.cons_head?_tail hhead.symm)

end Scanner

end DefUse.Bytewise

namespace DefUse.Reference

open Text

/-- The three ways to look for references find the same ones.  The references of a text are those that
stand at its offsets, one after another; there is one at an offset exactly where its bytes show a `$`
that starts a name; and a scan of a range gives the references that start in it, with their names cut
off at its end.  A scanner of the range gives these one by one, and nothing more behind them. -/
theorem reference_searches_agree (text : String) :
    (∀ k, scan text = (List.range ((bytes text).length + k)).filterMap (at? text)) ∧
    (∀ o, ((at? text o).isSome = true ↔ IsSigil (bytes text) o) ∧
      ∀ r, at? text o = some r ↔
        IsSigil (bytes text) o ∧ r.offset = o ∧ bytes r.name = nameBytes (bytes text) o) ∧
    ∀ start stop,
      scanRange text start stop =
        selection text (min start (min stop (bytes text).length)) (min stop (bytes text).length) ∧
      ∀ n, (Bytewise.Scanner.inRange text start stop).answers n =
        .ok ((List.range n).map fun i => (scanRange text start stop)[i]?) := by
  refine ⟨fun k => scan_eq_filterMap (Nat.le_add_right ..),
    fun o => ⟨isSome_at?_iff text o, fun r => at?_eq_some_iff⟩, fun start stop => ⟨?_, fun n => ?_⟩⟩
  · rw [scanRange_clamp, scanRange_eq_selection]
  · rw [Bytewise.Scanner.answers_eq (Bytewise.Scanner.inside_inRange ..),
      Bytewise.Scanner.pending_inRange]

end DefUse.Reference
