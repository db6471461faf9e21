import DefUse.Proofs.BytewiseBinding
import DefUse.Reader

/-!
# No step fails

The depth of a block is a signed number of a fixed width.  `Bytewise.readFrom` reads lines as
`DefUse.readFrom` does, with every sum of depths checked against the bounds `low` and `high` of that
width, also in the middle of a line.

One byte moves the depth by one at most, so a depth is never further from zero than the bytes read so
far.  Hence no sum leaves the bounds if the source is no longer than they are wide (`read_eq`).  With
the results on references and bindings this says of every step of the analysis that it gives its result
(`analysis_never_faults`).
-/

namespace DefUse.Text

theorem byteLength_chomp_le (segs : List (List Char)) :
    byteLength (segs.flatMap chomp) ≤ byteLength segs.flatten := by
  induction segs with
  | nil => exact Nat.le_refl _
  | cons seg segs ih =>
    obtain ⟨ending, hending⟩ := chomp_prefix seg
    have hseg : byteLength (chomp seg) + byteLength ending = byteLength seg := by
      rw [← byteLength_append, hending]
    rw [List.flatMap_cons, List.flatten_cons, byteLength_append, byteLength_append]
    omega

/-- The lines of a text have no more bytes than the text. -/
theorem byteLength_lines_le (text : String) :
    byteLength ((lines text).flatMap String.toList) ≤ text.utf8ByteSize := by
  have h := byteLength_chomp_le (segments text.toList)
  rw [flatten_segments, byteLength_toList] at h
  simpa only [lines, List.flatMap_map, String.toList_ofList] using h

theorem natAbs_byteWeight_le (b : UInt8) : (byteWeight b).natAbs ≤ 1 := by
  unfold byteWeight
  split
  · exact Nat.le_refl 1
  · split <;> decide

/-- A text nests no deeper than it has bytes. -/
theorem natAbs_byteDepth_le (bs : List UInt8) : (byteDepth bs).natAbs ≤ bs.length := by
  induction bs with
  | nil => exact Nat.le_refl 0
  | cons b bs ih =>
    have := natAbs_byteWeight_le b
    rw [byteDepth_cons, List.length_cons]
    omega

end DefUse.Text

namespace DefUse.Bytewise

open Text Position

/-- The sum of two numbers, where it is in bounds. -/
def addWithin (low high a b : Int) : Except Fault Int :=
  if low ≤ a + b ∧ a + b ≤ high then .ok (a + b) else .error .overflow

/-- The depth behind `bs`, counted from `depth` on. -/
def depthFrom (low high depth : Int) : List UInt8 → Except Fault Int
  | [] => .ok depth
  | b :: bs => do
    let depth ← addWithin low high depth (byteWeight b)
    depthFrom low high depth bs

/-- The depth with which the next line is read. -/
def openDepth (block : Option Block) : Int :=
  (block.map Block.depth).getD 0

/-- The block with one more line, which opens it if there is none yet. -/
def extend (low high : Int) (block : Option Block) (line : SourceLine) : Except Fault Block := do
  let lineDepth ← depthFrom low high 0 (bytes line.text)
  let depth ← addWithin low high (openDepth block) lineDepth
  match block with
  | none => .ok ⟨line.number, line.text ++ "\n", depth⟩
  | some b => .ok ⟨b.startLine, b.text ++ line.text ++ "\n", depth⟩

/-- Reads the given lines, with `block` gathered before them. -/
def readFrom (low high : Int) (block : Option Block) : List SourceLine → Except Fault Reading
  | [] => .ok ⟨[], block.map Block.remainder⟩
  | line :: rest =>
    if line.isSkipped then readFrom low high block rest
    else do
      let b ← extend low high block line
      if b.depth = 0 then
        let tail ← readFrom low high none rest
        .ok ⟨b.close line :: tail.expressions, tail.remainder⟩
      else readFrom low high (some b) rest

/-- Reads a whole source with depths in bounds. -/
def read (low high : Int) (source : String) : Except Fault Reading :=
  readFrom low high none (SourceLine.ofSource source)

/-! ## Depths -/

theorem openDepth_none : openDepth none = 0 := rfl

/-- A line adds its depth to that of the open block. -/
theorem depth_extend (block : Option Block) (line : SourceLine) :
    (Block.extend block line).depth = openDepth block + byteDepth (bytes line.text) := by
  rw [bytes_eq_encode, byteDepth_encode]
  cases block with
  | none => exact (Int.zero_add _).symm
  | some b => rfl

section

variable {low high : Int} {limit : Nat} (hlow : low ≤ -limit) (hhigh : limit ≤ high)

include hlow hhigh

theorem addWithin_eq {a b : Int} (h : (a + b).natAbs ≤ limit) :
    addWithin low high a b = .ok (a + b) :=
  if_pos ⟨by omega, by omega⟩

/-- The depth of a line does not overflow as long as the bytes so far stay within the limit. -/
theorem depthFrom_eq {depth : Int} {bs : List UInt8} (h : depth.natAbs + bs.length ≤ limit) :
    depthFrom low high depth bs = .ok (depth + byteDepth bs) := by
  induction bs generalizing depth with
  | nil => rw [depthFrom, byteDepth_nil, Int.add_zero]
  | cons b bs ih =>
    have hweight := natAbs_byteWeight_le b
    rw [List.length_cons] at h
    rw [depthFrom, addWithin_eq hlow hhigh (by omega), ok_bind, ih (by omega), byteDepth_cons,
      Int.add_assoc]

theorem extend_eq {block : Option Block} {line : SourceLine}
    (h : (openDepth block).natAbs + line.text.utf8ByteSize ≤ limit) :
    extend low high block line = .ok (Block.extend block line) := by
  have hdepth := natAbs_byteDepth_le (bytes line.text)
  rw [← length_bytes] at h
  have hroom : Int.natAbs 0 + (bytes line.text).length ≤ limit := by
    rw [Int.natAbs_zero]
    omega
  have hline := depthFrom_eq hlow hhigh hroom
  rw [extend, hline, ok_bind, Int.zero_add, addWithin_eq hlow hhigh (by omega), ok_bind, ← depth_extend]
  cases block <;> rfl

/-- The depth so far and the bytes still to be read together bound every depth to come. -/
theorem readFrom_eq {block : Option Block} {lines : List SourceLine}
    (h : (openDepth block).natAbs + byteLength (lines.flatMap fun line => line.text.toList) ≤ limit) :
    readFrom low high block lines = .ok (DefUse.readFrom block lines) := by
  induction lines generalizing block with
  | nil => rfl
  | cons line rest ih =>
    rw [List.flatMap_cons, byteLength_append, byteLength_toList] at h
    by_cases hskip : line.isSkipped = true
    · rw [readFrom, if_pos hskip, readFrom_skipped hskip, ih (by omega)]
    · have hdepth := depth_extend block line
      have hline := natAbs_byteDepth_le (bytes line.text)
      rw [length_bytes] at hline
      rw [readFrom, if_neg hskip, extend_eq hlow hhigh (by omega), ok_bind]
      by_cases hzero : (Block.extend block line).depth = 0
      · have hrest : (openDepth none).natAbs + byteLength (rest.flatMap fun line => line.text.toList) ≤
            limit := by
          rw [openDepth_none, Int.natAbs_zero]
          omega
        rw [if_pos hzero, readFrom_complete hskip hzero, ih hrest, ok_bind]
      · have hopen : openDepth (some (Block.extend block line)) = (Block.extend block line).depth := rfl
        rw [if_neg hzero, readFrom_open hskip hzero, ih (by omega)]

/-- Reading a source does not overflow if its length is within the limit. -/
theorem read_eq {source : String} (h : source.utf8ByteSize ≤ limit) :
    read low high source = .ok (DefUse.read source) := by
  apply readFrom_eq hlow hhigh
  have hlines := byteLength_lines_le source
  have htexts : ((SourceLine.ofSource source).flatMap fun line => line.text.toList) =
      (lines source).flatMap String.toList := by
    rw [SourceLine.ofSource, List.flatMap_map]
    nth_rewrite 2 [← List.zipIdx_map_fst 1 (lines source)]
    rw [List.flatMap_map]
  rw [htexts, openDepth_none, Int.natAbs_zero]
  omega

end

/-! ## The analysis of a text -/

/-- Every step of the analysis of a text gives its result, whatever the offset or the bounds. -/
structure Faultless (text : String) : Prop where
  /-- The identifier behind a `$` is cut out between two characters, wherever the window ends. -/
  within_ok : ∀ offset limit, offset < limit → limit ≤ (bytes text).length →
    referenceWithin text offset limit = .ok ((Reference.at? text offset).bind (Reference.cutAt? limit))
  at_ok : ∀ offset, referenceAt text offset = .ok (Reference.at? text offset)
  /-- A scanner of any range can be called any number of times. -/
  scanner_ok : ∀ start stop n, (Scanner.inRange text start stop).answers n =
    .ok ((List.range n).map fun i => (Reference.scanRange text start stop)[i]?)
  classify_ok : classify text = .ok (Form.classify text)
  /-- The count of open groups is not taken below zero where it starts at a parenthesis. -/
  groupEnd_ok : ∀ p, (bytes text)[p]? = some openByte →
    ∃ stop, groupEnd (bytes text) p = .ok stop ∧ IsGroupEnd (bytes text) p stop
  openings_ok : ∀ start stop,
    openings (bytes text) start stop = .ok (openingsIn (bytes text) start stop)
  head_ok : ∀ opening limit, ∃ head, headReference text opening limit = .ok head
  /-- Here a group is followed only from a parenthesis on. -/
  bindings_ok : bindings text = .ok (Bindings.ofText text)

theorem faultless (text : String) : Faultless text where
  within_ok _ _ h hlen := referenceWithin_eq h hlen
  at_ok := referenceAt_eq text
  scanner_ok start stop n := by
    rw [Scanner.answers_eq (Scanner.inside_inRange ..), Scanner.pending_inRange]
  classify_ok := classify_eq text
  groupEnd_ok p hopen := by
    rw [bytes_eq_encode] at hopen
    obtain ⟨before, inside, htext, rfl⟩ := exists_split_of_byte (d := '(') (by decide) hopen
    refine ⟨_, groupEnd_eq htext, ?_⟩
    rw [bytes_eq_encode, htext]
    exact isGroupEnd_groupEnd before inside
  openings_ok := openings_eq (bytes text)
  head_ok opening limit := ⟨_, headReference_eq text opening limit⟩
  bindings_ok := bindings_eq text

/-- No step of the analysis fails.  This holds of every text, every offset and every pair of bounds;
and in reading a source the depth stays within plus and minus its number of bytes, so that a depth of 64
bits is wide enough for every source of less than `2 ^ 63` bytes. -/
theorem analysis_never_faults :
    (∀ text : String, Faultless text) ∧
    ∀ source : String,
      read (-source.utf8ByteSize) source.utf8ByteSize source = .ok (DefUse.read source) ∧
      (source.utf8ByteSize ≤ Int64.maxValue.toInt →
        read Int64.minValue.toInt Int64.maxValue.toInt source = .ok (DefUse.read source)) := by
  refine ⟨faultless, fun source => ⟨read_eq (Int.le_refl _) (Int.le_refl _) (Nat.le_refl _), ?_⟩⟩
  intro hsize
  have hmin : Int64.minValue.toInt = -Int64.maxValue.toInt - 1 := by decide
  exact read_eq (by omega) hsize (Nat.le_refl _)

theorem analysis_never_faults_sample :
    "é($x_ é".utf8ByteSize ≤ Int64.maxValue.toInt ∧
    read Int64.minValue.toInt Int64.maxValue.toInt "é($x_ é" = .ok (DefUse.read "é($x_ é") ∧
    referenceWithin "é($x_ é" 3 5 = .ok (some ⟨"$x", 3⟩) ∧
    (Scanner.inRange "é($x_ é" 1 8).answers 2 = .ok [some ⟨"$x_", 3⟩, none] ∧
    ∃ stop, groupEnd (bytes "é($x_ é") 2 = .ok stop ∧ IsGroupEnd (bytes "é($x_ é") 2 stop := by
  obtain ⟨htext, hsource⟩ := analysis_never_faults
  have hbytes := bytes_eq_encode "é($x_ é"
  have hsize : "é($x_ é".utf8ByteSize ≤ Int64.maxValue.toInt := by decide
  refine ⟨hsize, (hsource _).2 hsize, ?_, ?_, ?_⟩
  · exact (htext _).within_ok 3 5 (by decide) (by rw [hbytes]; decide)
  · exact (htext _).scanner_ok 1 8 2
  · exact (htext _).groupEnd_ok 2 (by rw [hbytes]; decide)

end DefUse.Bytewise
