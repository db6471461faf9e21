import DefUse.Report.Listing
import Mathlib.Data.List.Basic
import Mathlib.Data.List.TakeWhile

/-!
# Colours add no text

A colour sequence is an escape character, a bracket, digits and semicolons, and an `m`.  `strip` deletes
the colour sequences of a text in one pass from left to right; what is put together by the deletion is
not looked at again.

A text may be stripped part by part where the second part cannot go on with a sequence that the first
has begun (`stripChars_append`).  Whatever is in a piece, complete and broken sequences too, painting it
adds whole sequences only, and none of them between the parts of one that was there
(`stripChars_replace`):

    stripChars (p.paint s text ++ rest)  =  stripChars text ++ stripChars rest

for the plain palette and the coloured one alike, so the two give reports that are stripped to the same
text.
-/

namespace DefUse.Report

open Text

/-! ## Stripping -/

namespace Palette

/-- The characters between the bracket and the `m`. -/
def isParameter (c : Char) : Bool := c.isDigit || c == ';'

/-- What stands behind the colour sequence at the head of a text, if there is one. -/
def behindSequence? : List Char → Option (List Char)
  | '\x1b' :: '[' :: cs =>
    match cs.dropWhile isParameter with
    | 'm' :: rest => some rest
    | _ => none
  | _ => none

/-- A colour sequence. -/
def IsSequence (cs : List Char) : Prop :=
  ∃ params, (∀ c ∈ params, isParameter c = true) ∧ cs = '\x1b' :: '[' :: (params ++ ['m'])

theorem behindSequence?_sequence {seq : List Char} (h : IsSequence seq) (rest : List Char) :
    behindSequence? (seq ++ rest) = some rest := by
  obtain ⟨params, hparams, rfl⟩ := h
  have hdrop : (params ++ ['m'] ++ rest).dropWhile isParameter = 'm' :: rest := by
    rw [List.append_assoc, List.dropWhile_append_of_pos hparams]
    rfl
  rw [List.cons_append, List.cons_append, behindSequence?, hdrop]
  rfl

theorem exists_sequence {cs rest : List Char} (h : behindSequence? cs = some rest) :
    ∃ seq, IsSequence seq ∧ cs = seq ++ rest := by
  unfold behindSequence? at h
  split at h
  · next cs =>
    split at h
    · next hdrop =>
      obtain rfl := Option.some.inj h
      refine ⟨_, ⟨cs.takeWhile isParameter, fun c hc => List.mem_takeWhile_imp hc, rfl⟩, ?_⟩
      rw [List.cons_append, List.cons_append, List.append_assoc, List.singleton_append, ← hdrop,
        List.takeWhile_append_dropWhile]
    · cases h
  · cases h

/-- Nothing is found exactly if no sequence stands in front. -/
theorem behindSequence?_eq_none_iff {cs : List Char} :
    behindSequence? cs = none ↔ ∀ seq rest, IsSequence seq → cs ≠ seq ++ rest := by
  constructor
  · rintro hnone seq rest hseq rfl
    rw [behindSequence?_sequence hseq] at hnone
    cases hnone
  · intro h
    rw [Option.eq_none_iff_forall_ne_some]
    intro rest hrest
    obtain ⟨seq, hseq, heq⟩ := exists_sequence hrest
    exact h seq rest hseq heq

theorem length_behindSequence? {cs rest : List Char} (h : behindSequence? cs = some rest) :
    rest.length < cs.length := by
  obtain ⟨_, ⟨params, -, rfl⟩, rfl⟩ := exists_sequence h
  simp only [List.cons_append, List.length_cons, List.length_append]
  omega

/-- The text without its colour sequences. -/
def stripChars (cs : List Char) : List Char :=
  match cs with
  | [] => []
  | c :: cs =>
    match _h : behindSequence? (c :: cs) with
    | some rest => stripChars rest
    | none => c :: stripChars cs
termination_by cs.length
decreasing_by
  · exact length_behindSequence? _h
  · exact Nat.lt_succ_self _

/-- A text without its colour sequences. -/
def strip (text : String) : String := String.ofList (stripChars text.toList)

theorem stripChars_of_some {c : Char} {cs rest : List Char}
    (h : behindSequence? (c :: cs) = some rest) : stripChars (c :: cs) = stripChars rest := by
  rw [stripChars]
  split
  · next hsome => rw [Option.some.inj (hsome.symm.trans h)]
  · next hnone => cases hnone.symm.trans h

theorem stripChars_of_none {c : Char} {cs : List Char} (h : behindSequence? (c :: cs) = none) :
    stripChars (c :: cs) = c :: stripChars cs := by
  rw [stripChars]
  split
  · next hsome => cases hsome.symm.trans h
  · rfl

theorem stripChars_nil : stripChars [] = [] := by
  rw [stripChars]

theorem stripChars_sequence {seq : List Char} (h : IsSequence seq) (cs : List Char) :
    stripChars (seq ++ cs) = stripChars cs := by
  have hbehind := behindSequence?_sequence h cs
  obtain ⟨params, -, rfl⟩ := h
  exact stripChars_of_some hbehind

/-! ## Part by part -/

/-- A text in which no sequence begun before it can go on. -/
def Breaks (cs : List Char) : Prop :=
  ∀ c ∈ cs.head?, c ≠ '[' ∧ c ≠ 'm' ∧ isParameter c = false

theorem breaks_nil : Breaks [] := fun _ h => by cases h

theorem breaks_cons {c : Char} (h : c ≠ '[' ∧ c ≠ 'm' ∧ isParameter c = false) (cs : List Char) :
    Breaks (c :: cs) := by
  rintro _ ⟨⟩
  exact h

/-- No sequence goes on into a text that breaks sequences off. -/
theorem behindSequence?_append {rest : List Char} (h : Breaks rest) (c : Char) (cs : List Char) :
    behindSequence? (c :: cs ++ rest) = (behindSequence? (c :: cs)).map (· ++ rest) := by
  cases hbehind : behindSequence? (c :: cs) with
  | some more =>
    obtain ⟨seq, hseq, heq⟩ := exists_sequence hbehind
    rw [heq, List.append_assoc, behindSequence?_sequence hseq, Option.map_some]
  | none =>
    apply behindSequence?_eq_none_iff.2
    intro seq more hseq heq
    have hwhole : ∀ mid, c :: cs ≠ seq ++ mid :=
      fun mid => behindSequence?_eq_none_iff.1 hbehind seq mid hseq
    rcases List.append_eq_append_iff.1 heq with ⟨mid, hmid, hrest⟩ | ⟨mid, hmid, -⟩
    · cases mid with
      | nil => exact hwhole [] (by rw [hmid, List.append_nil, List.append_nil])
      | cons d mid =>
        -- the sequence runs over the seam, so the second part begins with one of its later characters
        obtain ⟨hbracket, hend, hparam⟩ := h d (by rw [hrest]; rfl)
        obtain ⟨params, hparams, rfl⟩ := hseq
        have hd : d ∈ '[' :: (params ++ ['m']) := by
          rw [(List.cons.inj hmid).2]
          exact List.mem_append_right _ List.mem_cons_self
        rcases List.mem_cons.1 hd with rfl | hd
        · exact hbracket rfl
        · rcases List.mem_append.1 hd with hd | hd
          · rw [hparams d hd] at hparam
            cases hparam
          · exact hend (List.mem_singleton.1 hd)
    · exact hwhole mid hmid

/-- Before a text that breaks sequences off, stripping goes part by part. -/
theorem stripChars_append {rest : List Char} (h : Breaks rest) (cs : List Char) :
    stripChars (cs ++ rest) = stripChars cs ++ stripChars rest := by
  induction cs using stripChars.induct with
  | case1 => rw [stripChars_nil]; rfl
  | case2 c cs more hsome ih =>
    have happend := behindSequence?_append h c cs
    rw [hsome] at happend
    rw [stripChars_of_some hsome, ← ih]
    exact stripChars_of_some happend
  | case3 c cs hnone ih =>
    have happend := behindSequence?_append h c cs
    rw [hnone] at happend
    rw [stripChars_of_none hnone, List.cons_append, List.cons_append, ← ih]
    exact stripChars_of_none happend

theorem behindSequence?_of_ne {c : Char} (h : c ≠ '\x1b') (cs : List Char) :
    behindSequence? (c :: cs) = none := by
  apply behindSequence?_eq_none_iff.2
  rintro _ rest ⟨params, -, rfl⟩ heq
  exact h (List.cons.inj heq).1

/-- What holds no escape character is kept, whatever follows. -/
theorem stripChars_append_of_not_mem {pre : List Char} (h : '\x1b' ∉ pre) (cs : List Char) :
    stripChars (pre ++ cs) = pre ++ stripChars cs := by
  induction pre with
  | nil => rfl
  | cons c pre ih =>
    rw [List.mem_cons, not_or] at h
    rw [List.cons_append, stripChars_of_none (behindSequence?_of_ne (Ne.symm h.1) _), ih h.2,
      List.cons_append]

theorem stripChars_of_not_mem {cs : List Char} (h : '\x1b' ∉ cs) : stripChars cs = cs := by
  have happend := stripChars_append_of_not_mem h []
  rwa [List.append_nil, stripChars_nil, List.append_nil] at happend

/-! ## Painted pieces -/

/-- A style with nothing but digits and semicolons in its codes. -/
def IsProper (s : Style) : Prop := s.codes.toList.all isParameter = true

instance (s : Style) : Decidable (IsProper s) := inferInstanceAs (Decidable (_ = true))

theorem isSequence_reset : IsSequence reset := ⟨['0'], List.forall_mem_singleton.2 rfl, rfl⟩

theorem isSequence_sequence {s : Style} (h : IsProper s) : IsSequence s.sequence :=
  ⟨s.codes.toList, List.all_eq_true.1 h, rfl⟩

/-- Behind the escape character a sequence has no other. -/
theorem IsSequence.exists_tail {seq : List Char} (h : IsSequence seq) :
    ∃ tail, seq = '\x1b' :: tail ∧ '\x1b' ∉ tail := by
  obtain ⟨params, hparams, rfl⟩ := h
  refine ⟨_, rfl, ?_⟩
  rw [List.mem_cons, List.mem_append, not_or, not_or]
  refine ⟨by decide, fun hmem => ?_, by decide⟩
  exact absurd (hparams _ hmem) (by decide)

/-- To set the style again behind each reset makes no difference. -/
theorem stripChars_replace {s : Style} (hs : IsProper s) (cs : List Char) :
    stripChars (replace '\x1b' ['[', '0', 'm'] (reset ++ s.sequence) cs) = stripChars cs := by
  induction cs using stripChars.induct with
  | case1 => rfl
  | case2 c cs rest hsome ih =>
    obtain ⟨seq, hseq, heq⟩ := exists_sequence hsome
    rw [stripChars_of_some hsome, ← ih, heq]
    by_cases hreset : reset <+: seq ++ rest
    · -- a reset: the style follows it
      obtain ⟨rest', hrest'⟩ := hreset
      have hbehind := behindSequence?_sequence isSequence_reset rest'
      rw [hrest', behindSequence?_sequence hseq] at hbehind
      obtain rfl := Option.some.inj hbehind
      rw [← hrest']
      show stripChars (replace _ _ _ ('\x1b' :: (['[', '0', 'm'] ++ rest))) = _
      rw [replace_occurrence, List.append_assoc, stripChars_sequence isSequence_reset,
        stripChars_sequence (isSequence_sequence hs)]
    · -- another sequence: it stays as it is
      obtain ⟨tail, rfl, htail⟩ := hseq.exists_tail
      rw [List.cons_append] at hreset ⊢
      rw [replace_cons _ hreset, replace_append_of_not_mem htail]
      exact stripChars_sequence hseq _
  | case3 c cs hnone ih =>
    have hout := behindSequence?_eq_none_iff.1 hnone
    have hreset : ¬ reset <+: c :: cs := by
      rintro ⟨rest, hrest⟩
      exact hout reset rest isSequence_reset hrest.symm
    have hkept : behindSequence?
        (c :: replace '\x1b' ['[', '0', 'm'] (reset ++ s.sequence) cs) = none := by
      apply behindSequence?_eq_none_iff.2
      intro seq rest hseq heq
      obtain ⟨tail, rfl, htail⟩ := hseq.exists_tail
      rw [List.cons_append] at heq
      obtain ⟨rfl, hreplaced⟩ := List.cons.inj heq
      obtain ⟨rest', hrest'⟩ := prefix_of_prefix_replace rfl htail ⟨rest, hreplaced.symm⟩
      exact hout _ rest' hseq (by rw [← hrest', List.cons_append])
    rw [replace_cons _ hreset, stripChars_of_none hkept, stripChars_of_none hnone, ih]

/-- Stripping a painted text gives what stripping the text gives. -/
theorem stripChars_paint (p : Palette) {s : Style} (hs : IsProper s) (text : String)
    {rest : List Char} (hrest : Breaks rest) :
    stripChars ((p.paint s text).toList ++ rest) = stripChars text.toList ++ stripChars rest := by
  cases p with
  | plain => exact stripChars_append hrest _
  | ansi =>
    have hreset : Breaks (reset ++ rest) := breaks_cons (by decide) _
    rw [paint, String.toList_ofList, paintChars, List.append_assoc, List.append_assoc,
      stripChars_sequence (isSequence_sequence hs), stripChars_append hreset, stripChars_replace hs,
      stripChars_sequence isSequence_reset]

end Palette

/-! ## Reports -/

namespace Listing

open Palette

theorem isProper_severityStyle (severity : Severity) : IsProper (severityStyle severity) := by
  cases severity <;> decide

/-- A line is stripped to its parts, with or without colours. -/
theorem stripChars_line (p : Palette) (file : String) (d : Diagnostic) :
    stripChars (line p file d).toList =
      stripChars (location file d).toList ++ (" - ".toList ++ (stripChars d.severity.label.toList ++
        (" ".toList ++ (stripChars ("ML" ++ Decimal.ofNat d.code).toList ++
          (": ".toList ++ stripChars d.message.toList))))) := by
  have hdash : ∀ cs, Breaks (" - ".toList ++ cs) := breaks_cons (by decide)
  have hblank : ∀ cs, Breaks (" ".toList ++ cs) := breaks_cons (by decide)
  have hcolon : ∀ cs, Breaks (": ".toList ++ cs) := breaks_cons (by decide)
  unfold line
  simp only [String.toList_append, List.append_assoc]
  rw [stripChars_paint p (by decide) _ (hdash _), stripChars_append_of_not_mem (by decide),
    stripChars_paint p (isProper_severityStyle _) _ (hblank _),
    stripChars_append_of_not_mem (by decide), stripChars_paint p (by decide) _ (hcolon _),
    stripChars_append_of_not_mem (by decide), String.toList_append]

theorem stripChars_summary (p : Palette) (errors warnings : Nat) :
    stripChars (summary p errors warnings).toList =
      stripChars (summary .plain errors warnings).toList := by
  unfold summary
  split
  · rfl
  · have hpaint := fun q : Palette => stripChars_paint q (s := Style.bold) (by decide)
      ("Found " ++ counted errors "error" ++ " and " ++ counted warnings "warning" ++ ".") breaks_nil
    have hp := hpaint p
    have hplain := hpaint .plain
    rw [List.append_nil] at hp hplain
    rw [hp, hplain]

/-- Lines are stripped one by one. -/
theorem stripChars_intercalate (lines : List (List Char)) :
    stripChars (['\n'].intercalate lines) = ['\n'].intercalate (lines.map stripChars) := by
  induction lines with
  | nil => exact stripChars_nil
  | cons line lines ih =>
    cases lines with
    | nil => simp
    | cons next lines =>
      have hfeed : Breaks ('\n' :: ['\n'].intercalate (next :: lines)) := breaks_cons (by decide) _
      rw [List.map_cons, List.map_cons, List.intercalate_cons_cons, List.intercalate_cons_cons,
        ← List.map_cons, ← ih, List.append_assoc, List.append_assoc, List.singleton_append,
        List.singleton_append, stripChars_append hfeed,
        stripChars_of_none (behindSequence?_of_ne (by decide) _)]

/-- The lines of a report, the summary included. -/
def reportLines (p : Palette) (reports : List FileReport) : List String :=
  (reports.flatMap fun r => r.result.diagnostics.map (line p r.file)) ++
    [summary p (count .error reports) (count .warning reports)]

theorem toList_render (p : Palette) (reports : List FileReport) :
    (render p reports).toList = ['\n'].intercalate ((reportLines p reports).map String.toList) :=
  String.toList_intercalate

/-- Each line of a coloured report is stripped to that of a plain one. -/
theorem map_stripChars_reportLines (p : Palette) (reports : List FileReport) :
    (reportLines p reports).map (fun text => stripChars text.toList) =
      (reportLines .plain reports).map fun text => stripChars text.toList := by
  have hlines : ∀ r : FileReport,
      (r.result.diagnostics.map (line p r.file)).map (fun text => stripChars text.toList) =
        (r.result.diagnostics.map (line .plain r.file)).map fun text => stripChars text.toList := by
    intro r
    rw [List.map_map, List.map_map]
    refine List.map_congr_left fun d _ => ?_
    show stripChars (line p r.file d).toList = stripChars (line .plain r.file d).toList
    rw [stripChars_line, stripChars_line]
  unfold reportLines
  rw [List.map_append, List.map_append, List.map_flatMap, List.map_flatMap,
    List.flatMap_congr fun r _ => hlines r, List.map_singleton, List.map_singleton, stripChars_summary]

/-! ## Reports without escape characters -/

theorem escape_not_mem_ofNat (n : Nat) : '\x1b' ∉ (Decimal.ofNat n).toList := by
  rw [Decimal.ofNat, String.toList_ofList]
  exact Decimal.not_mem_digits (by decide) n

theorem escape_not_mem_line {file : String} {d : Diagnostic} (hfile : '\x1b' ∉ file.toList)
    (hmessage : '\x1b' ∉ d.message.toList) : '\x1b' ∉ (line .plain file d).toList := by
  have hlocation : '\x1b' ∉ (location file d).toList := by
    unfold location
    split
    · exact hfile
    · simp [hfile, escape_not_mem_ofNat]
  have hlabel : '\x1b' ∉ d.severity.label.toList := by cases d.severity <;> decide
  simp [line, paint, hlocation, hlabel, hmessage, escape_not_mem_ofNat]

theorem escape_not_mem_summary (errors warnings : Nat) :
    '\x1b' ∉ (summary .plain errors warnings).toList := by
  have hcounted : ∀ n (noun : String), '\x1b' ∉ noun.toList → '\x1b' ∉ (counted n noun).toList := by
    intro n noun hnoun
    unfold counted
    split <;> simp [hnoun, escape_not_mem_ofNat]
  unfold summary
  split
  · decide
  · simp [paint, hcounted _ "error" (by decide), hcounted _ "warning" (by decide)]

theorem escape_not_mem_reportLines {reports : List FileReport}
    (h : ∀ r ∈ reports, '\x1b' ∉ r.file.toList ∧
      ∀ d ∈ r.result.diagnostics, '\x1b' ∉ d.message.toList) :
    ∀ text ∈ reportLines .plain reports, '\x1b' ∉ text.toList := by
  intro text htext
  rcases List.mem_append.1 htext with hline | hsummary
  · obtain ⟨r, hr, hline⟩ := List.mem_flatMap.1 hline
    obtain ⟨d, hd, rfl⟩ := List.mem_map.1 hline
    exact escape_not_mem_line (h r hr).1 ((h r hr).2 d hd)
  · rw [List.mem_singleton.1 hsummary]
    exact escape_not_mem_summary _ _

/-- Stripped of its colours a report is the plain report, stripped of the sequences that names and
messages bring in themselves; where they bring in no escape character, it is the plain report as it
is. -/
theorem colours_carry_no_text (reports : List FileReport) :
    strip (render (.choose true true) reports) = strip (render (.choose false true) reports) ∧
    ((∀ r ∈ reports, '\x1b' ∉ r.file.toList ∧
        ∀ d ∈ r.result.diagnostics, '\x1b' ∉ d.message.toList) →
      strip (render (.choose true true) reports) = render (.choose false true) reports) := by
  have hstrip : ∀ p, strip (render p reports) = String.ofList
      (['\n'].intercalate ((reportLines .plain reports).map fun text => stripChars text.toList)) := by
    intro p
    rw [strip, toList_render, stripChars_intercalate, List.map_map, ← map_stripChars_reportLines p]
    rfl
  refine ⟨by rw [hstrip, hstrip], fun hescape => ?_⟩
  have hlines : (reportLines .plain reports).map (fun text => stripChars text.toList) =
      (reportLines .plain reports).map String.toList :=
    List.map_congr_left fun text htext =>
      stripChars_of_not_mem (escape_not_mem_reportLines hescape text htext)
  rw [hstrip, hlines, ← toList_render, String.ofList_toList]
  rfl

theorem colours_carry_no_text_sample :
    strip (render (.choose true true)
        [⟨"a.metta", ⟨[⟨3, "[0m $x", 1001, .error, ""⟩], ⟨1, 1, 0, false⟩⟩⟩]) =
      "a.metta:3 - error ML1001: [0m $x\nFound 1 error and 0 warnings." := by
  rw [(colours_carry_no_text _).2 (by decide)]
  decide +kernel

/-- Broken sequences at the end of a name stay what they are, between the sequences put in. -/
example : strip (line .ansi "a\x1b[" ⟨0, "0m", 1002, .warning, ""⟩) =
    "a\x1b[ - warning ML1002: 0m" := by decide +kernel

end Listing
end DefUse.Report
