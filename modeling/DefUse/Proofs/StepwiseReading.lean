import DefUse.Checker
import Mathlib.Data.List.Basic

/-!
# Reading expression by expression

A reader gives out one expression at each call, from the open block and the lines that it has not
seen yet.  What these hold is its `pending` reading:

- a call gives the first pending expression and leaves the others; the remainder stays (`next_spec`);
- so `k` calls give the first `k` expressions, and nothing for each call beyond (`answers_eq`);
- once a call has given nothing, the reader does not change any more (`next_after_of_lt`).

A reader is drained by calls until one gives nothing.  The block that is open then is the remainder,
however many calls were made before (`leftOpen_eq`).  So reading or checking a source call by call
comes to the same as reading it all at once (`readStepwise_eq`, `checkStepwise_eq`).
-/

namespace DefUse

namespace Reader

/-- What a reader has still to give. -/
def pending (r : Reader) : Reading := readFrom r.block r.lines

/-- What the next `k` calls give. -/
def answers (r : Reader) : Nat → List (Option Expression)
  | 0 => []
  | k + 1 => r.next.1 :: r.next.2.answers k

/-- The reader behind the next `k` calls. -/
def after (r : Reader) : Nat → Reader
  | 0 => r
  | k + 1 => r.next.2.after k

/-! ## One call -/

/-- One step gives the first expression that is still to come, and leaves the others. -/
theorem nextFrom_spec (block : Option Block) (lines : List SourceLine) :
    (nextFrom block lines).1 = (readFrom block lines).expressions.head? ∧
      (nextFrom block lines).2.pending =
        ⟨(readFrom block lines).expressions.tail, (readFrom block lines).remainder⟩ := by
  fun_induction nextFrom block lines with
  | case1 block => exact ⟨rfl, rfl⟩
  | case2 block line rest hskip ih => rwa [readFrom_skipped hskip]
  | case3 block line rest hskip b hzero =>
    rw [readFrom_complete hskip hzero]
    exact ⟨rfl, rfl⟩
  | case4 block line rest hskip b hopen ih => rwa [readFrom_open hskip hopen]

/-- A call gives the first pending expression, and the remainder stays what it was. -/
theorem next_spec (r : Reader) :
    r.next.1 = r.pending.expressions.head? ∧
      r.next.2.pending = ⟨r.pending.expressions.tail, r.pending.remainder⟩ :=
  nextFrom_spec r.block r.lines

theorem lines_nextFrom_of_none {block : Option Block} {lines : List SourceLine}
    (h : (nextFrom block lines).1 = none) : (nextFrom block lines).2.lines = [] := by
  fun_induction nextFrom block lines with
  | case1 block => rfl
  | case2 block line rest hskip ih => exact ih h
  | case3 block line rest hskip b hzero => cases h
  | case4 block line rest hskip b hopen ih => exact ih h

/-- Without further lines a call changes nothing, and the open block is kept. -/
theorem next_of_lines_nil {r : Reader} (h : r.lines = []) : r.next = (none, r) := by
  obtain ⟨block, lines⟩ := r
  obtain rfl : lines = [] := h
  rfl

/-! ## Several calls -/

theorem after_succ (r : Reader) (k : Nat) : r.after (k + 1) = (r.after k).next.2 := by
  induction k generalizing r with
  | zero => rfl
  | succ k ih => exact ih r.next.2

/-- After some steps the expressions that remain are those not yet given. -/
theorem pending_after (r : Reader) (k : Nat) :
    (r.after k).pending = ⟨r.pending.expressions.drop k, r.pending.remainder⟩ := by
  induction k with
  | zero => rfl
  | succ k ih => rw [after_succ, (next_spec _).2, ih, List.tail_drop]

/-- The steps give the expressions in order, and then none. -/
theorem answers_eq (r : Reader) (k : Nat) :
    r.answers k = (r.pending.expressions.take k).map some ++
      List.replicate (k - r.pending.expressions.length) none := by
  induction k generalizing r with
  | zero => simp [answers]
  | succ k ih =>
    obtain ⟨hfirst, hrest⟩ := next_spec r
    rw [answers, hfirst, ih, hrest]
    cases r.pending.expressions with
    | nil => simp [List.replicate_succ]
    | cons e es => simp

/-- Beyond the last expression nothing is given and nothing changes. -/
theorem next_after_of_lt {r : Reader} {k : Nat} (h : r.pending.expressions.length < k) :
    (r.after k).next = (none, r.after k) := by
  obtain ⟨j, rfl⟩ := Nat.exists_eq_add_one_of_ne_zero (Nat.ne_zero_of_lt h)
  apply next_of_lines_nil
  rw [after_succ]
  apply lines_nextFrom_of_none
  show (r.after j).next.1 = none
  rw [(next_spec _).1, pending_after, List.drop_of_length_le (by omega)]
  rfl

/-! ## Draining -/

theorem length_pending_lt {r r' : Reader} {e : Expression} (h : r.next = (some e, r')) :
    r'.pending.expressions.length < r.pending.expressions.length := by
  obtain ⟨hfirst, hrest⟩ := next_spec r
  rw [h] at hfirst hrest
  have hpos := List.length_pos_of_mem (List.mem_of_head? hfirst.symm)
  rw [hrest, List.length_tail]
  omega

/-- Calls until one gives nothing: what they have given, and the reader behind them. -/
def drain (r : Reader) : List Expression × Reader :=
  match h : r.next with
  | (none, r') => ([], r')
  | (some e, r') =>
    have := length_pending_lt h
    (e :: r'.drain.1, r'.drain.2)
termination_by r.pending.expressions.length

/-- The block that is open when the reader has been drained. -/
def leftOpen (r : Reader) : Option Remainder := r.drain.2.block.map Block.remainder

section

variable {r r' : Reader} {e : Expression}

theorem drain_of_none (h : r.next = (none, r')) : r.drain = ([], r') := by
  rw [drain]
  split
  · rename_i last hlast
    rw [h] at hlast
    rw [(Prod.mk.inj hlast).2]
  · rename_i hsome
    rw [h] at hsome
    cases hsome

theorem drain_of_some (h : r.next = (some e, r')) : r.drain = (e :: r'.drain.1, r'.drain.2) := by
  rw [drain]
  split
  · rename_i hnone
    rw [h] at hnone
    cases hnone
  · rename_i hsome
    rw [h] at hsome
    obtain ⟨he, rfl⟩ := Prod.mk.inj hsome
    rw [Option.some.inj he]

end

/-- Draining gives all expressions, and ends one step behind the last. -/
theorem drain_eq (r : Reader) :
    r.drain = (r.pending.expressions, r.after (r.pending.expressions.length + 1)) := by
  fun_induction drain r with
  | case1 r r' hnone =>
    obtain ⟨hfirst, -⟩ := next_spec r
    rw [hnone, eq_comm, List.head?_eq_none_iff] at hfirst
    rw [hfirst, List.length_nil, after, after, hnone]
  | case2 r e r' hsome hlt ih =>
    obtain ⟨hfirst, hrest⟩ := next_spec r
    rw [hsome] at hfirst hrest
    have hpending : r.pending.expressions = e :: r'.pending.expressions := by
      rw [hrest, List.cons_head?_tail hfirst.symm]
    have hafter : ∀ k, r.after (k + 1) = r'.after k := by
      intro k
      rw [after, hsome]
    rw [ih, hpending, List.length_cons, hafter]

theorem leftOpen_eq (r : Reader) : r.leftOpen = r.remainder := by
  have hpending := pending_after r (r.pending.expressions.length + 1)
  have hnext := next_after_of_lt (Nat.lt_succ_self r.pending.expressions.length)
  unfold leftOpen
  rw [drain_eq]
  dsimp only
  -- the last call has seen all lines, so what is pending then is the open block alone
  generalize r.after (r.pending.expressions.length + 1) = last at hpending hnext
  have hlines : last.lines = [] := by
    rw [show last = last.next.2 by rw [hnext]]
    exact lines_nextFrom_of_none (congrArg Prod.fst hnext)
  have hopen : last.pending = ⟨[], last.block.map Block.remainder⟩ := by
    rw [pending, hlines]
    rfl
  rw [hopen] at hpending
  exact congrArg Reading.remainder hpending

/-- What is left open does not depend on how far the reader has gone. -/
theorem leftOpen_after (r : Reader) (k : Nat) : (r.after k).leftOpen = r.remainder := by
  rw [leftOpen_eq]
  show (r.after k).pending.remainder = r.pending.remainder
  rw [pending_after]

end Reader

/-! ## Whole sources -/

/-- Reads a source call by call, and asks for the remainder when there is no further expression. -/
def readStepwise (source : String) : Reading :=
  let (expressions, last) := (Reader.ofSource source).drain
  ⟨expressions, last.leftOpen⟩

/-- Checks each further expression of a reader as it is given out. -/
def Checker.checkRest {σ : Type} [Scope σ] (c : Checker σ) (r : Reader) : Checker σ × Reader :=
  match h : r.next with
  | (none, r') => (c, r')
  | (some e, r') =>
    have := Reader.length_pending_lt h
    (c.checkExpression e).checkRest r'
termination_by r.pending.expressions.length

/-- Checks a source call by call, and asks for the remainder when there is no further expression. -/
def checkStepwise (source : String) (options : CheckOptions) : CheckResult :=
  let (c, last) := (Checker.start options FileScope.empty).checkRest (Reader.ofSource source)
  c.finish last.leftOpen

/-- Checking while reading is checking what was read. -/
theorem Checker.checkRest_eq {σ : Type} [Scope σ] (c : Checker σ) (r : Reader) :
    c.checkRest r = (c.checkAll r.drain.1, r.drain.2) := by
  fun_induction checkRest c r with
  | case1 c r r' hnone =>
    rw [Reader.drain_of_none hnone]
    rfl
  | case2 c r e r' hsome hlt ih =>
    rw [ih, Reader.drain_of_some hsome]
    rfl

theorem drain_ofSource (source : String) :
    (Reader.ofSource source).drain.1 = (read source).expressions ∧
      (Reader.ofSource source).drain.2.leftOpen = (read source).remainder := by
  rw [Reader.drain_eq]
  exact ⟨rfl, Reader.leftOpen_after ..⟩

theorem readStepwise_eq (source : String) : readStepwise source = read source := by
  obtain ⟨hexpressions, hremainder⟩ := drain_ofSource source
  unfold readStepwise
  dsimp only
  rw [hexpressions, hremainder]

theorem checkStepwise_eq (source : String) (options : CheckOptions) :
    checkStepwise source options = check source options := by
  obtain ⟨hexpressions, hremainder⟩ := drain_ofSource source
  unfold checkStepwise
  dsimp only
  rw [Checker.checkRest_eq, hexpressions, hremainder]
  rfl

/-- A reader may be drained at any point.  After any number of calls, also beyond the last
expression, the calls have given the expressions of the source in order and then nothing, and the
remainder is that of the source.  A check that takes the expressions as they are given out sees the
same expressions and the same remainder. -/
theorem reader_drained_at_any_point (source : String) (k : Nat) :
    (Reader.ofSource source).answers k =
      ((read source).expressions.take k).map some ++
        List.replicate (k - (read source).expressions.length) none ∧
    ((Reader.ofSource source).after k).remainder = (read source).remainder ∧
    ((Reader.ofSource source).after k).leftOpen = (read source).remainder ∧
    ((read source).expressions.length < k →
      ((Reader.ofSource source).after k).next = (none, (Reader.ofSource source).after k)) ∧
    readStepwise source = read source ∧
    (∀ {σ : Type} [Scope σ] (c : Checker σ),
      (c.checkRest (Reader.ofSource source)).1 = c.checkAll (read source).expressions ∧
        (c.checkRest (Reader.ofSource source)).2.leftOpen = (read source).remainder) ∧
    ∀ options, checkStepwise source options = check source options := by
  have hleft := Reader.leftOpen_after (Reader.ofSource source) k
  refine ⟨Reader.answers_eq .., (Reader.leftOpen_eq _).symm.trans hleft, hleft,
    fun hlt => Reader.next_after_of_lt hlt, readStepwise_eq source, fun c => ?_,
    checkStepwise_eq source⟩
  obtain ⟨hexpressions, hremainder⟩ := drain_ofSource source
  rw [Checker.checkRest_eq, hexpressions, hremainder]
  exact ⟨rfl, rfl⟩

theorem reader_drained_at_any_point_sample :
    (read "(a)\n(b").expressions.length < 3 ∧
    (Reader.ofSource "(a)\n(b").answers 3 = [some ⟨1, 1, "(a)\n"⟩, none, none] ∧
    ((Reader.ofSource "(a)\n(b").after 3).next = (none, (Reader.ofSource "(a)\n(b").after 3) ∧
    ((Reader.ofSource "(a)\n(b").after 3).leftOpen = some ⟨2, "(b\n", 1⟩ := by
  have hlt : (read "(a)\n(b").expressions.length < 3 := by decide
  obtain ⟨hanswers, -, hleft, hnext, -⟩ := reader_drained_at_any_point "(a)\n(b" 3
  refine ⟨hlt, ?_, hnext hlt, ?_⟩
  · rw [hanswers]
    decide
  · rw [hleft]
    decide

end DefUse
