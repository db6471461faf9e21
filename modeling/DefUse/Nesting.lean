/-!
# Nesting of parentheses

An opening parenthesis counts one and a closing one counts minus one, wherever they stand: there
are no quotes, so a parenthesis inside a string counts as well.

- `depth` is the net count of a text; it may be negative, and it adds up over an append
  (`depth_append`);
- `groupEnd` finds where the group that was just opened is closed.
-/

namespace DefUse.Nesting

/-- What one character adds to the depth. -/
def weight (c : Char) : Int :=
  if c = '(' then 1 else if c = ')' then -1 else 0

/-- Opening minus closing parentheses of `cs`. -/
def depth (cs : List Char) : Int :=
  cs.foldl (fun d c => d + weight c) 0

/-- Reads on behind an opening parenthesis, with `inner` further groups open inside it and `offset`
the position of the next character: the offset just past the parenthesis that closes the group, or
the end of the text if none does. -/
def groupEnd (inner offset : Nat) : List Char → Nat
  | [] => offset
  | c :: cs =>
    if c = '(' then groupEnd (inner + 1) (offset + c.utf8Size) cs
    else if c = ')' then
      match inner with
      | 0 => offset + c.utf8Size
      | inner + 1 => groupEnd inner (offset + c.utf8Size) cs
    else groupEnd inner (offset + c.utf8Size) cs

theorem foldl_weight (d : Int) (cs : List Char) :
    cs.foldl (fun d c => d + weight c) d = d + depth cs := by
  induction cs generalizing d with
  | nil => simp [depth]
  | cons c cs ih =>
    rw [depth, List.foldl_cons, List.foldl_cons, ih, ih (0 + weight c)]
    omega

@[simp] theorem depth_nil : depth [] = 0 := rfl

@[simp] theorem depth_cons (c : Char) (cs : List Char) :
    depth (c :: cs) = weight c + depth cs := by
  rw [depth, List.foldl_cons, foldl_weight, Int.zero_add]

@[simp] theorem depth_append (as bs : List Char) : depth (as ++ bs) = depth as + depth bs := by
  induction as with
  | nil => simp
  | cons a as ih => simp [ih, Int.add_assoc]

end DefUse.Nesting
