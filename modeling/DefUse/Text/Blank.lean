/-!
# White and blank characters

Two classes of spacing are told apart.  `isWhite` is the Unicode property White_Space: it decides
which lines are empty and what may stand before an expression.  `isBlank` holds the five ASCII
characters that separate the parts of an expression; the vertical tab is white but not blank.

- every blank is white (`isWhite_of_isBlank`);
- every blank takes one byte (`utf8Size_of_isBlank`).
-/

namespace DefUse.Text

/-- Unicode White_Space. -/
def isWhite (c : Char) : Bool :=
  let n := c.toNat
  (0x09 ≤ n && n ≤ 0x0d) || n == 0x20 || n == 0x85 || n == 0xa0 || n == 0x1680 ||
    (0x2000 ≤ n && n ≤ 0x200a) || n == 0x2028 || n == 0x2029 || n == 0x202f || n == 0x205f ||
    n == 0x3000

/-- Space, tab, line feed, form feed and carriage return. -/
def isBlank (c : Char) : Bool :=
  c == ' ' || c == '\t' || c == '\n' || c == '\x0c' || c == '\r'

theorem isBlank_iff {c : Char} :
    isBlank c = true ↔ c = ' ' ∨ c = '\t' ∨ c = '\n' ∨ c = '\x0c' ∨ c = '\r' := by
  simp [isBlank, or_assoc]

theorem isWhite_of_isBlank {c : Char} (h : isBlank c = true) : isWhite c = true := by
  rcases isBlank_iff.1 h with rfl | rfl | rfl | rfl | rfl <;> decide

theorem utf8Size_of_isBlank {c : Char} (h : isBlank c = true) : c.utf8Size = 1 := by
  rcases isBlank_iff.1 h with rfl | rfl | rfl | rfl | rfl <;> decide

end DefUse.Text
