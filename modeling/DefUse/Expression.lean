import DefUse.Text.Blank
import DefUse.Text.Line

/-!
# Source lines and expressions

A source is read line by line.  Empty lines and lines whose first character that is not white is a
`;` are skipped wherever they stand.  What is read is made of the other lines, each followed by a
line feed: complete expressions, and a remainder if the source ends inside one.
-/

namespace DefUse

/-- Line numbers are 32 bit wide; lines beyond the last number share it. -/
def maxLineNumber : Nat := 4294967295

/-- A line of a source with its number, counted from one. -/
structure SourceLine where
  number : Nat
  text : String
deriving DecidableEq

/-- A complete top-level expression. -/
structure Expression where
  /-- Number of its first line. -/
  startLine : Nat
  /-- Number of its last line. -/
  endLine : Nat
  /-- Its lines, each followed by a line feed. -/
  text : String
deriving DecidableEq

/-- What is left open at the end of a source. -/
structure Remainder where
  startLine : Nat
  text : String
  /-- Net depth of `text`. -/
  depth : Int
deriving DecidableEq

namespace SourceLine

/-- The numbered lines of a source. -/
def ofSource (source : String) : List SourceLine :=
  ((Text.lines source).zipIdx 1).map fun (text, n) => ⟨min n maxLineNumber, text⟩

/-- Empty and comment lines. -/
def isSkipped (line : SourceLine) : Bool :=
  match line.text.toList.dropWhile Text.isWhite with
  | [] => true
  | c :: _ => c = ';'

end SourceLine

end DefUse
