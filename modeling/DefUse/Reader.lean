import DefUse.Expression
import DefUse.Nesting

/-!
# Reading expressions

Lines are gathered into a block, and the block is complete as soon as its net depth is zero after
a line.  So a line without parentheses is an expression of its own, and a block whose depth goes
negative stays open until later lines balance it.

`read` takes a whole source at once.  A `Reader` gives out one expression at a time, and can be
asked at any moment for what will be left at the end.
-/

namespace DefUse

/-- The lines gathered so far for the next expression. -/
structure Block where
  startLine : Nat
  text : String
  depth : Int
deriving DecidableEq

namespace Block

/-- The block with one more line, which opens it if there is none yet. -/
def extend (block : Option Block) (line : SourceLine) : Block :=
  match block with
  | none => ⟨line.number, line.text ++ "\n", Nesting.depth line.text.toList⟩
  | some b => ⟨b.startLine, b.text ++ line.text ++ "\n", b.depth + Nesting.depth line.text.toList⟩

/-- The expression that a block makes when `line` is its last line. -/
def close (b : Block) (line : SourceLine) : Expression :=
  ⟨b.startLine, line.number, b.text⟩

/-- The block as what is left over. -/
def remainder (b : Block) : Remainder :=
  ⟨b.startLine, b.text, b.depth⟩

end Block

/-! ## All at once -/

/-- The expressions of a source and what is left open at its end. -/
structure Reading where
  expressions : List Expression
  remainder : Option Remainder
deriving DecidableEq

/-- Reads the given lines, with `block` gathered before them. -/
def readFrom (block : Option Block) : List SourceLine → Reading
  | [] => ⟨[], block.map Block.remainder⟩
  | line :: rest =>
    if line.isSkipped then readFrom block rest
    else
      let b := Block.extend block line
      if b.depth = 0 then
        let tail := readFrom none rest
        ⟨b.close line :: tail.expressions, tail.remainder⟩
      else readFrom (some b) rest

/-- Reads a whole source. -/
def read (source : String) : Reading :=
  readFrom none (SourceLine.ofSource source)

section

variable {block : Option Block} {line : SourceLine}

/-! The three things that can happen to a line. -/

theorem readFrom_skipped (h : line.isSkipped = true) (rest : List SourceLine) :
    readFrom block (line :: rest) = readFrom block rest := by
  rw [readFrom, if_pos h]

theorem readFrom_complete (h : ¬ line.isSkipped = true) (hdepth : (Block.extend block line).depth = 0)
    (rest : List SourceLine) :
    readFrom block (line :: rest) =
      ⟨(Block.extend block line).close line :: (readFrom none rest).expressions,
        (readFrom none rest).remainder⟩ := by
  rw [readFrom, if_neg h]
  exact if_pos hdepth

theorem readFrom_open (h : ¬ line.isSkipped = true) (hdepth : ¬ (Block.extend block line).depth = 0)
    (rest : List SourceLine) :
    readFrom block (line :: rest) = readFrom (some (Block.extend block line)) rest := by
  rw [readFrom, if_neg h]
  exact if_neg hdepth

end

/-! ## One by one -/

/-- A source of which some expressions have been given out. -/
structure Reader where
  block : Option Block
  lines : List SourceLine
deriving DecidableEq

namespace Reader

/-- A reader at the start of a source. -/
def ofSource (source : String) : Reader :=
  ⟨none, SourceLine.ofSource source⟩

def nextFrom (block : Option Block) : List SourceLine → Option Expression × Reader
  | [] => (none, ⟨block, []⟩)
  | line :: rest =>
    if line.isSkipped then nextFrom block rest
    else
      let b := Block.extend block line
      if b.depth = 0 then (some (b.close line), ⟨none, rest⟩) else nextFrom (some b) rest

/-- The next expression, if there is one, and the reader behind it. -/
def next (r : Reader) : Option Expression × Reader :=
  nextFrom r.block r.lines

/-- What is left open when all further expressions are passed over. -/
def remainder (r : Reader) : Option Remainder :=
  (readFrom r.block r.lines).remainder

end Reader

end DefUse
