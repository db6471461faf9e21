import DefUse.Text.Replace

/-!
# Colours

A piece of text is painted by putting the sequence of its style in front of it and the reset
sequence behind it.  A reset sequence inside the text would end the style too early, so the style
is set again after each.
-/

namespace DefUse.Report

/-- Whether pieces are painted. -/
inductive Palette where
  | plain
  | ansi
deriving DecidableEq

/-- A style, given by its display codes. -/
structure Style where
  codes : String
deriving DecidableEq

namespace Style

/-- The sequence that sets the style. -/
def sequence (s : Style) : List Char :=
  ['\x1b', '['] ++ s.codes.toList ++ ['m']

def cyan : Style := ⟨"36"⟩
def boldRed : Style := ⟨"1;31"⟩
def boldYellow : Style := ⟨"1;33"⟩
def brightBlack : Style := ⟨"90"⟩
def bold : Style := ⟨"1"⟩

end Style

namespace Palette

/-- Colours show only when they are asked for and the terminal takes them. -/
def choose (color terminal : Bool) : Palette :=
  if color && terminal then ansi else plain

/-- The sequence that ends a style. -/
def reset : List Char := ['\x1b', '[', '0', 'm']

/-- The text between the sequence of its style and the reset. -/
def paintChars (s : Style) (text : List Char) : List Char :=
  s.sequence ++ Text.replace '\x1b' ['[', '0', 'm'] (reset ++ s.sequence) text ++ reset

/-- A piece of text in a style. -/
def paint (p : Palette) (s : Style) (text : String) : String :=
  match p with
  | plain => text
  | ansi => String.ofList (paintChars s text.toList)

end Palette

end DefUse.Report
