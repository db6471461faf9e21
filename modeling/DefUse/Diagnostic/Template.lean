import DefUse.Text.Decimal
import DefUse.Text.Replace

/-!
# Message templates

A template holds numbered places in braces, the number in decimal.  The arguments are filled in
one after another over the whole text so far, so what one argument brings in is open to the
arguments after it.
-/

namespace DefUse.Template

/-- Fills in the arguments for the places from `i` on. -/
def fillFrom (i : Nat) : List String → List Char → List Char
  | [], text => text
  | arg :: args, text =>
    fillFrom (i + 1) args (Text.replace '\x7b' (Text.Decimal.digits i ++ ['\x7d']) arg.toList text)

/-- The template with its arguments filled in. -/
def fill (template : String) (args : List String) : String :=
  String.ofList (fillFrom 0 args template.toList)

end DefUse.Template
