/-!
# Letter case

Names of choices, file extensions and log formats are compared without regard to the case of ASCII
letters; other characters must be the same.
-/

namespace DefUse.Text

/-- The characters of `s` with ASCII capitals made small. -/
def lowered (s : String) : List Char := s.toList.map Char.toLower

/-- Equality up to the case of ASCII letters. -/
def equalIgnoringCase (a b : String) : Bool := lowered a == lowered b

end DefUse.Text
