/-!
# The order of names

Names are ordered by the bytes of their UTF-8 encoding, a name before every longer one that starts
with it.  Between different names this is the strict order of their bytes (`nameBytes_lt`).
-/

namespace DefUse.Text

/-- The bytes of a name. -/
def nameBytes (s : String) : List UInt8 := s.toUTF8.data.toList

/-- Whether the name `a` comes before `b` or is the same. -/
def nameLE (a b : String) : Bool := nameBytes a ≤ nameBytes b

end DefUse.Text
