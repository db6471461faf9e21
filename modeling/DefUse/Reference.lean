/-!
# References

A reference is a `$` followed by one or more ASCII letters, digits or underscores.  The `$` must
not directly follow such a character: `a$x` holds no reference and `$$x` holds one, `$x`.

There are three ways to look for references, all with byte offsets relative to the whole text:
`scan` finds all of a text, `at?` the one that starts at a given offset, and `scanRange` those that
start in a range of bytes, with names cut off at the end of the range.  All three read a reference
at the head of the remaining characters by `here?`, which is also told the character before them.
-/

namespace DefUse

/-- An occurrence of a variable in a text. -/
structure Reference where
  /-- The name with its `$`. -/
  name : String
  /-- Offset of the `$`. -/
  offset : Nat
deriving DecidableEq

namespace Reference

/-- Offset just past the name. -/
def stop (r : Reference) : Nat := r.offset + r.name.utf8ByteSize

/-- ASCII letters, digits and the underscore. -/
def isIdentifierChar (c : Char) : Bool := c.isAlphanum || c == '_'

/-- The reference at the head of `cs`, which start at `offset`. -/
def leading? (offset : Nat) : List Char → Option Reference
  | [] => none
  | c :: cs =>
    if c = '$' then
      match cs.takeWhile isIdentifierChar with
      | [] => none
      | run => some ⟨String.ofList ('$' :: run), offset⟩
    else none

/-- The reference at the head of `cs`, where `before` is the character in front of them. -/
def here? (before : Option Char) (offset : Nat) (cs : List Char) : Option Reference :=
  if before.any isIdentifierChar then none else leading? offset cs

/-- The reference with its name cut off at `limit`; none if only the `$` is left. -/
def cutAt? (limit : Nat) (r : Reference) : Option Reference :=
  if r.stop ≤ limit then some r
  else if limit ≤ r.offset + 1 then none
  else some ⟨String.ofList (r.name.toList.take (limit - r.offset)), r.offset⟩

/-! ## The whole text -/

def scanFrom (before : Option Char) (offset : Nat) : List Char → List Reference
  | [] => []
  | c :: cs =>
    match here? before offset (c :: cs) with
    | some r => r :: scanFrom (some c) (offset + c.utf8Size) cs
    | none => scanFrom (some c) (offset + c.utf8Size) cs

/-- Every reference of `text`, in order of occurrence, repetitions included. -/
def scan (text : String) : List Reference :=
  scanFrom none 0 text.toList

/-! ## One offset -/

def atFrom? (target : Nat) (before : Option Char) (offset : Nat) : List Char → Option Reference
  | [] => none
  | c :: cs =>
    if offset < target then atFrom? target (some c) (offset + c.utf8Size) cs
    else if offset = target then here? before offset (c :: cs)
    else none

/-- The reference of `text` that starts exactly at `offset`. -/
def at? (text : String) (offset : Nat) : Option Reference :=
  atFrom? offset none 0 text.toList

/-! ## A range of bytes -/

def scanRangeFrom (start stop : Nat) (before : Option Char) (offset : Nat) :
    List Char → List Reference
  | [] => []
  | c :: cs =>
    if stop ≤ offset then []
    else if offset < start then scanRangeFrom start stop (some c) (offset + c.utf8Size) cs
    else
      match (here? before offset (c :: cs)).bind (cutAt? stop) with
      | some r => r :: scanRangeFrom start stop (some c) (offset + c.utf8Size) cs
      | none => scanRangeFrom start stop (some c) (offset + c.utf8Size) cs

/-- The references of `text` that start at `start` or later and before `stop`, each name cut off at
`stop`.  The bounds may lie beyond the text or inside a character, and what stands before `start`
still decides whether a reference can begin there. -/
def scanRange (text : String) (start stop : Nat) : List Reference :=
  scanRangeFrom start stop none 0 text.toList

end Reference

end DefUse
