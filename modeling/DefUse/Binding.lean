import DefUse.Form
import DefUse.Nesting
import DefUse.Reference

/-!
# Bindings of an expression

The rules are textual: there is no tree, only the offsets at which references stand.  With `p` the
first position behind the keyword that is not blank,

- a rule binds every reference in the group that opens at `p`;
- a `let` binds the reference at `p`;
- a `let*` binds the head of every group inside the group that opens at `p`;
- a `match` binds the head of every group of the expression, the pattern or not.

The head of a group is the reference that comes first in it.  Every binding is a reference of the
text at its offset, so binding occurrences can be told apart from uses by their offsets.
-/

namespace DefUse

/-- A reference that binds its name. -/
structure Binding where
  reference : Reference
  /-- The form whose rule makes it a binding. -/
  form : Form
deriving DecidableEq

/-- The bindings of an expression, ordered by offset. -/
structure Bindings where
  form : Option Form
  sites : List Binding
deriving DecidableEq

namespace Binding

def name (b : Binding) : String := b.reference.name

def offset (b : Binding) : Nat := b.reference.offset

/-- The reference at the head of the group whose inside `cs` start at `offset`, if it ends at
`limit` or before. -/
def head? (limit offset : Nat) (cs : List Char) : Option Reference :=
  let first := offset + (cs.takeWhile Text.isBlank).length
  if limit ≤ first then none
  else (Reference.leading? first (cs.dropWhile Text.isBlank)).filter (·.stop ≤ limit)

/-- The heads of the groups that open in `cs` before `limit`, where `cs` start at `offset`. -/
def heads (limit offset : Nat) : List Char → List Reference
  | [] => []
  | c :: cs =>
    if limit ≤ offset then []
    else
      match if c = '(' then head? limit (offset + c.utf8Size) cs else none with
      | some r => r :: heads limit (offset + c.utf8Size) cs
      | none => heads limit (offset + c.utf8Size) cs

/-- The references of `text` that its form binds, where the keyword ends at `keywordEnd`. -/
def boundBy (form : Form) (text : String) (keywordEnd : Nat) : List Reference :=
  let behind := Text.dropBytes keywordEnd text.toList
  let first := keywordEnd + (behind.takeWhile Text.isBlank).length
  match form, behind.dropWhile Text.isBlank with
  | .rule, '(' :: inside =>
    Reference.scanRange text first (Nesting.groupEnd 0 (first + 1) inside)
  | .letOne, _ => (Reference.at? text first).toList
  | .letStar, '(' :: inside => heads (Nesting.groupEnd 0 (first + 1) inside) (first + 1) inside
  | .matching, _ => heads text.utf8ByteSize 0 text.toList
  | _, _ => []

end Binding

namespace Bindings

/-- Adds a binding unless there is one at its offset already. -/
def push (found : List Binding) (b : Binding) : List Binding :=
  if found.any (·.offset == b.offset) then found else found ++ [b]

/-- Puts a binding behind those that do not start after it. -/
def place (sorted : List Binding) (b : Binding) : List Binding :=
  match sorted with
  | [] => [b]
  | d :: rest => if b.offset < d.offset then b :: d :: rest else d :: place rest b

/-- The bindings in the order of their offsets, one for each offset. -/
def arrange (bs : List Binding) : List Binding :=
  (bs.foldl push []).foldl place []

/-- The bindings of an expression. -/
def ofText (text : String) : Bindings :=
  match Form.classify text with
  | none => ⟨none, []⟩
  | some (form, keywordEnd) =>
    ⟨some form, arrange ((Binding.boundBy form text keywordEnd).map fun r => ⟨r, form⟩)⟩

/-- Whether the reference at `offset` binds its name. -/
def isBindingSite (b : Bindings) (offset : Nat) : Bool :=
  b.sites.any (·.offset == offset)

/-- Whether the reference at `offset` introduces its name, and so is no use of it.  Only the first
introducing binding of a name does: in `(= (eq $x $x) T)` the second `$x` uses the first. -/
def isIntroductionSite (b : Bindings) (offset : Nat) : Bool :=
  match b.sites.find? (·.offset == offset) with
  | none => false
  | some site =>
    site.form.introduces &&
      (b.sites.find? fun s => s.form.introduces && s.name == site.name).any (·.offset == offset)

end Bindings

end DefUse
