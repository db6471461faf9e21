import DefUse.Text.Blank
import DefUse.Text.Offset

/-!
# Leading forms

Four keywords at the head of an expression bind variables.  An expression has a form if it opens
with a parenthesis, at most one space, and a keyword that ends there: a blank, a parenthesis or
the end of the text follows it.
-/

namespace DefUse

/-- A leading form. -/
inductive Form where
  /-- A rule `(= (head …) body …)`. -/
  | rule
  /-- A single binding `(let $x value body …)`. -/
  | letOne
  /-- A list of bindings `(let* (($x value) …) body …)`. -/
  | letStar
  /-- A pattern match `(match target pattern body …)`. -/
  | matching
deriving DecidableEq

namespace Form

/-- The keyword of the form. -/
def keyword : Form → String
  | rule => "="
  | letOne => "let"
  | letStar => "let*"
  | matching => "match"

/-- Whether a binding of this form introduces its name.  The heads in a `match` define names, and
are uses of them at the same time. -/
def introduces : Form → Bool
  | matching => false
  | _ => true

/-- The forms, in the order in which their keywords are tried. -/
def all : List Form := [letStar, letOne, matching, rule]

/-- Whether a keyword that stands before `cs` ends there. -/
def endsKeyword : List Char → Bool
  | [] => true
  | c :: _ => Text.isBlank c || c = '(' || c = ')'

/-- Whether `cs` start with the keyword of the form. -/
def opens (form : Form) (cs : List Char) : Bool :=
  form.keyword.toList.isPrefixOf cs && endsKeyword (cs.drop form.keyword.length)

/-- The form whose keyword starts `cs`, which start at `offset`, and the offset just past it. -/
def leading? (offset : Nat) (cs : List Char) : Option (Form × Nat) :=
  (all.find? (opens · cs)).map fun form => (form, offset + form.keyword.length)

/-- The form of an expression and the offset just past its keyword.  White characters may stand in
front of the expression. -/
def classify (text : String) : Option (Form × Nat) :=
  let cs := text.toList
  let indent := Text.byteLength (cs.takeWhile Text.isWhite)
  match cs.dropWhile Text.isWhite with
  | '(' :: ' ' :: body => leading? (indent + 2) body
  | '(' :: body => leading? (indent + 1) body
  | _ => none

end Form

end DefUse
