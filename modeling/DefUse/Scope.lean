/-!
# Scopes

A scope remembers which names have been defined, with the line of their first definition, and
which names have been used.  The checker asks a scope only through the class `Scope`.

`FileScope` covers a whole file: a name stays visible from its definition to the end of the file,
without nesting or shadowing.  `Forgetful` takes everything in and remembers nothing, so to it
every name is undefined.
-/

namespace DefUse

/-- A defined name and the line of its first definition. -/
structure Definition where
  name : String
  line : Nat
deriving DecidableEq

/-- What the checker needs of a scope. -/
class Scope (σ : Type) where
  /-- Defines a name; a name that is defined already keeps its line. -/
  define : σ → String → Nat → σ
  isDefined : σ → String → Bool
  /-- Notes that a name is used, whether it is defined or not. -/
  recordUse : σ → String → σ
  /-- The defined names that were never used, in the order of their definitions. -/
  unused : σ → List Definition
  definitionCount : σ → Nat

/-! ## One scope for a file -/

/-- The definitions of a file in order, and the names used in it. -/
structure FileScope where
  definitions : List Definition
  uses : List String
deriving DecidableEq

namespace FileScope

def empty : FileScope := ⟨[], []⟩

def isDefined (s : FileScope) (name : String) : Bool :=
  s.definitions.any (·.name == name)

def isUsed (s : FileScope) (name : String) : Bool :=
  s.uses.contains name

/-- The line of the first definition of a name. -/
def definitionLine? (s : FileScope) (name : String) : Option Nat :=
  (s.definitions.find? (·.name == name)).map (·.line)

def define (s : FileScope) (name : String) (line : Nat) : FileScope :=
  if s.isDefined name then s else { s with definitions := s.definitions ++ [⟨name, line⟩] }

def recordUse (s : FileScope) (name : String) : FileScope :=
  { s with uses := s.uses.insert name }

def unused (s : FileScope) : List Definition :=
  s.definitions.filter fun d => !s.isUsed d.name

def definitionCount (s : FileScope) : Nat := s.definitions.length

instance : Scope FileScope where
  define := define
  isDefined := isDefined
  recordUse := recordUse
  unused := unused
  definitionCount := definitionCount

end FileScope

/-! ## No memory -/

/-- The scope that remembers nothing. -/
inductive Forgetful where
  | blank

instance : Scope Forgetful where
  define s _ _ := s
  isDefined _ _ := false
  recordUse s _ := s
  unused _ := []
  definitionCount _ := 0

end DefUse
