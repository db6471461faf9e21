import DefUse.Text.Letter

/-!
# Choices of the command line

The format of the report and the choice of colours, with the names by which they are given.
-/

namespace DefUse.CommandLine

/-- How the report is written. -/
inductive OutputFormat where
  | json
  | text
deriving DecidableEq

/-- When a text report is coloured. -/
inductive ColorChoice where
  | auto
  | always
  | never
deriving DecidableEq

/-- The choice among `options` that goes by the name `given`. -/
def choose? {α : Type} (ignoreCase : Bool) (name : α → String) (options : List α)
    (given : String) : Option α :=
  options.find? fun a =>
    if ignoreCase then Text.equalIgnoringCase (name a) given else name a == given

namespace OutputFormat

def name : OutputFormat → String
  | json => "json"
  | text => "text"

def all : List OutputFormat := [json, text]

/-- Formats are named in any case. -/
def ofName? (given : String) : Option OutputFormat :=
  choose? true name all given

end OutputFormat

namespace ColorChoice

def name : ColorChoice → String
  | auto => "auto"
  | always => "always"
  | never => "never"

def all : List ColorChoice := [auto, always, never]

/-- The choice with the given name, in any case if `ignoreCase`. -/
def ofName? (ignoreCase : Bool) (given : String) : Option ColorChoice :=
  choose? ignoreCase name all given

/-- Whether colours are wanted on a stream that is a terminal or not. -/
def enabled (c : ColorChoice) (terminal : Bool) : Bool :=
  match c with
  | auto => terminal
  | always => true
  | never => false

end ColorChoice

end DefUse.CommandLine
