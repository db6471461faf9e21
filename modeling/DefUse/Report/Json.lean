import DefUse.Diagnostic

/-!
# Records as JSON

The records of a run are written as a JSON array, indented by two spaces.  A record has the fields
line, message, code, severity and, when it names a file, file, in this order.  In strings the
quotation mark, the backslash and the characters below U+0020 are escaped and nothing else is.
-/

namespace DefUse.Report.Json

/-- The hexadecimal digit for `n < 16`, in lower case. -/
def hexDigit (n : Nat) : Char :=
  if n < 10 then Char.ofNat (n + 48) else Char.ofNat (n + 87)

/-- A character as it stands inside a string. -/
def escape (c : Char) : List Char :=
  if c = '"' then ['\\', '"']
  else if c = '\\' then ['\\', '\\']
  else if c = '\x08' then ['\\', 'b']
  else if c = '\x0c' then ['\\', 'f']
  else if c = '\n' then ['\\', 'n']
  else if c = '\r' then ['\\', 'r']
  else if c = '\t' then ['\\', 't']
  else if c.toNat < 0x20 then
    ['\\', 'u', '0', '0', hexDigit (c.toNat / 16), hexDigit (c.toNat % 16)]
  else [c]

/-- A text as a JSON string. -/
def quote (s : String) : String :=
  String.ofList ('"' :: s.toList.flatMap escape ++ ['"'])

/-- The fields of a record with their values. -/
def fields (d : Diagnostic) : List (String × String) :=
  [("line", Text.Decimal.ofNat d.line), ("message", quote d.message),
    ("code", Text.Decimal.ofNat d.code), ("severity", quote d.severity.label)] ++
  if d.file = "" then [] else [("file", quote d.file)]

/-- One field on a line of its own. -/
def member (field : String × String) : String :=
  "    " ++ quote field.1 ++ ": " ++ field.2

/-- One record. -/
def record (d : Diagnostic) : String :=
  "  \x7b\n" ++ ",\n".intercalate ((fields d).map member) ++ "\n  \x7d"

/-- The records as a JSON array. -/
def render (ds : List Diagnostic) : String :=
  if ds.isEmpty then "[]"
  else "[\n" ++ ",\n".intercalate (ds.map record) ++ "\n]"

end DefUse.Report.Json
