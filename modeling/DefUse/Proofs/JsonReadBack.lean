import DefUse.Proofs.JsonValues
import Mathlib.Data.List.Forall2
import Mathlib.Data.List.TakeWhile
import Mathlib.Logic.Function.Defs

/-!
# Records read back from JSON

A record is a JSON object whose fields are looked up by name; a file that is not given is the empty
name.  `Cut cs ts` says that the characters `cs` are cut into the tokens `ts`, whatever follows them,
unless it would make a word longer.  Numbers, strings, records and whole reports are cut into the tokens
of the values they are written for (`cut_record`, `cut_render`), and a value is read back from its
tokens, so the records of a report come back from its text:

    decode? (render ds)  =  some ds
-/

namespace DefUse.Report.Json

open DefUse.Text

/-! ## Reading records -/

namespace Value

/-- A natural number, if the value is one. -/
def natural? : Value → Option Nat
  | number n => if n.chars.all Char.isDigit then some (Decimal.value n.chars) else none
  | _ => none

def text? : Value → Option String
  | text s => some s
  | _ => none

def severity? (v : Value) : Option Severity :=
  v.text?.bind fun label => [.warning, .error].find? fun severity => severity.label == label

/-- The file that is named, or the empty name. -/
def file? (members : List (String × Value)) : Option String :=
  match members.lookup "file" with
  | none => some ""
  | some v => v.text?

/-- The record that a value holds. -/
def diagnostic? : Value → Option Diagnostic
  | object members => do
    let line ← (members.lookup "line").bind natural?
    let message ← (members.lookup "message").bind text?
    let code ← (members.lookup "code").bind natural?
    let severity ← (members.lookup "severity").bind severity?
    let file ← file? members
    some ⟨line, message, code, severity, file⟩
  | _ => none

end Value

/-- The records of a JSON array. -/
def decode? (text : String) : Option (List Diagnostic) :=
  match parse? text with
  | some (.array items) => items.mapM Value.diagnostic?
  | _ => none

/-! ## The values that are written -/

theorem isNumeral_digits (n : Nat) : isNumeral (Decimal.digits n) = true := by
  have hall : ∀ c ∈ Decimal.digits n, c.isDigit = true := fun c hc => Decimal.isDigit_of_mem_digits hc
  have hwhole : isWhole (Decimal.digits n) = true := by
    rcases Nat.eq_zero_or_pos n with rfl | hpos
    · rw [Decimal.digits]
      rfl
    · have hhead := Decimal.head?_digits hpos
      cases hdigits : Decimal.digits n with
      | nil => exact absurd hdigits (Decimal.digits_ne_nil n)
      | cons d ds =>
        rw [hdigits] at hhead
        have hd : d ≠ '0' := fun hd => hhead (congrArg some hd)
        simp [isWhole, hd]
  have hsign : dropSign (Decimal.digits n) = Decimal.digits n := by
    unfold dropSign
    split
    · next hdigits =>
      have hminus := hall '-' (hdigits ▸ List.mem_cons_self)
      cases hminus
    · rfl
  unfold isNumeral
  rw [hsign, List.takeWhile_eq_self_iff.2 hall, List.dropWhile_eq_nil_iff.2 hall, hwhole]
  rfl

/-- A natural number as a value. -/
def Value.natural (n : Nat) : Value := .number ⟨Decimal.digits n, isNumeral_digits n⟩

/-- The members of a record. -/
def members (d : Diagnostic) : List (String × Value) :=
  [("line", .natural d.line), ("message", .text d.message), ("code", .natural d.code),
    ("severity", .text d.severity.label)] ++ if d.file = "" then [] else [("file", .text d.file)]

theorem natural?_natural (n : Nat) : (Value.natural n).natural? = some n := by
  have hall : (Decimal.digits n).all Char.isDigit = true :=
    List.all_eq_true.2 fun c hc => Decimal.isDigit_of_mem_digits hc
  show (if (Decimal.digits n).all Char.isDigit = true then some _ else none) = _
  rw [if_pos hall, Decimal.value_digits]

theorem severity?_label (severity : Severity) :
    (Value.text severity.label).severity? = some severity := by
  cases severity <;> rfl

theorem file?_members (d : Diagnostic) : Value.file? (members d) = some d.file := by
  unfold members
  by_cases hfile : d.file = ""
  · rw [if_pos hfile, hfile]
    rfl
  · rw [if_neg hfile]
    rfl

theorem diagnostic?_members (d : Diagnostic) : (Value.object (members d)).diagnostic? = some d := by
  show (Value.natural d.line).natural?.bind (fun line => _) = _
  rw [natural?_natural, Option.bind_some]
  show (Value.natural d.code).natural?.bind (fun code => _) = _
  rw [natural?_natural, Option.bind_some]
  show (Value.text d.severity.label).severity?.bind (fun severity => _) = _
  rw [severity?_label, Option.bind_some]
  show (Value.file? (members d)).bind (fun file => _) = _
  rw [file?_members, Option.bind_some]

/-! ## Characters and tokens -/

/-- The characters are cut into the tokens, whatever follows, unless a word goes on in it. -/
def Cut (cs : List Char) (ts : List Token) : Prop :=
  ∀ rest us, Delimited rest → tokens? rest = some us → tokens? (cs ++ rest) = some (ts ++ us)

theorem isWordChar_digit : ∀ {d : Nat}, d < 10 → isWordChar (Decimal.digit d) = true := by
  decide

theorem cut_natural (n : Nat) : Cut (Decimal.ofNat n).toList (Value.natural n).tokens := by
  intro rest us hrest hus
  have hword : ∀ c ∈ Decimal.digits n, isWordChar c = true := by
    intro c hc
    obtain ⟨d, hd, rfl⟩ := Decimal.exists_digit_of_mem_digits hc
    exact isWordChar_digit hd
  rw [Decimal.ofNat, String.toList_ofList, Value.natural, Value.tokens]
  exact tokens?_word (Decimal.digits_ne_nil n) hword hrest hus

theorem cut_text (s : String) : Cut (quote s).toList (Value.text s).tokens := by
  intro rest us _ hus
  rw [Value.tokens]
  exact tokens?_quote s hus

theorem delimited_layout {layout : List Char} (h : layout.all isLayout = true) (hne : layout ≠ [])
    (cs : List Char) : Delimited (layout ++ cs) := by
  obtain ⟨c, layout, rfl⟩ := List.exists_cons_of_ne_nil hne
  rw [List.all_cons, Bool.and_eq_true] at h
  rintro _ ⟨⟩
  rw [isWordChar, h.1]
  rfl

/-- Pieces with commas between them and a mark behind them. -/
theorem cut_joined {pieces : List (List Char)} {tss : List (List Token)}
    (h : List.Forall₂ Cut pieces tss) (close : List Char) (mark : Token)
    (hlayout : close.all isLayout = true) (hmark : close.filterMap mark? = [mark]) :
    Cut (",\n".toList.intercalate pieces ++ close) ([.comma].intercalate tss ++ [mark]) := by
  intro rest us _ hus
  have hne : close ≠ [] := by rintro rfl; cases hmark
  have hclose := tokens?_layout [mark] hlayout hmark hus
  rw [List.append_assoc, List.append_assoc]
  induction h with
  | nil => exact hclose
  | @cons piece ts pieces tss hpiece hmore ih =>
    cases hmore with
    | nil =>
      rw [List.intercalate_singleton, List.intercalate_singleton]
      exact hpiece _ _ (delimited_layout hlayout hne _) hclose
    | cons =>
      rw [List.intercalate_cons_cons, List.intercalate_cons_cons]
      simp only [List.append_assoc]
      exact hpiece _ _ (delimited_layout (by decide) (by decide) _)
        (tokens?_layout [.comma] (by decide) (by decide) ih)

/-! ## The written report -/

/-- A member is cut into its key, a colon and the tokens of its value. -/
theorem cut_member {key text : String} {v : Value} (h : Cut text.toList v.tokens) :
    Cut (member (key, text)).toList (Value.memberTokens (key, v)) := by
  intro rest us hrest hus
  have hvalue := h rest us hrest hus
  unfold member
  simp only [String.toList_append, List.append_assoc]
  exact tokens?_layout [] (by decide) (by decide) <| tokens?_quote key <|
    tokens?_layout [.colon] (by decide) (by decide) hvalue

theorem cut_fields (d : Diagnostic) :
    List.Forall₂ (fun field m => Cut (member field).toList (Value.memberTokens m)) (fields d)
      (members d) := by
  unfold fields members
  refine List.rel_append ?_ ?_
  · exact .cons (cut_member (cut_natural _)) <| .cons (cut_member (cut_text _)) <|
      .cons (cut_member (cut_natural _)) <| .cons (cut_member (cut_text _)) .nil
  · split
    · exact .nil
    · exact .cons (cut_member (cut_text _)) .nil

/-- A record is cut into the tokens of its object. -/
theorem cut_record (d : Diagnostic) : Cut (record d).toList (Value.object (members d)).tokens := by
  intro rest us hrest hus
  have hfields : List.Forall₂ Cut (((fields d).map member).map String.toList)
      ((members d).map Value.memberTokens) := by
    rw [List.map_map]
    exact List.forall₂_map_left_iff.2 (List.forall₂_map_right_iff.2 (cut_fields d))
  have hlines := cut_joined hfields "\n  \x7d".toList .closeObject (by decide) (by decide) rest us
    hrest hus
  unfold record
  rw [String.toList_append, String.toList_append, String.toList_intercalate, Value.tokens_object,
    List.append_assoc, List.append_assoc, List.cons_append]
  rw [List.append_assoc] at hlines
  exact tokens?_layout [.openObject] (by decide) (by decide) hlines

/-- A report is cut into the tokens of an array of records. -/
theorem cut_render (ds : List Diagnostic) :
    Cut (render ds).toList (Value.array (ds.map fun d => .object (members d))).tokens := by
  intro rest us hrest hus
  rw [Value.tokens_array, List.cons_append]
  unfold render
  split
  · next hempty =>
    rw [List.isEmpty_iff.1 hempty]
    exact tokens?_layout [.openArray, .closeArray] (by decide) (by decide) hus
  · have hrecords : List.Forall₂ Cut ((ds.map record).map String.toList)
        ((ds.map fun d => Value.object (members d)).map Value.tokens) := by
      rw [List.map_map, List.map_map]
      exact List.forall₂_map_left_iff.2 (List.forall₂_map_right_iff.2
        (List.forall₂_same.2 fun d _ => cut_record d))
    have hlines := cut_joined hrecords "\n]".toList .closeArray (by decide) (by decide) rest us
      hrest hus
    rw [List.append_assoc] at hlines
    rw [String.toList_append, String.toList_append, String.toList_intercalate, List.append_assoc,
      List.append_assoc]
    exact tokens?_layout [.openArray] (by decide) (by decide) hlines

/-- A report is parsed into the array of its records. -/
theorem parse?_render (ds : List Diagnostic) :
    parse? (render ds) = some (.array (ds.map fun d => .object (members d))) := by
  have hnil : Delimited [] := fun _ h => by cases h
  have hcut := cut_render ds [] [] hnil tokens?_nil
  rw [List.append_nil, List.append_nil] at hcut
  rw [parse?, hcut, Option.bind_some, Value.ofTokens?_tokens]

/-- The records of a report come back from its JSON text as they were, so no two lists of records are
written alike. -/
theorem json_loses_nothing :
    (∀ ds : List Diagnostic, decode? (render ds) = some ds) ∧ Function.Injective render := by
  have hdecode : ∀ ds : List Diagnostic, decode? (render ds) = some ds := by
    intro ds
    rw [decode?, parse?_render]
    show (ds.map fun d => Value.object (members d)).mapM Value.diagnostic? = some ds
    induction ds with
    | nil => rfl
    | cons d ds ih => rw [List.map_cons, List.mapM_cons, diagnostic?_members, ih]; rfl
  refine ⟨hdecode, fun ds es h => ?_⟩
  have hds := hdecode ds
  rw [h, hdecode es] at hds
  exact (Option.some.inj hds).symm

/-- The order of fields, the space between tokens and the way of escaping are left open to the writer. -/
example : decode? "[\x7b\"severity\":\"error\" ,\"code\":7,\n\"message\":\"\\u00e9\\/\",\"line\":0\x7d]" =
    some [⟨0, "\u00e9/", 7, .error, ""⟩] := by decide +kernel

end DefUse.Report.Json
