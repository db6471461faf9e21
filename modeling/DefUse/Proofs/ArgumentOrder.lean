import DefUse.CommandLine.Arguments
import Mathlib.Data.List.Nodup

/-!
# Arguments in any order

A `Request` is what a command line is to ask for.  It is written in pieces: a format, a choice of
colours, flags, groups of extensions and files, in any order that keeps the groups and the files in
theirs, and files that look like options behind `--` (`Asks`).

While such arguments are read, the draft is at each point what the pieces so far say, each kind of piece
on its own (`Draft.ofPieces`): one more piece adds to it what it says (`takeAll_piece`), and so do all
(`takeAll_pieces`).  Hence every way to write a request is read back as what was asked.
-/

namespace DefUse.CommandLine

/-! ## Requests and how they are written -/

/-- What is asked of a run, with the extensions in the groups in which they are given. -/
structure Request where
  files : List String
  format : OutputFormat
  color : ColorChoice
  noUnused : Bool
  attributeUnused : Bool
  strict : Bool
  groups : List (List String)

/-- There is a file, all files have names, and no group of extensions is empty or holds a comma. -/
structure Request.Valid (r : Request) : Prop where
  files : r.files ≠ []
  names : ∀ file ∈ r.files, file ≠ ""
  groups : ∀ group ∈ r.groups, group ≠ [] ∧ ∀ ext ∈ group, ',' ∉ ext.toList

def Request.flag (r : Request) : Flag → Bool
  | .noUnused => r.noUnused
  | .attributeUnused => r.attributeUnused
  | .strict => r.strict

/-- The configuration that a request stands for. -/
def Request.config (r : Request) : Config where
  files := r.files
  format := r.format
  color := r.color
  noUnused := r.noUnused
  attributeUnused := r.attributeUnused
  strict := r.strict
  extensions := if r.groups = [] then ["metta"] else r.groups.flatten

/-- One argument of a command line. -/
inductive Piece where
  | format (value : String)
  | color (choice : ColorChoice)
  | flag (f : Flag)
  | ext (group : List String)
  | file (name : String)

namespace Piece

def argument : Piece → String
  | format value => "--format=" ++ value
  | color choice => "--color=" ++ choice.name
  | flag .noUnused => "--no-unused"
  | flag .attributeUnused => "--attribute-unused"
  | flag .strict => "--strict"
  | ext group => "--ext=" ++ ",".intercalate group
  | file name => name

@[simp] def format? : Piece → Option String
  | format value => some value
  | _ => none

@[simp] def color? : Piece → Option ColorChoice
  | color choice => some choice
  | _ => none

@[simp] def flag? : Piece → Option Flag
  | flag f => some f
  | _ => none

@[simp] def group? : Piece → Option (List String)
  | ext group => some group
  | _ => none

@[simp] def file? : Piece → Option String
  | file name => some name
  | _ => none

end Piece

/-- The pieces, and the files behind them, say what is requested.  The format is given once, in small or
capital letters, the choice of colours once, and each flag that is set once.  A file among the pieces is
`-` or does not start with a dash. -/
structure Request.Writes (r : Request) (pieces : List Piece) (behind : List String) : Prop where
  format : ∃ value, pieces.filterMap Piece.format? = [value] ∧
    Text.lowered value = r.format.name.toList
  color : pieces.filterMap Piece.color? = [r.color]
  flags : (pieces.filterMap Piece.flag?).Nodup ∧
    ∀ f, f ∈ pieces.filterMap Piece.flag? ↔ r.flag f = true
  groups : pieces.filterMap Piece.group? = r.groups
  files : pieces.filterMap Piece.file? ++ behind = r.files
  plain : ∀ file ∈ pieces.filterMap Piece.file?, file = "-" ∨ file.toList.head? ≠ some '-'

/-- The arguments ask for what is requested. -/
inductive Request.Asks (r : Request) : List String → Prop
  | pieces {pieces : List Piece} : r.Writes pieces [] → r.Asks (pieces.map Piece.argument)
  | separated {pieces : List Piece} {behind : List String} :
      r.Writes pieces behind → r.Asks (pieces.map Piece.argument ++ "--" :: behind)

/-! ## Reading one argument -/

theorem OutputFormat.ofName?_of_lowered {f : OutputFormat} {value : String}
    (h : Text.lowered value = f.name.toList) : OutputFormat.ofName? value = some f := by
  unfold OutputFormat.ofName? choose? OutputFormat.all Text.equalIgnoringCase
  rw [h]
  cases f <;> rfl

theorem ColorChoice.ofName?_name (c : ColorChoice) : ColorChoice.ofName? false c.name = some c := by
  cases c <;> rfl

/-- An option with its value behind `=`. -/
theorem Token.ofArgument_value (name value : String) (hname : '=' ∉ name.toList) :
    Token.ofArgument ("--" ++ name ++ "=" ++ value) = .long name (some value) := by
  have harg : ("--" ++ name ++ "=" ++ value).toList =
      '-' :: '-' :: (name.toList ++ '=' :: value.toList) := by
    simp
  unfold Token.ofArgument
  rw [harg]
  -- two dashes with something behind them: only the second pattern fits
  split
  · rename_i heq
    simp at heq
  · rename_i cs _ heq
    obtain rfl := (List.cons.inj (List.cons.inj heq).2).2
    rw [Text.takeWhile_ne_sep hname, Text.dropWhile_ne_sep hname]
    simp only [String.ofList_toList]
  · grind
  · grind

theorem Token.ofArgument_file {name : String} (h : name = "-" ∨ name.toList.head? ≠ some '-') :
    Token.ofArgument name = .word := by
  rcases h with rfl | h
  · rfl
  · unfold Token.ofArgument
    split <;> simp_all

namespace Draft

/-- An option that is taken leaves the other arguments to be taken. -/
theorem takeAll_long {d d' : Draft} {arg name : String} {value : Option String} {o : Switch}
    (htoken : Token.ofArgument arg = .long name value) (hname : Switch.ofName? name = some o)
    (hoption : d.option o value = .ok d') (rest : List String) :
    d.takeAll (arg :: rest) = d'.takeAll rest := by
  rw [takeAll, htoken]
  dsimp only
  rw [hname]
  show (d.option o value).bind _ = _
  rw [hoption]
  rfl

theorem takeAll_word {d d' : Draft} {arg : String} (htoken : Token.ofArgument arg = .word)
    (hword : d.word arg = .ok d') (rest : List String) :
    d.takeAll (arg :: rest) = d'.takeAll rest := by
  rw [takeAll, htoken]
  dsimp only
  rw [hword]
  rfl

end Draft

/-! ## What pieces say -/

/-- A piece that can be read. -/
def Piece.Proper : Piece → Prop
  | format value => ∃ f : OutputFormat, Text.lowered value = f.name.toList
  | color _ => True
  | flag _ => True
  | ext group => group ≠ [] ∧ ∀ ext ∈ group, ',' ∉ ext.toList
  | file name => name ≠ "" ∧ (name = "-" ∨ name.toList.head? ≠ some '-')

/-- Pieces that can stand together. -/
structure Compatible (pieces : List Piece) : Prop where
  format : (pieces.filterMap Piece.format?).length ≤ 1
  color : (pieces.filterMap Piece.color?).length ≤ 1
  flags : (pieces.filterMap Piece.flag?).Nodup
  proper : ∀ p ∈ pieces, p.Proper

theorem Compatible.of_append {xs ys : List Piece} (h : Compatible (xs ++ ys)) : Compatible xs := by
  obtain ⟨hformat, hcolor, hflags, hproper⟩ := h
  rw [List.filterMap_append, List.length_append] at hformat hcolor
  rw [List.filterMap_append] at hflags
  refine ⟨by omega, by omega, hflags.of_append_left, fun p hp => ?_⟩
  exact hproper p (List.mem_append_left _ hp)

/-- The draft that the pieces make, each kind of piece on its own. -/
def Draft.ofPieces (pieces : List Piece) : Draft where
  files := pieces.filterMap Piece.file?
  format := (pieces.filterMap Piece.format?).head?.bind OutputFormat.ofName?
  color := (pieces.filterMap Piece.color?).head?
  noUnused := (pieces.filterMap Piece.flag?).contains .noUnused
  attributeUnused := (pieces.filterMap Piece.flag?).contains .attributeUnused
  strict := (pieces.filterMap Piece.flag?).contains .strict
  extensions := (pieces.filterMap Piece.group?).flatten
  awaiting := none
  held := none

namespace Draft

variable {init : List Piece}

theorem assign_format {value : String} (h : Compatible (init ++ [.format value])) :
    (ofPieces init).assign .format value = .ok (ofPieces (init ++ [.format value])) := by
  obtain ⟨f, hvalue⟩ : (Piece.format value).Proper := h.proper _ (by simp)
  have hfirst : init.filterMap Piece.format? = [] := by simpa using h.format
  simp [assign, ofPieces, hfirst, OutputFormat.ofName?_of_lowered hvalue]

theorem assign_color {choice : ColorChoice} (h : Compatible (init ++ [.color choice])) :
    (ofPieces init).assign .color choice.name = .ok (ofPieces (init ++ [.color choice])) := by
  have hfirst : init.filterMap Piece.color? = [] := by simpa using h.color
  simp [assign, ofPieces, hfirst, ColorChoice.ofName?_name]

theorem assign_ext {group : List String} (h : Compatible (init ++ [.ext group])) :
    (ofPieces init).assign .ext (",".intercalate group) = .ok (ofPieces (init ++ [.ext group])) := by
  obtain ⟨hne, hcomma⟩ : (Piece.ext group).Proper := h.proper _ (by simp)
  have hsplit : Text.splitText ',' (",".intercalate group) = group :=
    Text.splitText_intercalate hne hcomma
  simp [assign, ofPieces, hsplit]

theorem raise_flag {f : Flag} (h : Compatible (init ++ [.flag f])) :
    (ofPieces init).raise f = .ok (ofPieces (init ++ [.flag f])) := by
  have hfirst : f ∉ init.filterMap Piece.flag? := by
    have hnodup := h.flags
    rw [List.filterMap_append, List.nodup_append] at hnodup
    intro hf
    exact hnodup.2.2 f hf f (by simp) rfl
  unfold ofPieces
  simp only [List.filterMap_append]
  -- only the flags raised so far matter
  generalize init.filterMap Piece.flag? = flags at hfirst ⊢
  cases f <;> simp [raise, hfirst]

theorem addFile_name {name : String} (h : Compatible (init ++ [.file name])) :
    (ofPieces init).addFile name = .ok (ofPieces (init ++ [.file name])) := by
  obtain ⟨hne, -⟩ : (Piece.file name).Proper := h.proper _ (by simp)
  simp [addFile, ofPieces, hne]

/-- A setting with its value behind an equals sign takes one argument. -/
theorem takeAll_setting {s : Setting} (name value : String) {d : Draft}
    (hname : Switch.ofName? name = some (.setting s)) (hequals : '=' ∉ name.toList)
    (hassign : (ofPieces init).assign s value = .ok d) (rest : List String) :
    (ofPieces init).takeAll (("--" ++ name ++ "=" ++ value) :: rest) = d.takeAll rest := by
  refine takeAll_long (Token.ofArgument_value name value hequals) hname ?_ rest
  show ((ofPieces init).assign s value).mapError Stop.usage = _
  rw [hassign]
  rfl

/-- One more piece adds to the draft what it says. -/
theorem takeAll_piece {p : Piece} (h : Compatible (init ++ [p])) (rest : List String) :
    (ofPieces init).takeAll (p.argument :: rest) = (ofPieces (init ++ [p])).takeAll rest := by
  cases p with
  | format value => exact takeAll_setting "format" value rfl (by decide) (assign_format h) rest
  | color choice => exact takeAll_setting "color" choice.name rfl (by decide) (assign_color h) rest
  | ext group =>
    exact takeAll_setting "ext" (",".intercalate group) rfl (by decide) (assign_ext h) rest
  | flag f =>
    obtain ⟨name, htoken, hname⟩ : ∃ name,
        Token.ofArgument (Piece.flag f).argument = .long name none ∧
          Switch.ofName? name = some (.flag f) := by
      cases f <;> exact ⟨_, rfl, rfl⟩
    refine takeAll_long htoken hname ?_ rest
    show ((ofPieces init).raise f).mapError Stop.usage = _
    rw [raise_flag h]
    rfl
  | file name =>
    have hplain : (Piece.file name).Proper := h.proper _ (by simp)
    refine takeAll_word (Token.ofArgument_file hplain.2) ?_ rest
    show ((ofPieces init).addFile name).mapError Stop.usage = _
    rw [addFile_name h]
    rfl

/-- Pieces that can stand together are read one after another. -/
theorem takeAll_pieces {pieces : List Piece} (h : Compatible (init ++ pieces)) (rest : List String) :
    (ofPieces init).takeAll (pieces.map Piece.argument ++ rest) =
      (ofPieces (init ++ pieces)).takeAll rest := by
  induction pieces generalizing init with
  | nil => rw [List.append_nil, List.map_nil, List.nil_append]
  | cons p pieces ih =>
    rw [List.append_cons] at h ⊢
    rw [List.map_cons, List.cons_append, takeAll_piece h.of_append]
    exact ih h

/-- Behind the separator everything is a file. -/
theorem addFiles_eq {d : Draft} (hawaiting : d.awaiting = none) (hheld : d.held = none)
    {files : List String} (hfiles : ∀ file ∈ files, file ≠ "") :
    d.addFiles files = .ok { d with files := d.files ++ files } := by
  induction files generalizing d with
  | nil => rw [List.append_nil, addFiles]
  | cons file files ih =>
    rw [List.forall_mem_cons] at hfiles
    have hadd : d.addFile file = .ok { d with files := d.files ++ [file] } := by
      simp [addFile, hawaiting, hheld, hfiles.1]
    rw [addFiles, hadd]
    show Draft.addFiles _ files = _
    rw [ih (by exact hawaiting) (by exact hheld) hfiles.2]
    simp

end Draft

/-! ## Requests are read back -/

section

variable {r : Request} {pieces : List Piece} {behind : List String}

/-- The pieces of a request go together. -/
theorem Request.Writes.compatible (h : r.Writes pieces behind) (hr : r.Valid) : Compatible pieces := by
  obtain ⟨value, hvalue, hlowered⟩ := h.format
  refine ⟨by simp [hvalue], by simp [h.color], h.flags.1, fun p hp => ?_⟩
  cases p with
  | format given =>
    have hgiven : given ∈ pieces.filterMap Piece.format? := List.mem_filterMap.2 ⟨_, hp, rfl⟩
    obtain rfl : given = value := by simpa [hvalue] using hgiven
    exact ⟨r.format, hlowered⟩
  | color choice => trivial
  | flag f => trivial
  | ext group =>
    have hgroup : group ∈ pieces.filterMap Piece.group? := List.mem_filterMap.2 ⟨_, hp, rfl⟩
    exact hr.groups group (h.groups ▸ hgroup)
  | file name =>
    have hname : name ∈ pieces.filterMap Piece.file? := List.mem_filterMap.2 ⟨_, hp, rfl⟩
    exact ⟨hr.names name (h.files ▸ List.mem_append_left _ hname), h.plain name hname⟩

theorem Request.Writes.contains_flag (h : r.Writes pieces behind) (f : Flag) :
    (pieces.filterMap Piece.flag?).contains f = r.flag f := by
  rw [Bool.eq_iff_iff, List.contains_iff_mem]
  exact h.flags.2 f

/-- What the pieces say, with the files behind them, is what was requested. -/
theorem Request.Writes.config_eq (h : r.Writes pieces behind) (hr : r.Valid) :
    { Draft.ofPieces pieces with files := (Draft.ofPieces pieces).files ++ behind }.config =
      .ok r.config := by
  obtain ⟨value, hvalue, hlowered⟩ := h.format
  have hext : r.groups.flatten = [] ↔ r.groups = [] := by
    rw [List.flatten_eq_nil_iff]
    constructor
    · intro hnil
      exact List.eq_nil_iff_forall_not_mem.2 fun group hgroup =>
        (hr.groups group hgroup).1 (hnil group hgroup)
    · rintro hnil group hgroup
      rw [hnil] at hgroup
      cases hgroup
  unfold Draft.config Draft.ofPieces Request.config
  dsimp only
  rw [h.files, if_neg hr.files, hvalue, h.color, h.groups, h.contains_flag, h.contains_flag,
    h.contains_flag]
  simp only [hext]
  rw [List.head?_cons, Option.bind_some, OutputFormat.ofName?_of_lowered hlowered]
  rfl

/-- Reading goes on behind the pieces with what they say. -/
theorem parse_pieces (h : Compatible pieces) (rest : List String) :
    parse (pieces.map Piece.argument ++ rest) =
      ((Draft.ofPieces pieces).takeAll rest).bind fun d => d.config.mapError .usage := by
  have hread : Draft.empty.takeAll (pieces.map Piece.argument ++ rest) =
      (Draft.ofPieces pieces).takeAll rest :=
    @Draft.takeAll_pieces [] pieces h rest
  unfold parse
  rw [hread]

/-- Arguments that ask for a request are parsed into it. -/
theorem Request.Asks.parse_eq (hr : r.Valid) {argv : List String} (h : r.Asks argv) :
    parse argv = .ok r.config := by
  cases h with
  | @pieces pieces h =>
    have hconfig := h.config_eq hr
    rw [List.append_nil] at hconfig
    rw [← List.append_nil (pieces.map Piece.argument), parse_pieces (h.compatible hr)]
    show (Draft.ofPieces pieces).config.mapError Stop.usage = _
    rw [hconfig]
    rfl
  | @separated pieces behind h =>
    have hbehind : ∀ file ∈ behind, file ≠ "" := fun file hfile =>
      hr.names file (h.files ▸ List.mem_append_right _ hfile)
    rw [parse_pieces (h.compatible hr)]
    show ((((Draft.ofPieces pieces).addFiles behind).bind Draft.settle).mapError Stop.usage).bind _ = _
    rw [Draft.addFiles_eq rfl rfl hbehind]
    show (Draft.config _).mapError Stop.usage = _
    rw [h.config_eq hr]
    rfl

end

/-- The flags of a request. -/
def Request.chosen (r : Request) : List Flag :=
  [Flag.noUnused, .attributeUnused, .strict].filter r.flag

/-- One way to write a request: all options first, for the files to come behind the separator. -/
def Request.options (r : Request) : List Piece :=
  [.format r.format.name, .color r.color] ++ r.chosen.map .flag ++ r.groups.map .ext

theorem Request.filterMap_options {α : Type} (r : Request) (f : Piece → Option α) :
    r.options.filterMap f = [.format r.format.name, .color r.color].filterMap f ++
      r.chosen.filterMap (fun x => f (.flag x)) ++ r.groups.filterMap (fun g => f (.ext g)) := by
  unfold options
  rw [List.filterMap_append, List.filterMap_append, List.filterMap_map, List.filterMap_map]
  rfl

/-- Options first and files behind: one way to write a request. -/
theorem Request.writes_options (r : Request) : r.Writes r.options r.files where
  format := ⟨r.format.name, by simp [filterMap_options], by cases r.format <;> rfl⟩
  color := by simp [filterMap_options, List.filterMap_cons]
  flags := by
    have hflags : r.options.filterMap Piece.flag? = r.chosen := by simp [filterMap_options]
    rw [hflags]
    refine ⟨List.Nodup.filter _ (by decide), fun f => ?_⟩
    rw [chosen, List.mem_filter]
    cases f <;> simp
  groups := by simp [filterMap_options]
  files := by simp [filterMap_options]
  plain := by simp [filterMap_options]

/-- Every request can be written as arguments, and however it is written, it is read back: the pieces may
stand in any order that keeps the groups of extensions and the files in theirs. -/
theorem arguments_read_back_in_any_order (r : Request) (hr : r.Valid) :
    (∃ argv, r.Asks argv) ∧ ∀ argv, r.Asks argv → parse argv = .ok r.config :=
  ⟨⟨_, .separated r.writes_options⟩, fun _ => Request.Asks.parse_eq hr⟩

/-- Files that look like options stand behind the separator, and groups may hold empty extensions. -/
theorem arguments_read_back_in_any_order_sample :
    Request.Asks ⟨["-", "a b", "--strict", "--"], .text, .never, true, false, false, [["", "m"], [""]]⟩
      ["--ext=,m", "-", "--format=TeXt", "--no-unused", "a b", "--ext=", "--color=never", "--",
        "--strict", "--"] ∧
    parse ["--ext=,m", "-", "--format=TeXt", "--no-unused", "a b", "--ext=", "--color=never", "--",
        "--strict", "--"] =
      .ok ⟨["-", "a b", "--strict", "--"], .text, .never, true, false, false, ["", "m", ""]⟩ := by
  have hasks : Request.Asks
      ⟨["-", "a b", "--strict", "--"], .text, .never, true, false, false, [["", "m"], [""]]⟩
      ["--ext=,m", "-", "--format=TeXt", "--no-unused", "a b", "--ext=", "--color=never", "--",
        "--strict", "--"] :=
    @Request.Asks.separated _
      [.ext ["", "m"], .file "-", .format "TeXt", .flag .noUnused, .file "a b", .ext [""], .color .never]
      ["--strict", "--"]
      ⟨⟨"TeXt", rfl, rfl⟩, rfl, ⟨by decide, fun f => by cases f <;> decide⟩, rfl, rfl, by decide⟩
  refine ⟨hasks, (arguments_read_back_in_any_order _ ?_).2 _ hasks⟩
  exact ⟨by decide, by decide, by decide⟩

end DefUse.CommandLine
