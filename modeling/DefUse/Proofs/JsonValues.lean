import DefUse.Report.Json

/-!
# JSON values

JSON texts are read in two steps.  `tokens?` cuts a text into tokens: the six marks, strings without
their escapes, and words, which are numbers and the three literal names.  A machine then takes the tokens
one by one; its frames are the arrays and objects that are still open, and its mode says what may come
next.

Main facts:

- an escaped character is read as the character (`quoted?_escape`), so a quoted text is one token,
  whatever it holds (`tokens?_quote`);
- from any state that waits for a value, the tokens of a value lead to the state in which that value has
  ended (`run?_tokens`), so every value is read back from its tokens (`ofTokens?_tokens`).
-/

namespace DefUse.Report.Json

open DefUse.Text

/-! ## Tokens -/

/-- A piece of a JSON text. -/
inductive Token where
  | openObject
  | closeObject
  | openArray
  | closeArray
  | colon
  | comma
  /-- A string, its escapes resolved. -/
  | text (s : String)
  /-- A number or a literal name, as it is written. -/
  | word (cs : List Char)
deriving DecidableEq

/-- The characters that may stand between tokens. -/
def isSpace (c : Char) : Bool := c == ' ' || c == '\t' || c == '\n' || c == '\r'

/-- The token that a single character makes. -/
def mark? : Char → Option Token
  | '\x7b' => some .openObject
  | '\x7d' => some .closeObject
  | '[' => some .openArray
  | ']' => some .closeArray
  | ':' => some .colon
  | ',' => some .comma
  | _ => none

/-- Spaces and marks. -/
def isLayout (c : Char) : Bool := isSpace c || (mark? c).isSome

/-- The characters that words are made of. -/
def isWordChar (c : Char) : Bool := !isLayout c && c != '"'

/-- The value of a hexadecimal digit, in lower or upper case. -/
def hexValue? (c : Char) : Option Nat :=
  let n := c.toNat
  if 48 ≤ n ∧ n ≤ 57 then some (n - 48)
  else if 97 ≤ n ∧ n ≤ 102 then some (n - 87)
  else if 65 ≤ n ∧ n ≤ 70 then some (n - 55)
  else none

/-- The number that four hexadecimal digits stand for. -/
def unit? (a b c d : Char) : Option Nat := do
  let a ← hexValue? a
  let b ← hexValue? b
  let c ← hexValue? c
  let d ← hexValue? d
  some (((a * 16 + b) * 16 + c) * 16 + d)

def isSurrogate (n : Nat) : Bool := 0xd800 ≤ n && n < 0xe000

/-- The character that a high and a low surrogate stand for. -/
def ofSurrogates? (high low : Nat) : Option Char :=
  if 0xd800 ≤ high ∧ high < 0xdc00 ∧ 0xdc00 ≤ low ∧ low < 0xe000 then
    some (Char.ofNat (0x10000 + (high - 0xd800) * 0x400 + (low - 0xdc00)))
  else none

/-- The character that a letter behind a backslash stands for. -/
def unescape? : Char → Option Char
  | '"' => some '"'
  | '\\' => some '\\'
  | '/' => some '/'
  | 'b' => some '\x08'
  | 'f' => some '\x0c'
  | 'n' => some '\n'
  | 'r' => some '\r'
  | 't' => some '\t'
  | _ => none

/-- The character given by the digits at the head of a text, or by two surrogates, and what stands
behind. -/
def unicode? : List Char → Option (Char × List Char)
  | a :: b :: c :: d :: cs =>
    (unit? a b c d).bind fun n =>
      if isSurrogate n then
        match cs with
        | '\\' :: 'u' :: a :: b :: c :: d :: cs =>
          ((unit? a b c d).bind (ofSurrogates? n)).map (·, cs)
        | _ => none
      else some (Char.ofNat n, cs)
  | _ => none

/-- The first character of the inside of a string, escaped or not, and what stands behind. -/
def character? : List Char → Option (Char × List Char)
  | [] => none
  | c :: cs =>
    if c = '\\' then
      match cs with
      | [] => none
      | e :: cs => if e = 'u' then unicode? cs else (unescape? e).map (·, cs)
    else if c = '"' ∨ c.toNat < 0x20 then none
    else some (c, cs)

theorem length_unicode? {cs rest : List Char} {c : Char} (h : unicode? cs = some (c, rest)) :
    rest.length < cs.length := by
  unfold unicode? at h
  split at h
  · obtain ⟨n, -, h⟩ := Option.bind_eq_some_iff.1 h
    split at h
    · split at h
      · obtain ⟨d, -, heq⟩ := Option.map_eq_some_iff.1 h
        obtain ⟨-, rfl⟩ := Prod.mk.inj heq
        simp only [List.length_cons]
        omega
      · cases h
    · obtain ⟨-, rfl⟩ := Prod.mk.inj (Option.some.inj h)
      simp only [List.length_cons]
      omega
  · cases h

theorem length_character? {cs rest : List Char} {c : Char} (h : character? cs = some (c, rest)) :
    rest.length < cs.length := by
  unfold character? at h
  split at h
  · cases h
  · split at h
    · split at h
      · cases h
      · simp only [List.length_cons]
        split at h
        · have := length_unicode? h
          omega
        · obtain ⟨d, -, heq⟩ := Option.map_eq_some_iff.1 h
          obtain ⟨-, rfl⟩ := Prod.mk.inj heq
          omega
    · split at h
      · cases h
      · obtain ⟨-, rfl⟩ := Prod.mk.inj (Option.some.inj h)
        exact Nat.lt_succ_self _

/-- The inside of a string up to the quotation mark that ends it, and what stands behind. -/
def quoted? (cs : List Char) : Option (List Char × List Char) :=
  if cs.head? = some '"' then some ([], cs.tail)
  else
    match _h : character? cs with
    | some (c, rest) => (quoted? rest).map fun read => (c :: read.1, read.2)
    | none => none
termination_by cs.length
decreasing_by exact length_character? _h

theorem quoted?_quote (cs : List Char) : quoted? ('"' :: cs) = some ([], cs) := by
  rw [quoted?]
  rfl

theorem quoted?_eq {cs : List Char} (h : cs.head? ≠ some '"') :
    quoted? cs = (character? cs).bind fun first =>
      (quoted? first.2).map fun read => (first.1 :: read.1, read.2) := by
  rw [quoted?, if_neg h]
  split
  · next hsome => rw [hsome]; rfl
  · next hnone => rw [hnone]; rfl

theorem length_quoted? {cs s rest : List Char} (h : quoted? cs = some (s, rest)) :
    rest.length ≤ cs.length := by
  induction hlength : cs.length using Nat.strongRecOn generalizing cs s with
  | _ length ih =>
    by_cases hquote : cs.head? = some '"'
    · obtain ⟨cs, rfl⟩ := List.head?_eq_some_iff.1 hquote
      rw [quoted?_quote] at h
      obtain ⟨-, rfl⟩ := Prod.mk.inj (Option.some.inj h)
      rw [← hlength]
      exact Nat.le_succ _
    · rw [quoted?_eq hquote] at h
      obtain ⟨⟨c, next⟩, hnext, h⟩ := Option.bind_eq_some_iff.1 h
      obtain ⟨⟨s', rest'⟩, hread, heq⟩ := Option.map_eq_some_iff.1 h
      obtain ⟨-, rfl⟩ := Prod.mk.inj heq
      have hlt := length_character? hnext
      have hle := ih next.length (by omega) hread rfl
      omega

/-- The tokens of a text, unless something in it is no token. -/
def tokens? (cs : List Char) : Option (List Token) :=
  match cs with
  | [] => some []
  | c :: cs =>
    if isSpace c then tokens? cs
    else
      match mark? c with
      | some t => (tokens? cs).map (t :: ·)
      | none =>
        if c = '"' then
          match _h : quoted? cs with
          | some (s, rest) => (tokens? rest).map (.text (String.ofList s) :: ·)
          | none => none
        else (tokens? (cs.dropWhile isWordChar)).map (.word (c :: cs.takeWhile isWordChar) :: ·)
termination_by cs.length
decreasing_by
  · exact Nat.lt_succ_self _
  · exact Nat.lt_succ_self _
  · exact Nat.lt_succ_of_le (length_quoted? _h)
  · exact Nat.lt_succ_of_le (List.dropWhile_sublist _).length_le

/-! ## Written strings -/

theorem hexValue?_hexDigit : ∀ {n : Nat}, n < 16 → hexValue? (hexDigit n) = some n := by
  decide

/-- An escaped character is read back. -/
theorem character?_escape (c : Char) (cs : List Char) : character? (escape c ++ cs) = some (c, cs) := by
  unfold escape
  -- seven characters have an escape of their own
  iterate 7
    split
    · next h => subst h; rfl
  split
  · next hcontrol =>
    have hhigh := hexValue?_hexDigit (show c.toNat / 16 < 16 by omega)
    have hlow := hexValue?_hexDigit (show c.toNat % 16 < 16 by omega)
    have hunit : unit? '0' '0' (hexDigit (c.toNat / 16)) (hexDigit (c.toNat % 16)) =
        some c.toNat := by
      unfold unit?
      rw [hhigh, hlow]
      show some (((0 * 16 + 0) * 16 + c.toNat / 16) * 16 + c.toNat % 16) = _
      congr 1
      omega
    have hplain : isSurrogate c.toNat = false := by
      simp only [isSurrogate, Bool.and_eq_false_iff, decide_eq_false_iff_not]
      omega
    show unicode? ('0' :: '0' :: hexDigit (c.toNat / 16) :: hexDigit (c.toNat % 16) :: cs) = _
    rw [unicode?, hunit, Option.bind_some, if_neg (by simp [hplain]), Char.ofNat_toNat]
  · next hquote hslash _ _ _ _ _ hcontrol =>
    show (if c = '\\' then _ else _) = some (c, cs)
    rw [if_neg hslash, if_neg (by simp [hquote, hcontrol])]
    rfl

/-- An escaped text is read back up to its closing quote. -/
theorem quoted?_escape (s rest : List Char) :
    quoted? (s.flatMap escape ++ '"' :: rest) = some (s, rest) := by
  induction s with
  | nil => exact quoted?_quote rest
  | cons c s ih =>
    have hfirst := character?_escape c (s.flatMap escape ++ '"' :: rest)
    have hquote : (escape c ++ (s.flatMap escape ++ '"' :: rest)).head? ≠ some '"' := by
      intro hquote
      obtain ⟨cs, hcs⟩ := List.head?_eq_some_iff.1 hquote
      rw [hcs] at hfirst
      cases hfirst
    rw [List.flatMap_cons, List.append_assoc, quoted?_eq hquote, hfirst, Option.bind_some, ih]
    rfl

/-! ## Tokens at the head of a text

Each is said for a text whose rest is cut into `ts`. -/

section

variable {c : Char} {cs : List Char} {ts : List Token}

theorem tokens?_nil : tokens? [] = some [] := by
  rw [tokens?]

theorem tokens?_space (h : isSpace c = true) (hts : tokens? cs = some ts) :
    tokens? (c :: cs) = some ts := by
  rw [tokens?, if_pos h, hts]

theorem mark?_of_isSpace (h : isSpace c = true) : mark? c = none := by
  simp only [isSpace, Bool.or_eq_true, beq_iff_eq, or_assoc] at h
  rcases h with rfl | rfl | rfl | rfl <;> rfl

theorem tokens?_mark {t : Token} (h : mark? c = some t) (hts : tokens? cs = some ts) :
    tokens? (c :: cs) = some (t :: ts) := by
  have hspace : ¬ isSpace c = true := fun hspace => by cases (mark?_of_isSpace hspace).symm.trans h
  rw [tokens?, if_neg hspace]
  simp only [h, hts, Option.map_some]

/-- Text of spaces and marks only. -/
theorem tokens?_layout {layout : List Char} (marks : List Token) (hlayout : layout.all isLayout = true)
    (hmarks : layout.filterMap mark? = marks) (hts : tokens? cs = some ts) :
    tokens? (layout ++ cs) = some (marks ++ ts) := by
  subst hmarks
  induction layout with
  | nil => exact hts
  | cons c layout ih =>
    rw [List.all_cons, Bool.and_eq_true, isLayout, Bool.or_eq_true] at hlayout
    have ih := ih hlayout.2
    rcases hlayout.1 with hspace | hmark
    · rw [List.filterMap_cons_none (mark?_of_isSpace hspace)]
      exact tokens?_space hspace ih
    · obtain ⟨t, ht⟩ := Option.isSome_iff_exists.1 hmark
      rw [List.filterMap_cons_some ht]
      exact tokens?_mark ht ih

theorem tokens?_quote (s : String) (hts : tokens? cs = some ts) :
    tokens? ((quote s).toList ++ cs) = some (.text s :: ts) := by
  have hquoted := quoted?_escape s.toList cs
  have htext : (quote s).toList ++ cs = '"' :: (s.toList.flatMap escape ++ '"' :: cs) := by
    rw [quote, String.toList_ofList]
    simp
  rw [htext, tokens?, if_neg (by decide)]
  show (if '"' = '"' then _ else _) = _
  rw [if_pos rfl]
  split
  · next hsome =>
    cases hsome.symm.trans hquoted
    rw [hts, String.ofList_toList]
    rfl
  · next hnone => cases hnone.symm.trans hquoted

/-- No word goes on in this text. -/
def Delimited (cs : List Char) : Prop := ∀ c ∈ cs.head?, isWordChar c = false

/-- A word ends where something else starts. -/
theorem tokens?_word {word : List Char} (hne : word ≠ []) (hword : ∀ c ∈ word, isWordChar c = true)
    (hcs : Delimited cs) (hts : tokens? cs = some ts) :
    tokens? (word ++ cs) = some (.word word :: ts) := by
  cases word with
  | nil => exact absurd rfl hne
  | cons c word =>
    have hc := hword c List.mem_cons_self
    have hmore : ∀ d ∈ word, isWordChar d = true := fun d hd => hword d (List.mem_cons_of_mem _ hd)
    simp only [isWordChar, isLayout, Bool.and_eq_true, Bool.not_eq_true', bne_iff_ne,
      Bool.or_eq_false_iff, Option.isSome_eq_false_iff, Option.isNone_iff_eq_none] at hc
    have htake : (word ++ cs).takeWhile isWordChar = word := by
      rw [List.takeWhile_append_of_pos hmore]
      cases cs with
      | nil => simp
      | cons d cs => simp [hcs d rfl]
    have hdrop : (word ++ cs).dropWhile isWordChar = cs := by
      rw [List.dropWhile_append_of_pos hmore]
      cases cs with
      | nil => rfl
      | cons d cs => simp [hcs d rfl]
    rw [List.cons_append, tokens?, if_neg (by simp [hc.1.1])]
    simp only [hc.1.2, if_neg hc.2, hdrop, htake, hts, Option.map_some]

end

/-! ## Values -/

/-- The digits of a whole number: no zero in front, unless it is all. -/
def isWhole : List Char → Bool
  | [] => false
  | d :: ds => d != '0' || ds.isEmpty

/-- Nothing, or an exponent. -/
def isExponent : List Char → Bool
  | [] => true
  | e :: cs =>
    let digits := match cs with
      | '+' :: digits => digits
      | '-' :: digits => digits
      | digits => digits
    (e == 'e' || e == 'E') && !digits.isEmpty && digits.all Char.isDigit

/-- What may follow the whole part of a number: a fraction, an exponent, both or nothing. -/
def isFraction : List Char → Bool
  | '.' :: cs => !(cs.takeWhile Char.isDigit).isEmpty && isExponent (cs.dropWhile Char.isDigit)
  | cs => isExponent cs

def dropSign : List Char → List Char
  | '-' :: cs => cs
  | cs => cs

/-- The numbers of JSON. -/
def isNumeral (cs : List Char) : Bool :=
  isWhole ((dropSign cs).takeWhile Char.isDigit) && isFraction ((dropSign cs).dropWhile Char.isDigit)

/-- A number as it is written. -/
structure Numeral where
  chars : List Char
  valid : isNumeral chars = true

inductive Value where
  | null
  | bool (b : Bool)
  | number (n : Numeral)
  | text (s : String)
  | array (items : List Value)
  /-- The members in the order in which they are written. -/
  | object (members : List (String × Value))

namespace Value

/-- The value that a word stands for. -/
def ofWord? (cs : List Char) : Option Value :=
  if cs = ['n', 'u', 'l', 'l'] then some null
  else if cs = ['t', 'r', 'u', 'e'] then some (bool true)
  else if cs = ['f', 'a', 'l', 's', 'e'] then some (bool false)
  else if h : isNumeral cs = true then some (number ⟨cs, h⟩)
  else none

/-! ### The tokens of a value -/

mutual

/-- The tokens that a value is written with. -/
def tokens : Value → List Token
  | null => [.word ['n', 'u', 'l', 'l']]
  | bool true => [.word ['t', 'r', 'u', 'e']]
  | bool false => [.word ['f', 'a', 'l', 's', 'e']]
  | number n => [.word n.chars]
  | text s => [.text s]
  | array [] => [.openArray, .closeArray]
  | array (v :: vs) => .openArray :: (tokens v ++ moreItems vs)
  | object [] => [.openObject, .closeObject]
  | object ((key, v) :: ms) => .openObject :: .text key :: .colon :: (tokens v ++ moreMembers ms)

/-- Further items of an array, up to its end. -/
def moreItems : List Value → List Token
  | [] => [.closeArray]
  | v :: vs => .comma :: (tokens v ++ moreItems vs)

/-- Further members of an object, up to its end. -/
def moreMembers : List (String × Value) → List Token
  | [] => [.closeObject]
  | (key, v) :: ms => .comma :: .text key :: .colon :: (tokens v ++ moreMembers ms)

end

/-- The tokens of a member. -/
def memberTokens (m : String × Value) : List Token := .text m.1 :: .colon :: m.2.tokens

/-- Further parts, each behind a comma, are parts with commas between them. -/
theorem append_more {α : Type} {f : α → List Token} {more : List α → List Token} {close : Token}
    (hnil : more [] = [close]) (hcons : ∀ a as, more (a :: as) = .comma :: (f a ++ more as))
    (a : α) (as : List α) :
    f a ++ more as = [.comma].intercalate ((a :: as).map f) ++ [close] := by
  induction as generalizing a with
  | nil => rw [hnil, List.map_singleton, List.intercalate_singleton]
  | cons b as ih =>
    have hjoin : [Token.comma].intercalate ((a :: b :: as).map f) =
        f a ++ [.comma] ++ [.comma].intercalate ((b :: as).map f) := List.intercalate_cons_cons
    rw [hcons, ih, hjoin, List.append_assoc, List.append_assoc]
    rfl

theorem tokens_array (vs : List Value) :
    (array vs).tokens = .openArray :: ([.comma].intercalate (vs.map tokens) ++ [.closeArray]) := by
  cases vs with
  | nil => rw [tokens]; rfl
  | cons v vs =>
    have hmore : v.tokens ++ moreItems vs =
        [.comma].intercalate ((v :: vs).map tokens) ++ [.closeArray] :=
      append_more (by rw [moreItems]) (fun v vs => by rw [moreItems]) v vs
    rw [tokens, hmore]

theorem tokens_object (ms : List (String × Value)) :
    (object ms).tokens =
      .openObject :: ([.comma].intercalate (ms.map memberTokens) ++ [.closeObject]) := by
  cases ms with
  | nil => rw [tokens]; rfl
  | cons m ms =>
    have hmore : memberTokens m ++ moreMembers ms =
        [.comma].intercalate ((m :: ms).map memberTokens) ++ [.closeObject] :=
      append_more (by rw [moreMembers]) (fun m ms => by rw [moreMembers]; rfl) m ms
    rw [tokens, ← hmore]
    rfl

end Value

/-! ## The machine -/

/-- An array or an object that is still open, with what stands in it before the value now read. -/
inductive Frame where
  | item (before : List Value)
  | member (before : List (String × Value)) (key : String)

/-- What a machine waits for. -/
inductive Mode where
  | value
  /-- An item, or the end of an array just opened. -/
  | items
  /-- A member, or the end of an object just opened. -/
  | members
  /-- A further member. -/
  | key (before : List (String × Value))
  /-- The colon behind a key. -/
  | colon (before : List (String × Value)) (key : String)
  /-- What may stand behind a value that has ended. -/
  | ended (v : Value)

structure Machine where
  frames : List Frame
  mode : Mode

namespace Machine

/-- The machine after the first token of a value. -/
def begin? (frames : List Frame) : Token → Option Machine
  | .openArray => some ⟨frames, .items⟩
  | .openObject => some ⟨frames, .members⟩
  | .text s => some ⟨frames, .ended (.text s)⟩
  | .word cs => (Value.ofWord? cs).map fun v => ⟨frames, .ended v⟩
  | _ => none

/-- The machine after a token behind the value `v`. -/
def resume? (v : Value) : List Frame → Token → Option Machine
  | .item before :: frames, .comma => some ⟨.item (before ++ [v]) :: frames, .value⟩
  | .item before :: frames, .closeArray => some ⟨frames, .ended (.array (before ++ [v]))⟩
  | .member before key :: frames, .comma => some ⟨frames, .key (before ++ [(key, v)])⟩
  | .member before key :: frames, .closeObject =>
    some ⟨frames, .ended (.object (before ++ [(key, v)]))⟩
  | _, _ => none

/-- Takes one token in. -/
def step? (m : Machine) (t : Token) : Option Machine :=
  match m.mode, t with
  | .value, t => begin? m.frames t
  | .items, .closeArray => some ⟨m.frames, .ended (.array [])⟩
  | .items, t => begin? (.item [] :: m.frames) t
  | .members, .closeObject => some ⟨m.frames, .ended (.object [])⟩
  | .members, .text key => some ⟨m.frames, .colon [] key⟩
  | .key before, .text key => some ⟨m.frames, .colon before key⟩
  | .colon before key, .colon => some ⟨.member before key :: m.frames, .value⟩
  | .ended v, t => resume? v m.frames t
  | _, _ => none

/-- Takes tokens in one after another. -/
def run? (m : Machine) (ts : List Token) : Option Machine := ts.foldlM step? m

/-- The value that has been read, if nothing is open. -/
def result? : Machine → Option Value
  | ⟨[], .ended v⟩ => some v
  | _ => none

theorem run?_cons {m next : Machine} {t : Token} (h : step? m t = some next) (ts : List Token) :
    run? m (t :: ts) = run? next ts := by
  rw [run?, List.foldlM_cons, h]
  rfl

end Machine

/-- The value that tokens make. -/
def Value.ofTokens? (ts : List Token) : Option Value :=
  (Machine.run? ⟨[], .value⟩ ts).bind Machine.result?

/-- The value that a text holds. -/
def parse? (text : String) : Option Value :=
  (tokens? text.toList).bind Value.ofTokens?

namespace Machine

open Value

theorem ofWord?_numeral (n : Numeral) : ofWord? n.chars = some (.number n) := by
  obtain ⟨cs, h⟩ := n
  have hnull : cs ≠ ['n', 'u', 'l', 'l'] := by rintro rfl; cases h
  have htrue : cs ≠ ['t', 'r', 'u', 'e'] := by rintro rfl; cases h
  have hfalse : cs ≠ ['f', 'a', 'l', 's', 'e'] := by rintro rfl; cases h
  rw [ofWord?, if_neg hnull, if_neg htrue, if_neg hfalse, dif_pos h]

/-- No value begins with the end of an array. -/
theorem exists_tokens_eq_cons (v : Value) : ∃ t ts, v.tokens = t :: ts ∧ t ≠ .closeArray := by
  rcases v with _ | ⟨_ | _⟩ | _ | _ | ⟨_ | _⟩ | ⟨_ | _⟩ <;> exact ⟨_, _, by rw [tokens], by simp⟩

theorem run?_items (v : Value) (frames : List Frame) (ts : List Token) :
    run? ⟨frames, .items⟩ (v.tokens ++ ts) = run? ⟨.item [] :: frames, .value⟩ (v.tokens ++ ts) := by
  obtain ⟨t, more, htokens, ht⟩ := exists_tokens_eq_cons v
  have hstep : step? ⟨frames, .items⟩ t = step? ⟨.item [] :: frames, .value⟩ t := by
    cases t with
    | closeArray => exact absurd rfl ht
    | _ => rfl
  rw [htokens, List.cons_append, run?, run?, List.foldlM_cons, List.foldlM_cons, hstep]

/-- A key and its colon, where a member may come. -/
theorem run?_key {frames : List Frame} {mode : Mode} {before : List (String × Value)} {key : String}
    (h : step? ⟨frames, mode⟩ (.text key) = some ⟨frames, .colon before key⟩) (ts : List Token) :
    run? ⟨frames, mode⟩ (.text key :: .colon :: ts) =
      run? ⟨.member before key :: frames, .value⟩ ts := by
  rw [run?_cons h]
  exact run?_cons rfl ts

mutual

/-- One value: from a machine that waits for it to the machine behind it. -/
theorem run?_tokens : ∀ (v : Value) (frames : List Frame) (ts : List Token),
    run? ⟨frames, .value⟩ (v.tokens ++ ts) = run? ⟨frames, .ended v⟩ ts
  | .null, frames, ts => by rw [tokens]; exact run?_cons rfl ts
  | .bool true, frames, ts => by rw [tokens]; exact run?_cons rfl ts
  | .bool false, frames, ts => by rw [tokens]; exact run?_cons rfl ts
  | .number n, frames, ts => by
    have hword : step? ⟨frames, .value⟩ (.word n.chars) = some ⟨frames, .ended (.number n)⟩ := by
      show (ofWord? n.chars).map _ = _
      rw [ofWord?_numeral]
      rfl
    rw [tokens]
    exact run?_cons hword ts
  | .text s, frames, ts => by rw [tokens]; exact run?_cons rfl ts
  | .array [], frames, ts => by
    rw [tokens]
    exact (run?_cons rfl (.closeArray :: ts)).trans (run?_cons rfl ts)
  | .array (v :: vs), frames, ts => by
    rw [tokens, List.cons_append, List.append_assoc]
    calc
      _ = run? ⟨frames, .items⟩ (v.tokens ++ (moreItems vs ++ ts)) := run?_cons rfl _
      _ = run? ⟨.item [] :: frames, .value⟩ (v.tokens ++ (moreItems vs ++ ts)) := run?_items v _ _
      _ = run? ⟨.item [] :: frames, .ended v⟩ (moreItems vs ++ ts) := run?_tokens v _ _
      _ = run? ⟨frames, .ended (.array (v :: vs))⟩ ts := run?_moreItems vs [] v frames ts
  | .object [], frames, ts => by
    rw [tokens]
    exact (run?_cons rfl (.closeObject :: ts)).trans (run?_cons rfl ts)
  | .object ((key, v) :: ms), frames, ts => by
    rw [tokens, List.cons_append, List.cons_append, List.cons_append, List.append_assoc]
    calc
      _ = run? ⟨frames, .members⟩ (.text key :: .colon :: (v.tokens ++ (moreMembers ms ++ ts))) :=
        run?_cons rfl _
      _ = run? ⟨.member [] key :: frames, .value⟩ (v.tokens ++ (moreMembers ms ++ ts)) :=
        run?_key rfl _
      _ = run? ⟨.member [] key :: frames, .ended v⟩ (moreMembers ms ++ ts) := run?_tokens v _ _
      _ = run? ⟨frames, .ended (.object ((key, v) :: ms))⟩ ts := run?_moreMembers ms [] key v frames ts

/-- The values that follow are added to the array. -/
theorem run?_moreItems : ∀ (vs before : List Value) (v : Value) (frames : List Frame)
    (ts : List Token), run? ⟨.item before :: frames, .ended v⟩ (moreItems vs ++ ts) =
      run? ⟨frames, .ended (.array (before ++ v :: vs))⟩ ts
  | [], before, v, frames, ts => by rw [moreItems]; exact run?_cons rfl ts
  | next :: vs, before, v, frames, ts => by
    rw [moreItems, List.cons_append, List.append_assoc]
    calc
      _ = run? ⟨.item (before ++ [v]) :: frames, .value⟩ (next.tokens ++ (moreItems vs ++ ts)) :=
        run?_cons rfl _
      _ = run? ⟨.item (before ++ [v]) :: frames, .ended next⟩ (moreItems vs ++ ts) :=
        run?_tokens next _ _
      _ = run? ⟨frames, .ended (.array (before ++ [v] ++ next :: vs))⟩ ts :=
        run?_moreItems vs (before ++ [v]) next frames ts
      _ = run? ⟨frames, .ended (.array (before ++ v :: next :: vs))⟩ ts := by
        rw [List.append_assoc, List.singleton_append]

theorem run?_moreMembers : ∀ (ms before : List (String × Value)) (key : String) (v : Value)
    (frames : List Frame) (ts : List Token),
    run? ⟨.member before key :: frames, .ended v⟩ (moreMembers ms ++ ts) =
      run? ⟨frames, .ended (.object (before ++ (key, v) :: ms))⟩ ts
  | [], before, key, v, frames, ts => by rw [moreMembers]; exact run?_cons rfl ts
  | (next, w) :: ms, before, key, v, frames, ts => by
    rw [moreMembers, List.cons_append, List.cons_append, List.cons_append, List.append_assoc]
    calc
      _ = run? ⟨frames, .key (before ++ [(key, v)])⟩
          (.text next :: .colon :: (w.tokens ++ (moreMembers ms ++ ts))) := run?_cons rfl _
      _ = run? ⟨.member (before ++ [(key, v)]) next :: frames, .value⟩
          (w.tokens ++ (moreMembers ms ++ ts)) := run?_key rfl _
      _ = run? ⟨.member (before ++ [(key, v)]) next :: frames, .ended w⟩ (moreMembers ms ++ ts) :=
        run?_tokens w _ _
      _ = run? ⟨frames, .ended (.object (before ++ [(key, v)] ++ (next, w) :: ms))⟩ ts :=
        run?_moreMembers ms _ next w frames ts
      _ = run? ⟨frames, .ended (.object (before ++ (key, v) :: (next, w) :: ms))⟩ ts := by
        rw [List.append_assoc, List.singleton_append]

end

end Machine

/-- A value is read back from its tokens. -/
theorem Value.ofTokens?_tokens (v : Value) : ofTokens? v.tokens = some v := by
  have hrun := Machine.run?_tokens v [] []
  rw [List.append_nil] at hrun
  rw [ofTokens?, hrun]
  rfl

end DefUse.Report.Json
