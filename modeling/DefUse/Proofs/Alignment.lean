import DefUse.Proofs.Occurrence
import DefUse.Reader
import Mathlib.Data.List.Forall2
import Mathlib.Data.Option.Basic

/-!
# Texts that differ in their names only

`Aligned R inside cs cs'` says that `cs` and `cs'` are the same characters, but for the references:
where the one has a reference to `n` the other has one to some `n'` with `R n n'`.  Names may differ in
length, so offsets do not agree, and nothing here is said about them.  `inside` tells whether an
identifier character stands before the two texts, for it decides what can be a reference at their
head.

The two texts begin alike (`head?_eq`), and they can be cut and joined at every character that is no
part of a name (`exists_split`, `append`).  So what is read from them is aligned too: their references
(`scan`), their lines (`segments`, `chomp`) and the expressions made of the lines (`read_aligned`).
-/

namespace DefUse

open Text Reference

/-! ## Names -/

namespace Reference

/-- A `$` with one or more identifier characters behind it. -/
def IsName (name : String) : Prop :=
  ∃ run, run ≠ [] ∧ (∀ c ∈ run, isIdentifierChar c = true) ∧ name.toList = '$' :: run

/-- A character that is no part of any name. -/
def IsPlain (c : Char) : Prop := c ≠ '$' ∧ isIdentifierChar c = false

instance (c : Char) : Decidable (IsPlain c) := inferInstanceAs (Decidable (_ ∧ _))

theorem depth_of_not_mem {cs : List Char} (hopen : '(' ∉ cs) (hclose : ')' ∉ cs) :
    Nesting.depth cs = 0 := by
  induction cs with
  | nil => rfl
  | cons c cs ih =>
    rw [List.mem_cons, not_or] at hopen hclose
    rw [Nesting.depth_cons, ih hopen.2 hclose.2, Nesting.weight, if_neg (Ne.symm hopen.1),
      if_neg (Ne.symm hclose.1)]
    rfl

theorem IsName.not_mem {name : String} (h : IsName name) {c : Char} (hc : IsPlain c) :
    c ∉ name.toList := by
  obtain ⟨run, -, hrun, heq⟩ := h
  rw [heq, List.mem_cons, not_or]
  refine ⟨hc.1, fun hmem => ?_⟩
  have := hrun c hmem
  rw [hc.2] at this
  cases this

theorem IsName.depth_eq_zero {name : String} (h : IsName name) : Nesting.depth name.toList = 0 :=
  depth_of_not_mem (h.not_mem (by decide)) (h.not_mem (by decide))

theorem IsName.head?_append {name : String} (h : IsName name) (cs : List Char) :
    (name.toList ++ cs).head? = some '$' := by
  obtain ⟨run, -, -, heq⟩ := h
  rw [heq]
  rfl

theorem IsName.ne_nil {name : String} (h : IsName name) : name.toList ≠ [] := by
  obtain ⟨run, -, -, heq⟩ := h
  rw [heq]
  exact List.cons_ne_nil _ _

theorem IsName.getLast? {name : String} (h : IsName name) :
    name.toList.getLast?.any isIdentifierChar = true := by
  obtain ⟨run, hne, hrun, heq⟩ := h
  rw [heq, List.getLast?_cons, List.getLast?_eq_some_getLast hne]
  exact hrun _ (List.getLast_mem hne)

section

variable {before : Option Char} {offset : Nat} {cs : List Char}

/-- Nothing is found where an identifier character stands before, or no name starts. -/
theorem here?_eq_none {c : Char}
    (hc : before.any isIdentifierChar = false → c = '$' → ∀ d ∈ cs.head?, isIdentifierChar d = false) :
    here? before offset (c :: cs) = none := by
  unfold here? leading?
  dsimp only
  by_cases hbefore : before.any isIdentifierChar = true
  · rw [if_pos hbefore]
  · rw [if_neg hbefore]
    by_cases hdollar : c = '$'
    · have hhead := hc (by simpa using hbefore) hdollar
      rw [if_pos hdollar]
      cases cs with
      | nil => rfl
      | cons d cs => rw [List.takeWhile_cons, hhead d rfl]; rfl
    · rw [if_neg hdollar]

/-- A name is found where nothing before or behind it makes it longer. -/
theorem here?_name {name : String} (hbefore : before.any isIdentifierChar = false) (hn : IsName name)
    (hend : ∀ d ∈ cs.head?, isIdentifierChar d = false) :
    here? before offset (name.toList ++ cs) = some ⟨name, offset⟩ := by
  obtain ⟨run, hne, hrun, heq⟩ := hn
  have htake : (run ++ cs).takeWhile isIdentifierChar = run := by
    rw [List.takeWhile_append_of_pos hrun]
    cases cs with
    | nil => rw [List.takeWhile_nil, List.append_nil]
    | cons d cs => rw [List.takeWhile_cons, hend d rfl]; exact List.append_nil run
  have hname : String.ofList ('$' :: run) = name := by
    rw [← heq, String.ofList_toList]
  unfold here? leading?
  rw [hbefore, heq, List.cons_append]
  dsimp only
  rw [if_pos rfl, htake]
  cases run with
  | nil => exact absurd rfl hne
  | cons d run => exact congrArg (fun n => some (Reference.mk n offset)) hname

/-- What is found is a whole name, at the head of the text. -/
theorem exists_name_of_here? {r : Reference} (h : here? before offset cs = some r) :
    before.any isIdentifierChar = false ∧ IsName r.name ∧ r.offset = offset ∧
      ∃ rest, cs = r.name.toList ++ rest ∧ ∀ d ∈ rest.head?, isIdentifierChar d = false := by
  obtain ⟨hbefore, hleading⟩ := here?_eq_some.1 h
  refine ⟨hbefore, ?_⟩
  unfold leading? at hleading
  split at hleading
  · cases hleading
  · rename_i c cs
    split at hleading
    · rename_i hc
      split at hleading
      · cases hleading
      · rename_i hne
        obtain rfl := Option.some.inj hleading
        have hrun : ∀ d ∈ cs.takeWhile isIdentifierChar, isIdentifierChar d = true :=
          List.all_eq_true.1 List.all_takeWhile
        refine ⟨⟨_, hne, hrun, String.toList_ofList⟩, rfl, cs.dropWhile isIdentifierChar, ?_, ?_⟩
        · rw [String.toList_ofList, List.cons_append, List.takeWhile_append_dropWhile, hc]
        · intro d hd
          have hfirst := List.head?_dropWhile_not isIdentifierChar cs
          rw [Option.mem_def.1 hd] at hfirst
          simpa using hfirst
    · cases hleading

theorem scanFrom_append_of_not_mem {as : List Char} (h : '$' ∉ as) :
    scanFrom before offset (as ++ cs) =
      scanFrom (as.getLast?.or before) (offset + byteLength as) cs := by
  induction as generalizing before offset with
  | nil => rfl
  | cons c as ih =>
    have hc : c ≠ '$' := fun hc => h (hc ▸ List.mem_cons_self)
    have hnone : here? before offset (c :: (as ++ cs)) = none :=
      here?_eq_none fun _ hdollar => absurd hdollar hc
    rw [List.cons_append, scanFrom_cons, hnone, ih fun hm => h (List.mem_cons_of_mem _ hm),
      byteLength_cons, ← Nat.add_assoc, getLast?_or_cons]
    rfl

/-- The scan takes a whole name and goes on behind it. -/
theorem scanFrom_name {name : String} (hbefore : before.any isIdentifierChar = false)
    (hn : IsName name) (hend : ∀ d ∈ cs.head?, isIdentifierChar d = false) :
    scanFrom before offset (name.toList ++ cs) =
      ⟨name, offset⟩ ::
        scanFrom name.toList.getLast? (offset + byteLength name.toList) cs := by
  have hhere : here? before offset (name.toList ++ cs) = some ⟨name, offset⟩ :=
    here?_name hbefore hn hend
  obtain ⟨run, hne, hrun, heq⟩ := hn
  have hdollar : '$' ∉ run := fun hm => absurd (hrun '$' hm) (by decide)
  rw [heq, List.cons_append] at hhere ⊢
  rw [scanFrom_cons, hhere, scanFrom_append_of_not_mem hdollar, List.getLast?_cons, byteLength_cons,
    ← Nat.add_assoc, List.getLast?_eq_some_getLast hne]
  rfl

end

end Reference

/-! ## Aligned texts -/

inductive Aligned (R : String → String → Prop) : Bool → List Char → List Char → Prop
  | nil (inside : Bool) : Aligned R inside [] []
  /-- The same character, which is not the start of a reference. -/
  | char {inside : Bool} {c : Char} {cs cs' : List Char}
      (hc : inside = false → c = '$' → ∀ d ∈ cs.head?, isIdentifierChar d = false)
      (h : Aligned R (isIdentifierChar c) cs cs') : Aligned R inside (c :: cs) (c :: cs')
  /-- Two references with related names. -/
  | name {n n' : String} {cs cs' : List Char} (hn : IsName n) (hn' : IsName n') (hR : R n n')
      (hend : ∀ d ∈ cs.head?, isIdentifierChar d = false)
      (h : Aligned R true cs cs') : Aligned R false (n.toList ++ cs) (n'.toList ++ cs')

namespace Aligned

variable {R : String → String → Prop} {inside : Bool} {cs cs' : List Char}

theorem head?_eq (h : Aligned R inside cs cs') : cs'.head? = cs.head? := by
  cases h with
  | nil => rfl
  | char _ _ => rfl
  | name hn hn' _ _ _ => rw [hn.head?_append, hn'.head?_append]

theorem symm (h : Aligned R inside cs cs') : Aligned (flip R) inside cs' cs := by
  induction h with
  | nil inside => exact .nil inside
  | char hc h ih => exact .char (by rwa [h.head?_eq]) ih
  | name hn hn' hR hend h ih => exact .name hn' hn hR (by rwa [h.head?_eq]) ih

/-- Aligned texts nest alike. -/
theorem depth_eq (h : Aligned R inside cs cs') : Nesting.depth cs' = Nesting.depth cs := by
  induction h with
  | nil => rfl
  | char _ _ ih => rw [Nesting.depth_cons, Nesting.depth_cons, ih]
  | name hn hn' _ _ _ ih =>
    rw [Nesting.depth_append, Nesting.depth_append, hn.depth_eq_zero, hn'.depth_eq_zero, ih]

/-- Aligned texts have related references in the same places. -/
theorem scan (h : Aligned R inside cs cs') {before before' : Option Char}
    (hb : before.any isIdentifierChar = inside) (hb' : before'.any isIdentifierChar = inside)
    (offset offset' : Nat) :
    List.Forall₂ R ((scanFrom before offset cs).map Reference.name)
      ((scanFrom before' offset' cs').map Reference.name) := by
  induction h generalizing before before' offset offset' with
  | nil => exact .nil
  | char hc h ih =>
    rename_i c cs cs'
    rw [scanFrom_cons, scanFrom_cons, here?_eq_none (by rwa [hb]),
      here?_eq_none (by rwa [hb', h.head?_eq])]
    exact ih rfl rfl _ _
  | name hn hn' hR hend h ih =>
    rw [scanFrom_name hb hn hend, scanFrom_name hb' hn' (by rwa [h.head?_eq])]
    exact .cons hR (ih hn.getLast? hn'.getLast? _ _)

/-! ## Cutting and joining -/

/-- Characters of which none starts a reference are the same in both texts. -/
theorem exists_common {pre rest : List Char} (hpre : '$' ∉ pre)
    (h : Aligned R inside (pre ++ rest) cs') :
    ∃ inside' rest', cs' = pre ++ rest' ∧ Aligned R inside' rest rest' ∧
      ∀ before : Option Char, before.any isIdentifierChar = inside →
        (pre.getLast?.or before).any isIdentifierChar = inside' := by
  induction pre generalizing inside cs' with
  | nil => exact ⟨inside, cs', rfl, h, fun _ hb => hb⟩
  | cons c pre ih =>
    have hc : c ≠ '$' := fun hc => hpre (hc ▸ List.mem_cons_self)
    rw [List.cons_append] at h
    generalize hcs : c :: (pre ++ rest) = cs at h
    cases h with
    | nil => cases hcs
    | char _ h =>
      obtain ⟨rfl, rfl⟩ := List.cons.inj hcs
      obtain ⟨inside', rest', rfl, hrest, hlast⟩ := ih (fun hm => hpre (List.mem_cons_of_mem _ hm)) h
      refine ⟨inside', rest', rfl, hrest, fun before _ => ?_⟩
      rw [getLast?_or_cons]
      exact hlast (some c) rfl
    | name hn _ _ _ _ =>
      have hhead := congrArg List.head? hcs
      rw [hn.head?_append] at hhead
      exact absurd (Option.some.inj hhead) hc

/-- A text is aligned with another in parts, cut at a character that stands in no name. -/
theorem exists_split {as bs : List Char} {c : Char} (hc : IsPlain c)
    (h : Aligned R inside (as ++ c :: bs) cs') :
    ∃ as' bs', cs' = as' ++ c :: bs' ∧ Aligned R inside as as' ∧ Aligned R false bs bs' := by
  generalize hcs : as ++ c :: bs = cs at h
  induction h generalizing as with
  | nil => simp at hcs
  | char hd h ih =>
    rename_i d cs cs'
    cases as with
    | nil =>
      obtain ⟨rfl, rfl⟩ := List.cons.inj hcs
      rw [hc.2] at h
      exact ⟨[], cs', rfl, .nil _, h⟩
    | cons e as =>
      rw [List.cons_append] at hcs
      obtain ⟨rfl, rfl⟩ := List.cons.inj hcs
      obtain ⟨as', bs', rfl, has, hbs⟩ := ih rfl
      refine ⟨e :: as', bs', rfl, .char ?_ has, hbs⟩
      intro hinside hdollar x hx
      exact hd hinside hdollar x (by rw [List.head?_append, Option.mem_def.1 hx]; rfl)
  | name hn hn' hR hend h ih =>
    rename_i n n' cs cs'
    -- the character is not inside the name, so the name is part of what stands before it
    have hprefix : ∃ as₀, as = n.toList ++ as₀ ∧ as₀ ++ c :: bs = cs := by
      rcases List.append_eq_append_iff.1 hcs with ⟨mid, hmid, hrest⟩ | ⟨mid, hmid, hrest⟩
      · cases mid with
        | nil =>
          rw [List.append_nil] at hmid
          exact ⟨[], by rw [hmid, List.append_nil], hrest⟩
        | cons d mid =>
          obtain ⟨rfl, -⟩ := List.cons.inj hrest
          exact absurd (hmid ▸ by simp) (hn.not_mem hc)
      · exact ⟨mid, hmid, hrest.symm⟩
    obtain ⟨as₀, rfl, hcs₀⟩ := hprefix
    obtain ⟨as', bs', rfl, has, hbs⟩ := ih hcs₀
    refine ⟨n'.toList ++ as', bs', by rw [List.append_assoc], .name hn hn' hR ?_ has, hbs⟩
    intro x hx
    exact hend x (by rw [← hcs₀, List.head?_append, Option.mem_def.1 hx]; rfl)

theorem append {as as' bs bs' : List Char} {c : Char} (hc : IsPlain c)
    (h : Aligned R inside as as') (h' : Aligned R false bs bs') :
    Aligned R inside (as ++ c :: bs) (as' ++ c :: bs') := by
  have hhead : ∀ {cs : List Char}, (∀ d ∈ cs.head?, isIdentifierChar d = false) →
      ∀ d ∈ (cs ++ c :: bs).head?, isIdentifierChar d = false := by
    intro cs hcs d hd
    cases cs with
    | nil =>
      obtain rfl := Option.some.inj hd
      exact hc.2
    | cons e cs => exact hcs d hd
  induction h with
  | nil inside =>
    refine .char (fun _ hdollar => absurd hdollar hc.1) ?_
    rwa [hc.2]
  | char hd _ ih => exact .char (fun hinside hdollar => hhead (hd hinside hdollar)) ih
  | name hn hn' hR hend _ ih =>
    rw [List.append_assoc, List.append_assoc]
    exact .name hn hn' hR (hhead hend) ih

theorem append_plain {as as' : List Char} {c : Char} (hc : IsPlain c) (h : Aligned R inside as as') :
    Aligned R inside (as ++ [c]) (as' ++ [c]) :=
  h.append hc (.nil _)

theorem exists_concat {as : List Char} {c : Char} (hc : IsPlain c)
    (h : Aligned R inside (as ++ [c]) cs') : ∃ as', cs' = as' ++ [c] ∧ Aligned R inside as as' := by
  obtain ⟨as', bs', rfl, has, hbs⟩ := h.exists_split hc
  obtain rfl : bs' = [] := List.head?_eq_none_iff.1 hbs.head?_eq
  exact ⟨as', rfl, has⟩

theorem getLast?_iff {c : Char} (hc : IsPlain c) (h : Aligned R inside cs cs') :
    cs.getLast? = some c ↔ cs'.getLast? = some c := by
  have hforth : ∀ {R : String → String → Prop} {cs cs' : List Char}, Aligned R inside cs cs' →
      cs.getLast? = some c → cs'.getLast? = some c := by
    intro R cs cs' h hlast
    obtain ⟨as, rfl⟩ := List.getLast?_eq_some_iff.1 hlast
    obtain ⟨as', rfl, -⟩ := h.exists_concat hc
    exact List.getLast?_eq_some_iff.2 ⟨as', rfl⟩
  exact ⟨hforth h, hforth h.symm⟩

/-! ## Lines -/

theorem not_mem_of_not_mem {c : Char} (hc : IsPlain c) (h : Aligned R inside cs cs') (hmem : c ∉ cs) :
    c ∉ cs' := by
  intro hmem'
  obtain ⟨as', bs', rfl⟩ := List.append_of_mem hmem'
  obtain ⟨as, bs, rfl, -⟩ := h.symm.exists_split hc
  exact hmem (by simp)

/-- Aligned texts have aligned lines. -/
theorem segments (h : Aligned R false cs cs') :
    List.Forall₂ (Aligned R false) (segments cs) (segments cs') := by
  induction hlength : cs.length using Nat.strongRecOn generalizing cs cs' with
  | _ length ih =>
    have hfeed : IsPlain '\n' := by decide
    by_cases hmem : '\n' ∈ cs
    · -- both texts are cut behind the first line feed
      obtain ⟨as, bs, rfl, has⟩ := List.eq_append_cons_of_mem hmem
      obtain ⟨as', bs', rfl, hfirst, hrest⟩ := h.exists_split hfeed
      have hcut : ∀ as bs : List Char, '\n' ∉ as →
          Text.segments (as ++ '\n' :: bs) = (as ++ ['\n']) :: Text.segments bs := by
        intro as bs has
        rw [List.append_cons, segments_append (.concat as), segments_line has]
        rfl
      rw [hcut as bs has, hcut as' bs' (hfirst.not_mem_of_not_mem hfeed has)]
      exact .cons (hfirst.append_plain hfeed)
        (ih bs.length (by rw [← hlength, List.length_append, List.length_cons]; omega) hrest rfl)
    · have hmem' := h.not_mem_of_not_mem hfeed hmem
      by_cases hnil : cs = []
      · subst hnil
        obtain rfl : cs' = [] := List.head?_eq_none_iff.1 h.head?_eq
        exact .nil
      · have hnil' : cs' ≠ [] := by
          rintro rfl
          exact hnil (List.head?_eq_none_iff.1 h.head?_eq.symm)
        rw [segments_of_not_mem hmem hnil, segments_of_not_mem hmem' hnil']
        exact .cons h .nil

theorem chomp (h : Aligned R inside cs cs') : Aligned R inside (chomp cs) (chomp cs') := by
  have hfeed : IsPlain '\n' := by decide
  have hcarriage : IsPlain '\r' := by decide
  by_cases hlast : cs.getLast? = some '\n'
  · obtain ⟨as, rfl⟩ := List.getLast?_eq_some_iff.1 hlast
    obtain ⟨as', rfl, has⟩ := h.exists_concat hfeed
    by_cases hbefore : as.getLast? = some '\r'
    · obtain ⟨init, rfl⟩ := List.getLast?_eq_some_iff.1 hbefore
      obtain ⟨init', rfl, hinit⟩ := has.exists_concat hcarriage
      rw [List.append_assoc, List.append_assoc]
      show Aligned R inside (Text.chomp (init ++ ['\r', '\n'])) (Text.chomp (init' ++ ['\r', '\n']))
      rwa [chomp_carriage, chomp_carriage]
    · rwa [chomp_feed hbefore, chomp_feed (mt (has.getLast?_iff hcarriage).2 hbefore)]
  · rwa [chomp_open hlast, chomp_open (mt (h.getLast?_iff hfeed).2 hlast)]

theorem head?_dropWhile (h : Aligned R inside cs cs') :
    (cs'.dropWhile isWhite).head? = (cs.dropWhile isWhite).head? := by
  have hname : ∀ {n : String}, IsName n → ∀ cs : List Char,
      ((n.toList ++ cs).dropWhile isWhite).head? = some '$' := by
    rintro n ⟨run, -, -, heq⟩ cs
    rw [heq, List.cons_append, List.dropWhile_cons_of_neg (by decide)]
    rfl
  induction h with
  | nil => rfl
  | char _ _ ih =>
    rename_i c cs cs'
    rw [List.dropWhile_cons, List.dropWhile_cons]
    split
    · exact ih
    · rfl
  | name hn hn' _ _ _ _ => rw [hname hn, hname hn']

end Aligned

/-! ## Reading -/

section

variable (R : String → String → Prop)

def AlignedLine (line line' : SourceLine) : Prop :=
  line'.number = line.number ∧ Aligned R false line.text.toList line'.text.toList

/-- Blocks end with a line feed, so that the next line can be joined to them. -/
def AlignedBlock (b b' : Block) : Prop :=
  b'.startLine = b.startLine ∧ b'.depth = b.depth ∧
    ∃ t t', b.text.toList = t ++ ['\n'] ∧ b'.text.toList = t' ++ ['\n'] ∧ Aligned R false t t'

def AlignedExpression (e e' : Expression) : Prop :=
  e'.startLine = e.startLine ∧ e'.endLine = e.endLine ∧
    Aligned R false e.text.toList e'.text.toList

def AlignedRemainder (r r' : Remainder) : Prop :=
  r'.startLine = r.startLine ∧ r'.depth = r.depth ∧
    Aligned R false r.text.toList r'.text.toList

end

variable {R : String → String → Prop}

theorem forall₂_zipIdx {α β : Type} {P : α → β → Prop} {l : List α} {l' : List β}
    (h : List.Forall₂ P l l') (k : Nat) :
    List.Forall₂ (fun a b => b.2 = a.2 ∧ P a.1 b.1) (l.zipIdx k) (l'.zipIdx k) := by
  induction h generalizing k with
  | nil => exact .nil
  | cons hp _ ih => exact .cons ⟨rfl, hp⟩ (ih (k + 1))

theorem alignedLine_ofSource {source source' : String}
    (h : Aligned R false source.toList source'.toList) :
    List.Forall₂ (AlignedLine R) (SourceLine.ofSource source) (SourceLine.ofSource source') := by
  have hlines : List.Forall₂ (fun l l' : String => Aligned R false l.toList l'.toList)
      (Text.lines source) (Text.lines source') := by
    unfold Text.lines
    rw [List.forall₂_map_left_iff, List.forall₂_map_right_iff]
    refine h.segments.imp fun seg seg' hseg => ?_
    rw [String.toList_ofList, String.toList_ofList]
    exact hseg.chomp
  unfold SourceLine.ofSource
  rw [List.forall₂_map_left_iff, List.forall₂_map_right_iff]
  refine (forall₂_zipIdx hlines 1).imp ?_
  rintro ⟨text, n⟩ ⟨text', n'⟩ ⟨hn, htext⟩
  obtain rfl : n' = n := hn
  exact ⟨rfl, htext⟩

/-- Aligned lines are skipped together. -/
theorem isSkipped_eq_of_aligned {line line' : SourceLine} (h : AlignedLine R line line') :
    line'.isSkipped = line.isSkipped := by
  have hhead := h.2.head?_dropWhile
  unfold SourceLine.isSkipped
  cases hcs : line.text.toList.dropWhile isWhite with
  | nil =>
    rw [hcs, List.head?_nil, List.head?_eq_none_iff] at hhead
    rw [hhead]
  | cons c cs =>
    rw [hcs, List.head?_cons, List.head?_eq_some_iff] at hhead
    obtain ⟨cs', hcs'⟩ := hhead
    rw [hcs']

theorem alignedBlock_extend {block block' : Option Block} {line line' : SourceLine}
    (hblock : Option.Rel (AlignedBlock R) block block') (hline : AlignedLine R line line') :
    AlignedBlock R (Block.extend block line) (Block.extend block' line') := by
  have hfeed : IsPlain '\n' := by decide
  cases hblock with
  | none =>
    refine ⟨hline.1, hline.2.depth_eq, line.text.toList, line'.text.toList, ?_, ?_, hline.2⟩
    · exact String.toList_append
    · exact String.toList_append
  | some h =>
    rename_i b b'
    obtain ⟨hstart, hdepth, t, t', ht, ht', haligned⟩ := h
    have hjoin : ∀ {text : String} {t : List Char}, text.toList = t ++ ['\n'] → ∀ more : String,
        (text ++ more ++ "\n").toList = t ++ '\n' :: more.toList ++ ['\n'] := by
      intro text t htext more
      rw [String.toList_append, String.toList_append, htext, List.append_assoc t]
      rfl
    refine ⟨hstart, ?_, t ++ '\n' :: line.text.toList, t' ++ '\n' :: line'.text.toList,
      hjoin ht line.text, hjoin ht' line'.text, haligned.append hfeed hline.2⟩
    show b'.depth + _ = b.depth + _
    rw [hdepth, hline.2.depth_eq]

theorem AlignedBlock.text {b b' : Block} (h : AlignedBlock R b b') :
    Aligned R false b.text.toList b'.text.toList := by
  obtain ⟨-, -, t, t', ht, ht', haligned⟩ := h
  rw [ht, ht']
  exact haligned.append_plain (by decide)

/-- Aligned lines are read into aligned expressions, block by block. -/
theorem readFrom_aligned {lines lines' : List SourceLine} {block block' : Option Block}
    (hlines : List.Forall₂ (AlignedLine R) lines lines')
    (hblock : Option.Rel (AlignedBlock R) block block') :
    List.Forall₂ (AlignedExpression R) (readFrom block lines).expressions
        (readFrom block' lines').expressions ∧
      Option.Rel (AlignedRemainder R) (readFrom block lines).remainder
        (readFrom block' lines').remainder := by
  induction hlines generalizing block block' with
  | nil =>
    refine ⟨.nil, ?_⟩
    cases hblock with
    | none => exact .none
    | some h => exact .some ⟨h.1, h.2.1, h.text⟩
  | @cons line line' lines lines' hline _ ih =>
    have hskip := isSkipped_eq_of_aligned hline
    have hextend := alignedBlock_extend hblock hline
    by_cases hs : line.isSkipped = true
    · rw [readFrom_skipped hs, readFrom_skipped (hskip.trans hs)]
      exact ih hblock
    · have hs' : ¬ line'.isSkipped = true := by rwa [hskip]
      by_cases hzero : (Block.extend block line).depth = 0
      · rw [readFrom_complete hs hzero, readFrom_complete hs' (hextend.2.1.trans hzero)]
        obtain ⟨hexpressions, hremainder⟩ := ih Option.Rel.none
        exact ⟨.cons ⟨hextend.1, hline.1, hextend.text⟩ hexpressions, hremainder⟩
      · have hzero' : ¬ (Block.extend block' line').depth = 0 := by rwa [hextend.2.1]
        rw [readFrom_open hs hzero, readFrom_open hs' hzero']
        exact ih (.some hextend)

/-- Aligned sources are read into aligned expressions on the same lines. -/
theorem read_aligned {source source' : String} (h : Aligned R false source.toList source'.toList) :
    List.Forall₂ (AlignedExpression R) (read source).expressions (read source').expressions ∧
      Option.Rel (AlignedRemainder R) (read source).remainder (read source').remainder :=
  readFrom_aligned (alignedLine_ofSource h) .none

end DefUse
