import DefUse.Proofs.Encoding
import Mathlib.Order.Bounds.Basic

/-!
# Positions in the bytes of a text

Three kinds of positions decide which references an expression binds, and each is said here on the
bytes alone:

- `IsFirstSolid bs start p`: `p` is the first position from `start` on that is not blank;
- `IsGroupEnd bs p e`: the group that opens at `p` ends at `e`, the least end at which the net depth
  from `p` on is zero, or the end of the text if there is none;
- `IsHeadOf bs q o`: before `o` there are only blanks back to an opening parenthesis at `q`.

Each position is determined by its rule.  Skipping blanks finds the first (`isFirstSolid_skip`),
`Nesting.groupEnd` the second (`isGroupEnd_groupEnd`), and the third is a split of the characters
(`isHeadOf_iff`).  A group that is closed ends with a closing parenthesis (`closed_or_end`).
-/

namespace DefUse.Position

open Text

def IsFirstSolid (bs : List UInt8) (start p : Nat) : Prop :=
  IsLeast {k | start ≤ k ∧ ∀ b ∈ bs[k]?, isBlankByte b = false} p

/-- The ends at which what opens at `p` is balanced. -/
def closings (bs : List UInt8) (p : Nat) : Set Nat :=
  {k | p < k ∧ k ≤ bs.length ∧ byteDepth ((bs.take k).drop p) = 0}

def IsGroupEnd (bs : List UInt8) (p e : Nat) : Prop :=
  IsLeast (closings bs p) e ∨ closings bs p = ∅ ∧ e = bs.length

def IsHeadOf (bs : List UInt8) (q o : Nat) : Prop :=
  bs[q]? = some openByte ∧ IsGreatest {k | k < o ∧ ∃ b ∈ bs[k]?, isBlankByte b = false} q

theorem IsFirstSolid.unique {bs : List UInt8} {start p p' : Nat} (h : IsFirstSolid bs start p)
    (h' : IsFirstSolid bs start p') : p = p' :=
  IsLeast.unique h h'

theorem IsGroupEnd.unique {bs : List UInt8} {p e e' : Nat} (h : IsGroupEnd bs p e)
    (h' : IsGroupEnd bs p e') : e = e' := by
  rcases h with h | ⟨hnone, rfl⟩
  · rcases h' with h' | ⟨hnone', -⟩
    · exact IsLeast.unique h h'
    · have := h.1
      rw [hnone'] at this
      cases this
  · rcases h' with h' | ⟨-, rfl⟩
    · have := h'.1
      rw [hnone] at this
      cases this
    · rfl

/-! ## Blanks -/

theorem isFirstSolid_skip {blanks rest : List Char} (hblank : ∀ c ∈ blanks, isBlank c = true)
    (hrest : ∀ c ∈ rest.head?, isBlank c = false) (pre : List Char) :
    IsFirstSolid (encode (pre ++ (blanks ++ rest))) (byteLength pre)
      (byteLength pre + byteLength blanks) := by
  constructor
  · refine ⟨by omega, ?_⟩
    intro b hb
    rw [← byteLength_append, ← List.append_assoc, ← Nat.add_zero (byteLength _),
      getElem?_encode_append_add] at hb
    cases rest with
    | nil => cases hb
    | cons c rest =>
      rw [encode_cons, List.getElem?_append_left
        (by rw [String.length_utf8EncodeChar]; exact c.utf8Size_pos)] at hb
      rw [isBlankByte_of_mem (List.mem_of_getElem? hb), hrest c rfl]
  · rintro k ⟨hk, hsolid⟩
    apply Nat.le_of_not_lt
    intro hlt
    obtain ⟨b, hb, hkb⟩ := exists_mem_encode_of_between pre blanks rest hk hlt
    have := hsolid b hkb
    rw [isBlankByte_of_mem_encode hblank hb] at this
    cases this

/-- A place is the head of a group if only blanks stand between it and the parenthesis. -/
theorem isHeadOf_iff (u post : List Char) (q : Nat) :
    IsHeadOf (encode (u ++ post)) q (byteLength u) ↔
      ∃ u₁ u₂, u = u₁ ++ '(' :: u₂ ∧ byteLength u₁ = q ∧ ∀ c ∈ u₂, isBlank c = true := by
  have hlen : ∀ u₁ u₂ : List Char, byteLength (u₁ ++ '(' :: u₂) = byteLength u₁ + 1 + byteLength u₂ := by
    intro u₁ u₂
    rw [byteLength_append, byteLength_cons, ← Nat.add_assoc]
    rfl
  constructor
  · rintro ⟨hq, ⟨hlt, -⟩, hmax⟩
    rw [encode_append, List.getElem?_append_left (by rw [length_encode]; exact hlt)] at hq
    obtain ⟨u₁, u₂, rfl, rfl⟩ := exists_split_of_byte (d := '(') (by decide) hq
    refine ⟨u₁, u₂, rfl, rfl, fun c hc => isBlank_of_encode ?_ hc⟩
    intro b hb
    apply Classical.byContradiction
    intro hsolid
    obtain ⟨j, hj, rfl⟩ := List.mem_iff_getElem.1 hb
    have hk : (encode (u₁ ++ '(' :: u₂ ++ post))[byteLength u₁ + 1 + j]? = some (encode u₂)[j] := by
      have h := getElem?_encode_append_add (u₁ ++ ['(']) (u₂ ++ post) j
      rw [hlen u₁ [], encode_append u₂, List.getElem?_append_left hj,
        List.getElem?_eq_getElem hj] at h
      simpa using h
    rw [length_encode] at hj
    have := hmax ⟨by rw [hlen]; omega, _, hk, by simpa using hsolid⟩
    omega
  · rintro ⟨u₁, u₂, rfl, rfl, hblank⟩
    have hopen : (encode (u₁ ++ '(' :: u₂ ++ post))[byteLength u₁]? = some openByte := by
      rw [List.append_assoc, List.cons_append, getElem?_encode_append (by decide)]
      rfl
    refine ⟨hopen, ⟨by rw [hlen]; omega, openByte, hopen, rfl⟩, ?_⟩
    rintro k ⟨hk, b, hb, hsolid⟩
    apply Nat.le_of_not_lt
    intro hlt
    rw [hlen] at hk
    obtain ⟨b', hb', hkb⟩ := exists_mem_encode_of_between (u₁ ++ ['(']) u₂ post (k := k)
      (by rw [hlen, byteLength_nil]; omega) (by rw [hlen, byteLength_nil]; omega)
    have hsame : u₁ ++ ['('] ++ (u₂ ++ post) = u₁ ++ '(' :: u₂ ++ post := by simp
    rw [hsame, hb, Option.some.injEq] at hkb
    subst hkb
    rw [isBlankByte_of_mem_encode hblank hb'] at hsolid
    cases hsolid

theorem open_iff (before after : List Char) :
    (encode (before ++ after))[byteLength before]? = some openByte ↔
      ∃ inside, after = '(' :: inside :=
  getElem?_encode_eq_iff (c := '(') (by decide) before after

/-! ## Groups -/

/-- With `inner` groups open at `offset`, where `bs` start, the depth does not fall below zero
before `e`; it does at `e`, unless `e` is the end. -/
structure Leaves (inner : Int) (offset e : Nat) (bs : List UInt8) : Prop where
  nonneg : ∀ n, offset + n < e → 0 ≤ inner + byteDepth (bs.take n)
  ends : offset < e ∧ e ≤ offset + bs.length ∧ inner + byteDepth (bs.take (e - offset)) = -1 ∨
    e = offset + bs.length ∧ 0 ≤ inner + byteDepth bs

/-- One more character in front, which changes the number of open groups by its weight. -/
theorem Leaves.cons {inner : Int} {offset e : Nat} {c : Char} {cs : List Char} (hinner : 0 ≤ inner)
    (h : Leaves (inner + Nesting.weight c) (offset + c.utf8Size) e (encode cs)) :
    Leaves inner offset e (encode (c :: cs)) := by
  obtain ⟨hnonneg, hends⟩ := h
  have hlen : (encode (c :: cs)).length = c.utf8Size + (encode cs).length := by simp
  constructor
  · intro n hn
    rw [byteDepth_take_cons]
    split
    · have := hnonneg (n - c.utf8Size) (by omega)
      omega
    · rw [Nat.sub_eq_zero_of_le (by omega), List.take_zero, byteDepth_nil]
      omega
  · rcases hends with ⟨h₁, h₂, h₃⟩ | ⟨h₁, h₂⟩
    · refine Or.inl ⟨by omega, by omega, ?_⟩
      rw [byteDepth_take_cons, if_pos (by omega), Nat.sub_sub]
      omega
    · refine Or.inr ⟨by omega, ?_⟩
      rw [byteDepth_encode] at h₂ ⊢
      rw [Nesting.depth_cons]
      omega

/-- The computed end of a group is where the depth first falls below zero, or the end of the text. -/
theorem leaves_groupEnd (inner offset : Nat) (cs : List Char) :
    Leaves inner offset (Nesting.groupEnd inner offset cs) (encode cs) := by
  fun_induction Nesting.groupEnd inner offset cs with
  | case1 inner offset => exact ⟨fun n hn => by omega, Or.inr ⟨rfl, by simp⟩⟩
  | case2 inner offset cs ih => exact Leaves.cons (by omega) ih
  | case3 offset cs =>
    have hsize : Char.utf8Size ')' = 1 := rfl
    refine ⟨fun n hn => ?_, Or.inl ⟨by omega, by simp, ?_⟩⟩
    · rw [byteDepth_take_cons, if_neg (by omega), Nat.sub_eq_zero_of_le (by omega)]
      simp
    · rw [byteDepth_take_cons, if_pos (by omega), Nat.add_sub_cancel_left, Nat.sub_self]
      rfl
  | case4 offset cs inner hne ih =>
    apply Leaves.cons (by omega)
    have hw : ((inner + 1 : Nat) : Int) + Nesting.weight ')' = inner := by
      have : Nesting.weight ')' = -1 := rfl
      omega
    rwa [hw]
  | case5 inner offset c cs hopen hclose ih =>
    apply Leaves.cons (by omega)
    have hw : Nesting.weight c = 0 := by
      rw [Nesting.weight, if_neg hopen, if_neg hclose]
    rwa [hw, Int.add_zero]

section

variable (before inside : List Char)

theorem byteDepth_group (n : Nat) :
    byteDepth (((encode (before ++ '(' :: inside)).take (byteLength before + 1 + n)).drop
      (byteLength before)) = 1 + byteDepth ((encode inside).take n) := by
  rw [List.drop_take, encode_append, List.drop_left' (length_encode before),
    show byteLength before + 1 + n - byteLength before = 1 + n by omega, byteDepth_take_cons]
  have hsize : Char.utf8Size '(' = 1 := rfl
  rw [hsize, if_pos (by omega), Nat.add_sub_cancel_left]
  rfl

theorem length_group : (encode (before ++ '(' :: inside)).length =
    byteLength before + 1 + (encode inside).length := by
  rw [length_encode, length_encode, byteLength_append, byteLength_cons, Nat.add_assoc]
  rfl

/-- The group is closed where it ends, or it is never closed and the depth behind it stays above that
before it. -/
theorem isLeast_closings_or_open :
    IsLeast (closings (encode (before ++ '(' :: inside)) (byteLength before))
        (Nesting.groupEnd 0 (byteLength before + 1) inside) ∨
      closings (encode (before ++ '(' :: inside)) (byteLength before) = ∅ ∧
        Nesting.groupEnd 0 (byteLength before + 1) inside =
          (encode (before ++ '(' :: inside)).length ∧
        0 ≤ Nesting.depth inside := by
  have hlen := length_group before inside
  obtain ⟨hnonneg, hends⟩ := leaves_groupEnd 0 (byteLength before + 1) inside
  -- an end at which the group is balanced is never before the one that was found
  have hmin : ∀ k ∈ closings (encode (before ++ '(' :: inside)) (byteLength before),
      Nesting.groupEnd 0 (byteLength before + 1) inside ≤ k := by
    rintro k ⟨hk, -, hzero⟩
    apply Nat.le_of_not_lt
    intro hlt
    obtain ⟨n, rfl⟩ := Nat.le.dest hk
    have := hnonneg n hlt
    rw [byteDepth_group] at hzero
    omega
  generalize Nesting.groupEnd 0 (byteLength before + 1) inside = e at *
  rcases hends with ⟨h₁, h₂, h₃⟩ | ⟨h₁, h₂⟩
  · left
    refine ⟨⟨by omega, by omega, ?_⟩, hmin⟩
    obtain ⟨n, rfl⟩ := Nat.le.dest (Nat.le_of_lt h₁)
    rw [Nat.add_sub_cancel_left] at h₃
    rw [byteDepth_group]
    omega
  · right
    refine ⟨Set.eq_empty_iff_forall_notMem.2 ?_, by omega, ?_⟩
    · rintro k hk
      have hke := hmin k hk
      obtain ⟨-, hkl, hzero⟩ := hk
      have hk : k = byteLength before + 1 + (encode inside).length := by omega
      rw [hk, byteDepth_group, List.take_length] at hzero
      omega
    · rw [byteDepth_encode] at h₂
      omega

/-- The computed end of a group is its end by the depth of the bytes. -/
theorem isGroupEnd_groupEnd :
    IsGroupEnd (encode (before ++ '(' :: inside)) (byteLength before)
      (Nesting.groupEnd 0 (byteLength before + 1) inside) :=
  (isLeast_closings_or_open before inside).imp_right fun ⟨hnone, hend, _⟩ => ⟨hnone, hend⟩

/-- A group ends with a closing parenthesis or with the text. -/
theorem closed_or_end :
    Nesting.groupEnd 0 (byteLength before + 1) inside = (encode (before ++ '(' :: inside)).length ∨
      ∃ k, Nesting.groupEnd 0 (byteLength before + 1) inside = k + 1 ∧ byteLength before < k ∧
        (encode (before ++ '(' :: inside))[k]? = some closeByte := by
  have hlen := length_group before inside
  obtain ⟨hnonneg, hends⟩ := leaves_groupEnd 0 (byteLength before + 1) inside
  generalize Nesting.groupEnd 0 (byteLength before + 1) inside = e at *
  rcases hends with ⟨h₁, h₂, h₃⟩ | ⟨h₁, -⟩
  · right
    obtain ⟨n, rfl⟩ := Nat.le.dest h₁
    refine ⟨byteLength before + 1 + n, by omega, by omega, ?_⟩
    have hn : n < (encode inside).length := by omega
    -- the depth falls below zero only with the last byte, so that byte closes
    have hlast : byteWeight (encode inside)[n] = -1 := by
      have hbefore := hnonneg n (by omega)
      rw [show byteLength before + 1 + 1 + n - (byteLength before + 1) = n + 1 by omega,
        List.take_add_one, List.getElem?_eq_getElem hn, byteDepth_append] at h₃
      simp only [Option.toList_some, byteDepth_cons, byteDepth_nil] at h₃
      have hweight : -1 ≤ byteWeight (encode inside)[n] := by
        unfold byteWeight
        split
        · omega
        · split <;> omega
      omega
    have hbyte : (encode inside)[n] = closeByte := by
      unfold byteWeight at hlast
      split at hlast
      · omega
      · split at hlast
        · assumption
        · omega
    have h := getElem?_encode_append_add (before ++ ['(']) inside n
    rw [List.append_assoc, List.singleton_append, byteLength_append, List.getElem?_eq_getElem hn,
      hbyte] at h
    exact h
  · left
    omega

end

end DefUse.Position
