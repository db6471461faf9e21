/-!
# Decimal numerals

Numbers are written in decimal, most significant digit first, without leading zeros; a negative
number has a minus sign in front.

Main fact: the digits of a number read back as that number (`value_digits`).
-/

namespace DefUse.Text.Decimal

/-- The digit for `d < 10`. -/
def digit (d : Nat) : Char := Char.ofNat (d + 48)

/-- The decimal digits of `n`; `0` is written `0`. -/
def digits (n : Nat) : List Char :=
  if n < 10 then [digit n] else digits (n / 10) ++ [digit (n % 10)]
termination_by n
decreasing_by omega

/-- The number that a list of digits stands for. -/
def value (cs : List Char) : Nat :=
  cs.foldl (fun n c => 10 * n + (c.toNat - 48)) 0

/-- A natural number in decimal. -/
def ofNat (n : Nat) : String := String.ofList (digits n)

/-- An integer in decimal. -/
def ofInt : Int → String
  | .ofNat n => ofNat n
  | .negSucc n => "-" ++ ofNat (n + 1)

theorem toNat_digit : ∀ {d : Nat}, d < 10 → (digit d).toNat = d + 48 := by
  decide

theorem value_concat (cs : List Char) (c : Char) :
    value (cs ++ [c]) = 10 * value cs + (c.toNat - 48) := by
  simp [value]

theorem value_digits (n : Nat) : value (digits n) = n := by
  induction n using digits.induct with
  | case1 n h => rw [digits, if_pos h]; simp [value, toNat_digit h]
  | case2 n h ih =>
    rw [digits, if_neg h, value_concat, ih, toNat_digit (Nat.mod_lt _ (by omega))]
    omega

theorem exists_digit_of_mem_digits {n : Nat} {c : Char} (h : c ∈ digits n) :
    ∃ d < 10, c = digit d := by
  induction n using digits.induct with
  | case1 n hn =>
    rw [digits, if_pos hn, List.mem_singleton] at h
    exact ⟨n, hn, h⟩
  | case2 n hn ih =>
    rw [digits, if_neg hn, List.mem_append, List.mem_singleton] at h
    rcases h with h | h
    · exact ih h
    · exact ⟨n % 10, Nat.mod_lt _ (by omega), h⟩

theorem isDigit_digit : ∀ {d : Nat}, d < 10 → (digit d).isDigit = true := by
  decide

theorem isDigit_of_mem_digits {n : Nat} {c : Char} (h : c ∈ digits n) : c.isDigit = true := by
  obtain ⟨d, hd, rfl⟩ := exists_digit_of_mem_digits h
  exact isDigit_digit hd

theorem not_mem_digits {c : Char} (h : c.isDigit = false) (n : Nat) : c ∉ digits n := by
  intro hmem
  rw [isDigit_of_mem_digits hmem] at h
  cases h

theorem digits_ne_nil (n : Nat) : digits n ≠ [] := by
  rw [digits]
  split <;> simp

/-- A number other than zero has no zero in front. -/
theorem head?_digits {n : Nat} (h : 0 < n) : (digits n).head? ≠ some '0' := by
  induction n using digits.induct with
  | case1 n hn =>
    rw [digits, if_pos hn]
    intro hzero
    have hdigit := toNat_digit hn
    rw [Option.some.inj hzero] at hdigit
    have : '0'.toNat = 48 := rfl
    omega
  | case2 n hn ih =>
    have ih := ih (by omega)
    rw [digits, if_neg hn]
    cases hdigits : digits (n / 10) with
    | nil => exact absurd hdigits (digits_ne_nil _)
    | cons d ds => rwa [hdigits] at ih

end DefUse.Text.Decimal
