import Mathlib.Data.Nat.Digits.Lemmas

/-!
# Numerals

The digits of a number as they are written down: the most significant one first, and one
digit for zero. A loop that divides by the base finds them in the other order, `lowDigits`.

* `lowDigits_of_lt`, `lowDigits_of_div_ne` — one turn of such a loop;
* `length_lowDigits_le` — how many there are;
* `value_numeral`, `numeral_head` — a numeral spells its number, without a leading zero.
-/

namespace Positional

/-- The digits in base `b`, least significant first, and at least one. -/
def lowDigits (b n : Nat) : List Nat := if n = 0 then [0] else Nat.digits b n

/-- The digits as they are written. -/
def numeral (b n : Nat) : List Nat := (lowDigits b n).reverse

/-- The number that digits spell. -/
def value (b : Nat) (ds : List Nat) : Nat := ds.foldl (fun acc d => b * acc + d) 0

variable {b n : Nat}

-- ---------------------------------------------------------------------------
-- The digits one by one
-- ---------------------------------------------------------------------------

theorem lowDigits_ne_nil : lowDigits b n ≠ [] := by
  unfold lowDigits
  by_cases h0 : n = 0
  · rw [if_pos h0]
    simp
  · rw [if_neg h0, ne_eq, Nat.digits_eq_nil_iff_eq_zero]
    exact h0

theorem lowDigits_of_lt (hn : n < b) : lowDigits b n = [n] := by
  unfold lowDigits
  by_cases h0 : n = 0
  · rw [if_pos h0, h0]
  · rw [if_neg h0, Nat.digits_of_lt b n h0 hn]

theorem lowDigits_of_div_ne (hb : 1 < b) (hn : n / b ≠ 0) :
    lowDigits b n = (n % b) :: lowDigits b (n / b) := by
  have h0 : n ≠ 0 := by
    rintro rfl
    exact hn (Nat.zero_div b)
  unfold lowDigits
  rw [if_neg h0, if_neg hn, Nat.digits_def' hb (Nat.pos_of_ne_zero h0)]

theorem lowDigits_lt (hb : 1 < b) {d : Nat} (hd : d ∈ lowDigits b n) : d < b := by
  unfold lowDigits at hd
  by_cases h0 : n = 0
  · rw [if_pos h0] at hd
    rw [List.mem_singleton.mp hd]
    omega
  · rw [if_neg h0] at hd
    exact Nat.digits_lt_base hb hd

theorem length_lowDigits_le (hb : 1 < b) {k : Nat} (hk : 0 < k) (hn : n < b ^ k) :
    (lowDigits b n).length ≤ k := by
  unfold lowDigits
  by_cases h0 : n = 0
  · rw [if_pos h0]
    exact hk
  · rw [if_neg h0]
    exact (Nat.digits_length_le_iff hb n).mpr hn

-- ---------------------------------------------------------------------------
-- Numerals
-- ---------------------------------------------------------------------------

theorem numeral_ne_nil : numeral b n ≠ [] :=
  fun h => lowDigits_ne_nil (List.reverse_eq_nil_iff.mp h)

theorem numeral_lt (hb : 1 < b) {d : Nat} (hd : d ∈ numeral b n) : d < b :=
  lowDigits_lt hb (List.mem_reverse.mp hd)

/-- **A numeral spells its number.** -/
theorem value_numeral : value b (numeral b n) = n := by
  have hvalue : value b (numeral b n) = Nat.ofDigits b (lowDigits b n) := by
    unfold value numeral
    rw [List.foldl_reverse, Nat.ofDigits_eq_foldr]
    simp only [Nat.cast_id, Nat.add_comm]
  rw [hvalue]
  unfold lowDigits
  by_cases h0 : n = 0
  · rw [if_pos h0, h0]
    rfl
  · rw [if_neg h0, Nat.ofDigits_digits]

/-- Only zero begins with a zero. -/
theorem numeral_head (h : (numeral b n).head? = some 0) : numeral b n = [0] := by
  unfold numeral lowDigits at h ⊢
  by_cases h0 : n = 0
  · rw [if_pos h0]
    rfl
  · rw [if_neg h0, List.head?_reverse] at h
    have hlast := Nat.getLast_digit_ne_zero b h0
    rw [List.getLast?_eq_some_getLast (Nat.digits_ne_nil_iff_ne_zero.mpr h0)] at h
    exact absurd (Option.some.inj h) hlast

end Positional
