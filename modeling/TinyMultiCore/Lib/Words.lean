import TinyMultiCore.Lib.Memory

/-!
# Rows of words in a byte memory

A row of words from `a` on, `k` bytes each, as a run of pushes leaves it.

* `Range a n x` — `x` is one of the `n` bytes from `a`;
* `storeWords` — a row written, with `storeWords_outside` and `load_storeWords`;
* `load_of_agree` — what is read depends on the bytes of its range only.
-/

namespace ByteMemory

variable {w : Nat} {m m' : Memory w} {a b x : BitVec w} {k n : Nat}

/-- One of the `n` bytes from `a`. -/
def Range (a : BitVec w) (n : Nat) (x : BitVec w) : Prop := (x - a).toNat < n

instance : Decidable (Range a n x) := inferInstanceAs (Decidable (_ < _))

theorem range_add {i : Nat} (hi : i < n) (hn : n ≤ 2 ^ w) : Range a n (a + BitVec.ofNat w i) := by
  rw [Range, BitVec.add_comm, BitVec.add_sub_cancel, BitVec.toNat_ofNat,
    Nat.mod_eq_of_lt (lt_of_lt_of_le hi hn)]
  exact hi

/-- The place of a byte in a range that has another one inside. -/
theorem sub_toNat_of_range (hx : Range b n x) (hin : (b - a).toNat + n ≤ 2 ^ w) :
    (x - a).toNat = (b - a).toNat + (x - b).toNat := by
  have hsum : x - a = (b - a) + (x - b) := by grind
  rw [hsum, BitVec.toNat_add, Nat.mod_eq_of_lt]
  exact lt_of_lt_of_le (Nat.add_lt_add_left hx _) hin

/-- A range that lies inside another one. -/
theorem Range.widen {size : Nat} (hx : Range b n x) (hin : (b - a).toNat + n ≤ size)
    (hsize : size ≤ 2 ^ w) : Range a size x := by
  rw [Range, sub_toNat_of_range hx (hin.trans hsize)]
  exact lt_of_lt_of_le (Nat.add_lt_add_left hx _) hin

theorem load_of_agree (h : ∀ x, Range a n x → m' x = m x) (hn : n ≤ 2 ^ w) :
    load m' a n = load m a n :=
  load_congr fun _ hi => h _ (range_add hi hn)

theorem store_outside {v : Nat} (h : ¬Range a n x) : store m a n v x = m x := if_neg h

/-- The words of a row, from `a` on. -/
def storeWords (k : Nat) : Memory w → BitVec w → List Nat → Memory w
  | m, _, [] => m
  | m, a, v :: vs => storeWords k (store m a k v) (a + BitVec.ofNat w k) vs

/-- Behind the first word of a row. -/
theorem Range.tail {l : Nat} (hx : Range (a + BitVec.ofNat w k) l x) (h : k + l ≤ 2 ^ w) :
    k ≤ (x - a).toNat ∧ (x - a).toNat < k + l := by
  rcases Nat.eq_zero_or_pos l with rfl | hl
  · exact absurd hx (Nat.not_lt_zero _)
  have hk : (a + BitVec.ofNat w k - a).toNat = k := by
    rw [BitVec.add_comm, BitVec.add_sub_cancel, BitVec.toNat_ofNat, Nat.mod_eq_of_lt (by omega)]
  rw [sub_toNat_of_range hx (by rw [hk]; exact h), hk]
  exact ⟨Nat.le_add_right _ _, Nat.add_lt_add_left hx _⟩

theorem storeWords_outside {vs : List Nat} (hn : k * vs.length ≤ 2 ^ w)
    (hx : ¬Range a (k * vs.length) x) : storeWords k m a vs x = m x := by
  induction vs generalizing m a with
  | nil => rfl
  | cons v vs ih =>
    rw [List.length_cons, Nat.mul_add_one, Nat.add_comm] at hn hx
    rw [storeWords, ih (by omega) fun htail => hx (htail.tail hn).2]
    exact store_outside fun hhead => hx (Nat.lt_of_lt_of_le hhead (Nat.le_add_right _ _))

/-- A word of a row reads back. -/
theorem load_storeWords {vs : List Nat} (hn : k * vs.length ≤ 2 ^ w) {i : Nat}
    (hi : i < vs.length) :
    load (storeWords k m a vs) (a + BitVec.ofNat w (k * i)) k = vs[i] % 256 ^ k := by
  induction vs generalizing m a i with
  | nil => exact absurd hi (Nat.not_lt_zero _)
  | cons v vs ih =>
    rw [List.length_cons, Nat.mul_add_one, Nat.add_comm] at hn
    cases i with
    | zero =>
      -- the later words leave the first one
      rw [storeWords, Nat.mul_zero, show a + BitVec.ofNat w 0 = a from BitVec.add_zero a]
      rw [load_of_agree (m := store m a k v) ?_ (by omega), load_store _ _ _ (by omega)]
      · rfl
      · intro x hx
        exact storeWords_outside (by omega) fun htail =>
          absurd (htail.tail hn).1 (Nat.not_le.mpr hx)
    | succ i =>
      have haddr : a + BitVec.ofNat w (k * (i + 1)) =
          a + BitVec.ofNat w k + BitVec.ofNat w (k * i) := by
        rw [BitVec.add_assoc, ← BitVec.ofNat_add, Nat.mul_add_one, Nat.add_comm]
      rw [storeWords, haddr, ih (by omega) (Nat.lt_of_succ_lt_succ hi)]
      rfl

end ByteMemory
