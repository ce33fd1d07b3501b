import Mathlib.Data.Nat.Notation
import Mathlib.Algebra.Order.Ring.Nat

/-!
# Byte memories

A memory over `w`-bit addresses is a function from addresses to bytes. Ranges wrap
around the end of the address space, so a byte's place in the range from `a` on is
`(x - a).toNat`.

* `blit` — bytes written to a range (`memcpy`, `memset`), with `blit_blit` for two
  ranges one behind the other;
* `load` and `store` — the little-endian number in a range.
-/

namespace ByteMemory

/-- Memory with `w`-bit addresses. -/
abbrev Memory (w : Nat) := BitVec w → BitVec 8

variable {w : Nat}

/-- `m` after the bytes `f 0, f 1, …` have been written to the `n` bytes from `a`. -/
def blit (m : Memory w) (a : BitVec w) (n : Nat) (f : Nat → BitVec 8) : Memory w :=
  fun x => if (x - a).toNat < n then f (x - a).toNat else m x

/-- The number spelled by the bytes `f 0, …, f (n - 1)`, least significant first. -/
def leValue (f : Nat → BitVec 8) : Nat → Nat
  | 0 => 0
  | n + 1 => leValue f n + (f n).toNat * 256 ^ n

/-- The little-endian number in the `n` bytes from `a`. -/
def load (m : Memory w) (a : BitVec w) (n : Nat) : Nat :=
  leValue (fun i => m (a + BitVec.ofNat w i)) n

/-! ## `blit` -/

@[simp] theorem blit_zero (m : Memory w) (a : BitVec w) (f : Nat → BitVec 8) :
    blit m a 0 f = m := by
  funext x
  simp [blit]

theorem blit_congr {m : Memory w} {a : BitVec w} {n : Nat} {f g : Nat → BitVec 8}
    (h : ∀ i < n, f i = g i) : blit m a n f = blit m a n g := by
  funext x
  unfold blit
  split
  · exact h _ (by assumption)
  · rfl

/-- Two ranges one behind the other. -/
theorem blit_blit (m : Memory w) (a : BitVec w) {n k : Nat} (h : n + k ≤ 2 ^ w)
    (f : Nat → BitVec 8) :
    blit (blit m a n f) (a + BitVec.ofNat w n) k (fun i => f (n + i)) = blit m a (n + k) f := by
  rcases Nat.eq_zero_or_pos k with rfl | hk
  · exact blit_zero _ _ _
  funext x
  unfold blit
  have hx := (x - a).isLt
  have hn : (BitVec.ofNat w n).toNat = n := by
    rw [BitVec.toNat_ofNat, Nat.mod_eq_of_lt (by omega)]
  have hsub : x - (a + BitVec.ofNat w n) = (x - a) - BitVec.ofNat w n := by
    rw [← BitVec.sub_sub]
  rw [hsub]
  rcases Nat.lt_or_ge (x - a).toNat n with hlt | hge
  · -- in the first range: seen from the second one it wraps around
    have hwrap : ((x - a) - BitVec.ofNat w n).toNat = 2 ^ w - n + (x - a).toNat := by
      rw [BitVec.toNat_sub, hn, Nat.mod_eq_of_lt (by omega)]
    rw [hwrap, if_neg (by omega), if_pos hlt, if_pos (by omega)]
  · have hle : BitVec.ofNat w n ≤ x - a := by
      rw [BitVec.le_def, hn]
      exact hge
    rw [BitVec.toNat_sub_of_le hle, hn, if_neg (show ¬ (x - a).toNat < n by omega)]
    by_cases hlt : (x - a).toNat < n + k
    · rw [if_pos (by omega), if_pos hlt]
      exact congrArg f (by omega)
    · rw [if_neg (by omega), if_neg hlt]

/-! ## `load` and `store` -/

/-- `m` after the number `v` has been written to the `n` bytes from `a`. -/
def store (m : Memory w) (a : BitVec w) (n v : Nat) : Memory w :=
  blit m a n fun i => BitVec.ofNat 8 (v / 256 ^ i)

theorem leValue_congr {f g : Nat → BitVec 8} {n : Nat} (h : ∀ i < n, f i = g i) :
    leValue f n = leValue g n := by
  induction n with
  | zero => rfl
  | succ n ih =>
    rw [leValue, leValue, ih fun i hi => h i (by omega), h n (Nat.lt_succ_self n)]

/-- The digits of a number spell it. -/
theorem leValue_digits (v n : Nat) :
    leValue (fun i => BitVec.ofNat 8 (v / 256 ^ i)) n = v % 256 ^ n := by
  induction n with
  | zero => simp [leValue, Nat.mod_one]
  | succ n ih =>
    have hstep : v % 256 ^ (n + 1) = _ := Nat.mod_pow_succ
    rw [leValue, ih, BitVec.toNat_ofNat, hstep, Nat.mul_comm]

theorem load_congr {m m' : Memory w} {a : BitVec w} {n : Nat}
    (h : ∀ i < n, m (a + BitVec.ofNat w i) = m' (a + BitVec.ofNat w i)) :
    load m a n = load m' a n :=
  leValue_congr h

/-- A range apart from the one written. -/
theorem load_blit_of_apart {m : Memory w} {a b : BitVec w} {n k : Nat} {f : Nat → BitVec 8}
    (h : ∀ i < k, n ≤ (a + BitVec.ofNat w i - b).toNat) : load (blit m b n f) a k = load m a k :=
  load_congr fun i hi => if_neg (Nat.not_lt.mpr (h i hi))

/-- A range inside the one written, from its byte `o` on. -/
theorem load_blit_of_inside {m : Memory w} {a b : BitVec w} {n k o : Nat} {f : Nat → BitVec 8}
    (h : ∀ i < k, (a + BitVec.ofNat w i - b).toNat = o + i) (hn : o + k ≤ n) :
    load (blit m b n f) a k = leValue (fun i => f (o + i)) k := by
  refine leValue_congr fun i hi => ?_
  rw [blit, if_pos (by rw [h i hi]; omega), h i hi]

theorem load_store (m : Memory w) (a : BitVec w) {n : Nat} (v : Nat) (hn : n ≤ 2 ^ w) :
    load (store m a n v) a n = v % 256 ^ n := by
  rw [store, load_blit_of_inside (o := 0) (fun i hi => ?_) (by omega)]
  · simp only [Nat.zero_add]
    exact leValue_digits v n
  · rw [BitVec.add_comm, BitVec.add_sub_cancel, BitVec.toNat_ofNat, Nat.mod_eq_of_lt (by omega),
      Nat.zero_add]

end ByteMemory
