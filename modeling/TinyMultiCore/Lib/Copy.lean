import Mathlib.Logic.Function.Basic
import TinyMultiCore.Lib.Memory

/-!
# Copies byte by byte

`copyLoop δ n d s m` copies `n` bytes one after the other, from `s` to `d`, and goes on by
the stride `δ` in both ranges. The ranges may overlap: what is read may have been written.

* `copyLoop_up` — with stride 1 it is a `blit` of the bytes of `m`, if no byte of the source
  is written before it is read;
* `copyLoop_down` — with stride -1, from the last bytes on, likewise.
-/

namespace ByteMemory

variable {w : Nat} {m : Memory w} {d s : BitVec w} {n : Nat}

/-- `n` bytes, one after the other. -/
def copyLoop (δ : BitVec w) : Nat → BitVec w → BitVec w → Memory w → Memory w
  | 0, _, _, m => m
  | n + 1, d, s, m => copyLoop δ n (d + δ) (s + δ) (Function.update m d (m s))

/-- The byte at place `i` of a range. -/
theorem eq_add_ofNat_iff {x : BitVec w} {i : Nat} (hi : i < 2 ^ w) :
    x = d + BitVec.ofNat w i ↔ (x - d).toNat = i := by
  constructor
  · rintro rfl
    rw [BitVec.add_comm, BitVec.add_sub_cancel, BitVec.toNat_ofNat, Nat.mod_eq_of_lt hi]
  · rintro rfl
    rw [BitVec.ofNat_toNat, BitVec.setWidth_eq, BitVec.add_comm, BitVec.sub_add_cancel]

/-- One byte written is a range of one. -/
theorem update_eq_blit (b : BitVec 8) {f : Nat → BitVec 8} (hw : 1 ≤ 2 ^ w) (hb : f 0 = b) :
    Function.update m d b = blit m d 1 f := by
  funext x
  have hx : x = d + BitVec.ofNat w 0 ↔ (x - d).toNat = 0 := eq_add_ofNat_iff (by omega)
  rw [show d + BitVec.ofNat w 0 = d from BitVec.add_zero d] at hx
  unfold blit
  by_cases hfirst : (x - d).toNat = 0
  · rw [if_pos (by omega), hfirst, hb, hx.mpr hfirst, Function.update_self]
  · rw [if_neg (by omega), Function.update_of_ne fun he => hfirst (hx.mp he)]

/-- One byte in front of a range. -/
theorem blit_update (b : BitVec 8) {f : Nat → BitVec 8} (hn : n + 1 ≤ 2 ^ w) (hb : f 0 = b) :
    blit (Function.update m d b) (d + 1) n (fun i => f (i + 1)) = blit m d (n + 1) f := by
  rw [update_eq_blit b (by omega) hb, Nat.add_comm n 1, ← blit_blit m d (show 1 + n ≤ 2 ^ w by omega) f]
  exact blit_congr fun i _ => by rw [Nat.add_comm]

/-- One byte behind it. -/
theorem update_blit (b : BitVec 8) {f : Nat → BitVec 8} (hn : n + 1 ≤ 2 ^ w) (hb : f n = b) :
    blit (Function.update m (d + BitVec.ofNat w n) b) d n f = blit m d (n + 1) f := by
  funext x
  have hx : x = d + BitVec.ofNat w n ↔ (x - d).toNat = n := eq_add_ofNat_iff (by omega)
  unfold blit
  by_cases hlt : (x - d).toNat < n
  · rw [if_pos hlt, if_pos (by omega)]
  · rw [if_neg hlt]
    by_cases hlast : (x - d).toNat = n
    · rw [if_pos (by omega), hlast, hb, hx.mpr hlast, Function.update_self]
    · rw [if_neg (by omega), Function.update_of_ne fun he => hlast (hx.mp he)]

/-- **Upwards.** No byte that is still to be read has been written, unless the destination begins
inside the source and behind its start. That is excluded here, and is why there is a loop
downwards. -/
theorem copyLoop_up (hn : n ≤ 2 ^ w)
    (hread : ∀ i j, j < i → i < n → s + BitVec.ofNat w i ≠ d + BitVec.ofNat w j) :
    copyLoop 1 n d s m = blit m d n fun i => m (s + BitVec.ofNat w i) := by
  induction n generalizing d s m with
  | zero => exact (blit_zero m d _).symm
  | succ n ih =>
    have hshift : ∀ (a : BitVec w) (i : Nat), a + 1 + BitVec.ofNat w i = a + BitVec.ofNat w (i + 1) := by
      intro a i
      rw [Nat.add_comm, BitVec.ofNat_add, ← BitVec.add_assoc]
      rfl
    rw [copyLoop, ih (by omega), ← blit_update (m s) hn (by simp)]
    · refine blit_congr fun i hi => ?_
      -- the byte just written is not read any more
      have hne : s + 1 + BitVec.ofNat w i ≠ d := by
        have := hread (i + 1) 0 (Nat.succ_pos i) (by omega)
        rw [hshift]
        simpa using this
      rw [Function.update_of_ne hne, hshift]
    · intro i j hj hi
      rw [hshift, hshift]
      exact hread (i + 1) (j + 1) (by omega) (by omega)

/-- **Downwards**, from the last bytes on. Here no byte that is still to be read has been written,
unless the source begins inside the destination and behind its start. -/
theorem copyLoop_down (hn : n + 1 ≤ 2 ^ w)
    (hread : ∀ i j, i < j → j < n + 1 → s + BitVec.ofNat w i ≠ d + BitVec.ofNat w j) :
    copyLoop (-1) (n + 1) (d + BitVec.ofNat w n) (s + BitVec.ofNat w n) m =
      blit m d (n + 1) fun i => m (s + BitVec.ofNat w i) := by
  induction n generalizing m with
  | zero =>
    rw [copyLoop, copyLoop, ← update_blit (m (s + BitVec.ofNat w 0)) hn rfl, blit_zero]
  | succ n ih =>
    have hback : ∀ a : BitVec w, a + BitVec.ofNat w (n + 1) + -1 = a + BitVec.ofNat w n := by
      intro a
      rw [BitVec.ofNat_add, ← BitVec.add_assoc, ← BitVec.sub_eq_add_neg]
      exact BitVec.add_sub_cancel _ _
    rw [copyLoop, hback, hback, ih (by omega) fun i j hi hj => hread i j hi (by omega)]
    rw [← update_blit (m (s + BitVec.ofNat w (n + 1))) hn rfl]
    refine blit_congr fun i hi => ?_
    -- the byte just written is not read any more
    exact Function.update_of_ne (hread i (n + 1) hi (by omega)) ..

end ByteMemory
