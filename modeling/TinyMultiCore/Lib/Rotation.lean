import Mathlib.Data.List.Rotate

/-!
# Turns in a rotating queue

The items of a queue `q` take turns: the first one goes behind the others. At turn `k` the
queue is `q.rotate k`, and its first item is `q[k % q.length]`.

* `head_rotate`, `rotate_succ` — the item whose turn it is, and the next turn;
* `turn_between` — nobody has a second turn before everybody else has had one.
-/

namespace Rotation

variable {α : Type*} {q : List α} {x : α}

theorem head_rotate (hq : q ≠ []) (k : Nat) : (q.rotate k).head? = q[k % q.length]? := by
  rw [← List.rotate_mod, List.head?_rotate (Nat.mod_lt k (List.length_pos_of_ne_nil hq))]

theorem rotate_succ {k : Nat} {xs : List α} (h : q.rotate k = x :: xs) :
    q.rotate (k + 1) = xs ++ [x] := by
  rw [← List.rotate_rotate, h, List.rotate_cons_succ, List.rotate_zero]

/-- Between two turns of an item, everybody has one. -/
theorem turn_between (hq : q.Nodup) {i j : Nat} (hij : i < j)
    (hsame : q[i % q.length]? = q[j % q.length]?) (hx : x ∈ q) :
    ∃ m, i ≤ m ∧ m < j ∧ q[m % q.length]? = some x := by
  have hpos : 0 < q.length := List.length_pos_of_mem hx
  -- the turns of an item are a whole number of rounds apart
  have hmod : i % q.length = j % q.length := by
    rw [List.getElem?_eq_getElem (Nat.mod_lt i hpos), List.getElem?_eq_getElem (Nat.mod_lt j hpos)]
      at hsame
    exact (hq.getElem_inj_iff).mp (Option.some.inj hsame)
  have hround : i + q.length ≤ j := by
    have hdvd : q.length ∣ j - i :=
      Nat.dvd_of_mod_eq_zero (Nat.sub_mod_eq_zero_of_mod_eq hmod.symm)
    have := Nat.le_of_dvd (Nat.sub_pos_of_lt hij) hdvd
    omega
  obtain ⟨a, ha, rfl⟩ := List.getElem_of_mem hx
  have hi := Nat.div_add_mod i q.length
  have hlt := Nat.mod_lt i hpos
  by_cases hle : i % q.length ≤ a
  · -- later in the round of `i`
    refine ⟨q.length * (i / q.length) + a, by omega, by omega, ?_⟩
    rw [Nat.mul_add_mod, Nat.mod_eq_of_lt ha, List.getElem?_eq_getElem ha]
  · -- early in the next one
    refine ⟨q.length * (i / q.length + 1) + a, ?_, ?_, ?_⟩
    · rw [Nat.mul_add_one]
      omega
    · rw [Nat.mul_add_one]
      omega
    · rw [Nat.mul_add_mod, Nat.mod_eq_of_lt ha, List.getElem?_eq_getElem ha]

end Rotation
