import Mathlib.Data.List.Basic
import Mathlib.Data.Nat.ModEq

/-!
# Ring buffers

A ring of `size` cells holds a window of a growing list: the cell `i % size` holds
the item `i`, for every item of `xs` from `lo` on. One cell always stays free, so
the two ends of the window meet only when it is empty.
-/

namespace RingBuffer

variable {α : Type*}

/-- The items of `xs` from `lo` on are in the ring, and a cell is left. The list is the whole
history of what has been put in, and only grows; `lo` is how many of its items have been
taken out. The two indices of a ring buffer are `lo % size` and `xs.length % size`, so that
nothing has to be said about where they wrap around. -/
structure Window (buf : Nat → α) (size lo : Nat) (xs : List α) : Prop where
  lo_le : lo ≤ xs.length
  fits : xs.length < lo + size
  cells : ∀ i (hi : i < xs.length), lo ≤ i → buf (i % size) = xs[i]

/-- Within one turn of the ring, cells are different. This is why a cell has to stay free:
the window is shorter than a turn, so that its two ends fall on one cell only when they are
the same, and a ring that is full does not look like one that is empty. -/
theorem mod_inj {size lo i j : Nat} (hi : lo ≤ i) (hi' : i < lo + size) (hj : lo ≤ j)
    (hj' : j < lo + size) (h : i % size = j % size) : i = j := by
  rcases Nat.le_total i j with hle | hle
  · have hdvd := (Nat.modEq_iff_dvd' hle).mp h
    have := Nat.eq_zero_of_dvd_of_lt hdvd (by omega)
    omega
  · have hdvd := (Nat.modEq_iff_dvd' hle).mp h.symm
    have := Nat.eq_zero_of_dvd_of_lt hdvd (by omega)
    omega

namespace Window

variable {buf : Nat → α} {size lo : Nat} {xs : List α}

/-- An empty ring, whatever its cells have in them. -/
theorem nil (buf : Nat → α) (h : 0 < size) : Window buf size 0 [] :=
  ⟨le_rfl, by simpa using h, fun i hi => by simp at hi⟩

/-- The test for an empty ring is right: equal indices mean that everything has been taken. -/
theorem empty_iff (h : Window buf size lo xs) : lo % size = xs.length % size ↔ lo = xs.length := by
  have h1 := h.lo_le
  have h2 := h.fits
  exact ⟨mod_inj le_rfl (by omega) h1 h2, fun e => by rw [← e]⟩

/-- The test for a full ring is right: when the cell behind the last item is the first one,
the window has grown to all cells but one. -/
theorem full_iff (h : Window buf size lo xs) :
    (xs.length + 1) % size = lo % size ↔ xs.length + 1 = lo + size := by
  have h1 := h.lo_le
  have h2 := h.fits
  constructor
  · intro he
    by_contra hne
    have := mod_inj (by omega : lo ≤ xs.length + 1) (by omega) le_rfl (by omega) he
    omega
  · intro he
    rw [he, Nat.add_mod_right]

/-- What is taken out next is the oldest item. -/
theorem head (h : Window buf size lo xs) (hlt : lo < xs.length) : buf (lo % size) = xs[lo] :=
  h.cells lo hlt le_rfl

/-- Taking it out moves the start of the window; no cell is written. -/
theorem pop (h : Window buf size lo xs) (hlt : lo < xs.length) : Window buf size (lo + 1) xs :=
  ⟨hlt, by have := h.fits; omega, fun i hi hlo => h.cells i hi (by omega)⟩

/-- Putting an item in writes the cell behind the window. The items of the window are in
other cells (`mod_inj`), and keep them. -/
theorem push (h : Window buf size lo xs) (hroom : xs.length + 1 < lo + size) (x : α) :
    Window (Function.update buf (xs.length % size) x) size lo (xs ++ [x]) := by
  have h1 := h.lo_le
  refine ⟨by simp; omega, by simp; omega, fun i hi hlo => ?_⟩
  rw [List.length_append, List.length_singleton] at hi
  by_cases hlast : i = xs.length
  · subst hlast
    simp
  · -- an older item is in another cell
    have hne : i % size ≠ xs.length % size := fun he =>
      hlast (mod_inj hlo (by omega) h1 (by omega) he)
    rw [Function.update_of_ne hne, List.getElem_append_left (by omega)]
    exact h.cells i (by omega) hlo

end Window

end RingBuffer
