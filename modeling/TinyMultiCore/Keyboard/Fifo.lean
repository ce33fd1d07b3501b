import TinyMultiCore.Keyboard.Model
import TinyMultiCore.Lib.RingBuffer

/-!
# Is the keyboard queue first in, first out?

Written characters and calls that find one keep the queue a window of the ring.
A reader that had to sleep is the exception. When it goes on, other readers may
have emptied the buffer again, or moved `front` away from the place it remembers;
it moves `front` all the same, and returns what is in the old place. So the queue
is first in, first out in a run exactly when every sleeper that goes on finds a
character, and its place holds the same one as `front` does (`key_run_fifo_iff`).
-/

namespace TinyMultiCore

open TransitionSystem RingBuffer

/-- What the queue promises. -/
structure Fifo (s : KeyState) : Prop where
  /-- Nothing is duplicated, skipped or invented. -/
  pref : s.returned <+: s.accepted
  /-- `front` is behind `end` by the characters that are unread. -/
  behind : ∃ unread, s.accepted.length = s.returned.length + unread ∧ unread < keyBufferSize ∧
    s.keys.end_ = (s.keys.front + unread) % keyBufferSize
  /-- A character is dropped only with 499 of them unread. -/
  dropped : s.keys.full = true → s.accepted.length = s.returned.length + 499

/-- A sleeper goes on with a character in the buffer, and the place it remembers
holds the same one as the front of the queue. -/
def FindsFront (s : KeyState) : KeyOp → Prop
  | .resume r => ∀ front, s.readers r = .woken front →
      s.keys.front ≠ s.keys.end_ ∧ s.keys.buffer front = s.keys.buffer s.keys.front
  | _ => True

/-- The buffer holds the accepted characters that are not returned yet. Both indices are counts
modulo the size, so which of the two is ahead has to be known from the counts, not from the indices.
-/
structure KeyInv (s : KeyState) : Prop where
  pref : s.returned <+: s.accepted
  window : Window s.keys.buffer keyBufferSize s.returned.length s.accepted
  front_eq : s.keys.front = s.returned.length % keyBufferSize
  end_eq : s.keys.end_ = s.accepted.length % keyBufferSize

variable {s t : KeyState} {r front : Nat} {ch : BitVec 8}

theorem KeyInv.full_iff (h : KeyInv s) :
    s.keys.full = true ↔ s.accepted.length + 1 = s.returned.length + keyBufferSize := by
  rw [KeyboardBuffer.full, decide_eq_true_eq, h.front_eq, h.end_eq, Nat.mod_add_mod]
  exact h.window.full_iff

theorem KeyInv.empty_iff (h : KeyInv s) :
    s.keys.front = s.keys.end_ ↔ s.returned.length = s.accepted.length := by
  rw [h.front_eq, h.end_eq]
  exact h.window.empty_iff

theorem KeyInv.fifo (h : KeyInv s) : Fifo s := by
  have hle := h.window.lo_le
  have hfits := h.window.fits
  refine ⟨h.pref, ⟨s.accepted.length - s.returned.length, by omega, by omega, ?_⟩, fun hfull => ?_⟩
  · rw [h.front_eq, h.end_eq, Nat.mod_add_mod]
    congr 1
    omega
  · have := h.full_iff.mp hfull
    unfold keyBufferSize at this
    omega

theorem KeyInv.interrupt (h : KeyInv s) (ch : BitVec 8) : KeyInv (keyboardHandler s ch) := by
  unfold keyboardHandler writeKeyBuffer
  by_cases hfull : s.keys.full = true
  · -- the character is dropped
    rw [if_pos hfull, if_pos hfull]
    exact ⟨h.pref, h.window, h.front_eq, h.end_eq⟩
  · rw [if_neg hfull, if_neg hfull]
    have hfits := h.window.fits
    have hroom : s.accepted.length + 1 < s.returned.length + keyBufferSize := by
      have := mt h.full_iff.mpr hfull
      omega
    refine ⟨h.pref.trans (List.prefix_append _ _), ?_, h.front_eq, ?_⟩
    · rw [h.end_eq]
      exact h.window.push hroom ch
    · show (s.keys.end_ + 1) % keyBufferSize = (s.accepted ++ [ch]).length % keyBufferSize
      rw [h.end_eq, Nat.mod_add_mod, List.length_append, List.length_singleton]

/-- A call that completes returns the oldest unread character. -/
theorem KeyInv.complete (h : KeyInv s) (hne : s.keys.front ≠ s.keys.end_)
    (hsame : s.keys.buffer front = s.keys.buffer s.keys.front) :
    KeyInv (completeRead s r front) := by
  have hlt : s.returned.length < s.accepted.length := by
    have := mt h.empty_iff.mpr hne
    have := h.window.lo_le
    omega
  have hhead : s.keys.buffer front = s.accepted[s.returned.length] := by
    rw [hsame, h.front_eq]
    exact h.window.head hlt
  refine ⟨?_, ?_, ?_, h.end_eq⟩
  · show s.returned ++ [s.keys.buffer front] <+: s.accepted
    have htake := List.prefix_iff_eq_take.mp h.pref
    have hsnoc : s.returned ++ [s.accepted[s.returned.length]] =
        s.accepted.take (s.returned.length + 1) := by
      conv_lhs => lhs; rw [htake]
      exact List.take_append_getElem hlt
    rw [hhead, hsnoc]
    exact List.take_prefix _ _
  · show Window s.keys.buffer keyBufferSize (s.returned ++ [s.keys.buffer front]).length s.accepted
    rw [List.length_append, List.length_singleton]
    exact h.window.pop hlt
  · show (s.keys.front + 1) % keyBufferSize = (s.returned ++ [s.keys.buffer front]).length % _
    rw [h.front_eq, Nat.mod_add_mod, List.length_append, List.length_singleton]

/-- A call that completes otherwise breaks the order. -/
theorem KeyInv.complete_only (h : KeyInv s) (hf : Fifo (completeRead s r front)) :
    s.keys.front ≠ s.keys.end_ ∧ s.keys.buffer front = s.keys.buffer s.keys.front := by
  have hpref : s.returned ++ [s.keys.buffer front] <+: s.accepted := hf.pref
  have hlen := hpref.length_le
  rw [List.length_append, List.length_singleton] at hlen
  have hlt : s.returned.length < s.accepted.length := by omega
  refine ⟨fun he => ?_, ?_⟩
  · have := h.empty_iff.mp he
    omega
  · have hget := List.IsPrefix.getElem hpref (i := s.returned.length) (by simp)
    rw [List.getElem_concat_length] at hget
    · rw [hget, h.front_eq]
      exact (h.window.head hlt).symm
    · rfl

theorem KeyInv.read (h : KeyInv s) : KeyInv (readKeyBuffer s r) := by
  unfold readKeyBuffer
  by_cases he : s.keys.front = s.keys.end_
  · rw [if_pos he]
    exact ⟨h.pref, h.window, h.front_eq, h.end_eq⟩
  · rw [if_neg he]
    exact h.complete he rfl

theorem keyStep_resume (hstep : keyStep s (.resume r) = some t) :
    ∃ front, s.readers r = .woken front ∧ t = completeRead s r front := by
  rw [keyStep] at hstep
  split at hstep
  · rename_i front hr
    exact ⟨front, hr, (Option.some.inj hstep).symm⟩
  · cases hstep

theorem KeyInv.step (h : KeyInv s) {op : KeyOp} (hc : FindsFront s op)
    (hstep : keyStep s op = some t) : KeyInv t := by
  cases op with
  | interrupt ch =>
    cases hstep
    exact h.interrupt ch
  | read r =>
    rw [keyStep] at hstep
    split at hstep
    · cases hstep
      exact h.read
    · cases hstep
  | resume r =>
    obtain ⟨front, hr, rfl⟩ := keyStep_resume hstep
    obtain ⟨hne, hsame⟩ := hc front hr
    exact h.complete hne hsame

theorem KeyInv.step_only (h : KeyInv s) {op : KeyOp} (hstep : keyStep s op = some t)
    (hf : Fifo t) : FindsFront s op := by
  cases op with
  | interrupt ch => trivial
  | read r => trivial
  | resume r =>
    obtain ⟨front, hr, rfl⟩ := keyStep_resume hstep
    intro front' hr'
    obtain rfl : front = front' := Reader.woken.inj (hr.symm.trans hr')
    exact h.complete_only hf

theorem keyInit_inv : KeyInv keyInit :=
  ⟨List.prefix_rfl, Window.nil _ (by decide), rfl, rfl⟩

/-- **The keyboard queue.** Under any interleaving of interrupts, calls and
resumptions by any number of processes, the queue is first in, first out
throughout, drops characters only when it is full and does not let `front`
overtake `end`, exactly when every sleeper that goes on finds the front of the
queue. -/
theorem key_run_fifo_iff {ops : List KeyOp} {s : KeyState}
    (hrun : Run (fun s op t => keyStep s op = some t) keyInit ops s) :
    Always (fun s op t => keyStep s op = some t) keyInit ops Fifo ↔
      EveryStep (fun s op t => keyStep s op = some t) keyInit ops FindsFront :=
  hrun.always_iff (fun _ _ _ _ hu hv => Option.some.inj (hu.symm.trans hv)) (fun _ h => h.fifo)
    (fun _ _ _ h hc hstep => h.step hc hstep) (fun _ _ _ h hstep hf => h.step_only hstep hf)
    keyInit_inv

/-- One reader sleeps, and gets the character that wakes it up. -/
theorem one_sleeper_fifo : ∃ s,
    Run (fun s op t => keyStep s op = some t) keyInit [.read 0, .interrupt 97, .resume 0] s ∧
    s.returned = [97] ∧ Fifo s := by
  have hrun : Run (fun s op t => keyStep s op = some t) keyInit
      [.read 0, .interrupt 97, .resume 0]
      (completeRead (keyboardHandler (readKeyBuffer keyInit 0) 97) 0 0) := .of_foldlM rfl
  refine ⟨_, hrun, rfl, (key_run_fifo_iff hrun).mpr ?_ _ [] _ rfl hrun⟩
  refine .cons trivial fun t ht => .cons trivial fun u hu => .cons ?_ fun _ _ => .nil
  -- the reader is the only one, so its place is still the front
  cases ht
  cases hu
  intro front hfront
  obtain rfl : 0 = front := Reader.woken.inj hfront
  exact ⟨by decide, rfl⟩

/-- Two readers sleep, and one character wakes both up: both return it, and
`front` is past `end`. -/
theorem two_sleepers_duplicate : ∃ s,
    Run (fun s op t => keyStep s op = some t) keyInit
      [.read 0, .read 1, .interrupt 97, .resume 0, .resume 1] s ∧
    s.accepted = [97] ∧ s.returned = [97, 97] ∧ s.keys.front = 2 ∧ s.keys.end_ = 1 ∧
    ¬ Fifo s := by
  refine ⟨_, .of_foldlM rfl, rfl, rfl, rfl, rfl, fun hf => ?_⟩
  exact absurd hf.pref.length_le (by decide)

end TinyMultiCore
