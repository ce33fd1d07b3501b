import TinyMultiCore.Kernel.Machine
import TinyMultiCore.Lib.Run

/-!
# The keyboard queue

The ring buffer of `src/keyboard.c`, its interrupt handler, and any number of
processes in `read_key_buffer`.

`read_key_buffer` reads `front` into a local variable and, if the buffer is empty,
sleeps on the event `-2`. The part after the `sleep` is a step of its own: it goes
on from the local `front` as it was before, and does not look at the buffer again.
`wake_up(-2)` wakes all the sleepers at once. The lists of characters in the state
record what the buffer took in and what the calls returned; no code reads them.
-/

namespace TinyMultiCore

/-- `key_buffer.size` -/
def keyBufferSize : Nat := 500

/-- `struct KeyboardBuffer`. Both indices stay below the size. -/
structure KeyboardBuffer where
  buffer : Nat → BitVec 8
  front : Nat
  end_ : Nat

/-- `(end + 1) % size == front` -/
def KeyboardBuffer.full (b : KeyboardBuffer) : Bool := (b.end_ + 1) % keyBufferSize = b.front

def writeKeyBuffer (b : KeyboardBuffer) (ch : BitVec 8) : KeyboardBuffer :=
  if b.full then b
  else { b with
    buffer := Function.update b.buffer b.end_ ch
    end_ := (b.end_ + 1) % keyBufferSize }

/-- The end of `read_key_buffer`, with the local variable `front`. -/
def takeKey (b : KeyboardBuffer) (front : Nat) : BitVec 8 × KeyboardBuffer :=
  let b := { b with front := (b.front + 1) % keyBufferSize }
  (b.buffer front, b)

/-- Where a process is in `read_key_buffer`. -/
inductive Reader where
  /-- Not in a call. -/
  | out
  /-- In `sleep(-2)`, with its local `front`. -/
  | asleep (front : Nat)
  /-- Woken up, but not yet back from `sleep(-2)`. -/
  | woken (front : Nat)
  deriving DecidableEq

/-- `wake_up(-2)`, as the reader sees it. -/
def Reader.wake : Reader → Reader
  | .asleep front => .woken front
  | r => r

structure KeyState where
  keys : KeyboardBuffer
  readers : Nat → Reader
  /-- The characters that `write_key_buffer` stored, in order. -/
  accepted : List (BitVec 8)
  /-- The characters that completed calls returned, in order. -/
  returned : List (BitVec 8)

inductive KeyOp where
  /-- `keyboard_handler` for the character `ch`. -/
  | interrupt (ch : BitVec 8)
  /-- The process `r` calls `read_key_buffer`. -/
  | read (r : Nat)
  /-- The process `r` goes on after its `sleep`. -/
  | resume (r : Nat)

def keyboardHandler (s : KeyState) (ch : BitVec 8) : KeyState :=
  { s with
    keys := writeKeyBuffer s.keys ch
    readers := fun r => (s.readers r).wake
    accepted := if s.keys.full then s.accepted else s.accepted ++ [ch] }

/-- The call of `r` completes. -/
def completeRead (s : KeyState) (r front : Nat) : KeyState :=
  let (ch, keys) := takeKey s.keys front
  { s with
    keys
    readers := Function.update s.readers r .out
    returned := s.returned ++ [ch] }

def readKeyBuffer (s : KeyState) (r : Nat) : KeyState :=
  let front := s.keys.front
  if front = s.keys.end_ then
    { s with readers := Function.update s.readers r (.asleep front) }
  else completeRead s r front

/-- `none` where the process `r` is not in a position to do the step. -/
def keyStep (s : KeyState) : KeyOp → Option KeyState
  | .interrupt ch => some (keyboardHandler s ch)
  | .read r => if s.readers r = .out then some (readKeyBuffer s r) else none
  | .resume r =>
    match s.readers r with
    | .woken front => some (completeRead s r front)
    | _ => none

/-- The static initializer of `key_buffer`. -/
def keyInit : KeyState := ⟨⟨fun _ => 0, 0, 0⟩, fun _ => .out, [], []⟩

end TinyMultiCore
