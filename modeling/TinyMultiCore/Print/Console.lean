import TinyMultiCore.Lib.Run
import TinyMultiCore.Lib.SpinLock
import TinyMultiCore.Print.Printk

/-!
# The console

All cores print to one UART. `printk` takes `print_lock`, puts its text together in a buffer on its
stack, writes it out a character at a time and releases the lock; `sys_write` writes out a buffer
of the user without the lock. In between anything may happen to the rest of the memory.

* `Console.Step.message_eq` — a message is the text of its format;
* `ConsoleInv.step` — what is there of the messages stays in order;
* `messages_stay_whole` — between the characters of a message there are none of another message.
-/

namespace TinyMultiCore

open ByteMemory SpinLock TransitionSystem

variable {κ : Type} {m : Memory} {c d : κ}

-- ---------------------------------------------------------------------------
-- The cores
-- ---------------------------------------------------------------------------

/-- Where a core is with its output, and its arguments and local variables. -/
inductive OutputPoint where
  | out
  /-- `printk`: in front of `spin_lock(&print_lock)` -/
  | lock (format : U64) (args : List U64) (buffer : U64)
  /-- `printk`: behind it -/
  | format (format : U64) (args : List U64) (buffer : U64)
  /-- the `write_console` of `printk`, in front of the character `i` -/
  | print (buffer : U64) (i size : Nat)
  /-- the `write_console` of `sys_write`; its size is an `int` -/
  | write (buffer : U64) (i : Nat) (size : Int)
  deriving DecidableEq

/-- Between `spin_lock` and `spin_unlock`. -/
def OutputPoint.Inside : OutputPoint → Prop
  | .format _ _ _ | .print _ _ _ => True
  | _ => False

/-- Who has stored a character to `UART0_DR`. -/
inductive Writer where
  | kernel
  | user
  deriving DecidableEq

/-- The memory, `print_lock`, the cores and the characters that the UART has been given. -/
structure Console (κ : Type) where
  mem : Memory
  lock : Option κ
  point : κ → OutputPoint
  uart : List (Writer × BitVec 8)

inductive OutputOp (κ : Type) where
  /-- a call of `printk` -/
  | call (c : κ) (format : U64) (args : List U64) (buffer : U64)
  | acquire (c : κ)
  /-- the loop of `printk`, with the text that it leaves in the buffer -/
  | format (c : κ) (text : List (BitVec 8))
  /-- `write_char`, when the UART is not busy -/
  | put (c : κ)
  | release (c : κ)
  /-- a call of `sys_write` -/
  | write (c : κ) (buffer : U64) (size : Int)
  /-- its end -/
  | finish (c : κ)
  /-- whatever else writes to the memory -/
  | store (mem : Memory)

/-- The bytes in a range. -/
def bytesAt (m : Memory) (a : U64) (n : Nat) : List (BitVec 8) :=
  (List.range n).map fun i => m (a + BitVec.ofNat 64 i)

namespace Console

variable [DecidableEq κ]

def setPoint (s : Console κ) (c : κ) (p : OutputPoint) : Console κ :=
  { s with point := Function.update s.point c p }

/-- One step of one core. -/
inductive Step (s : Console κ) : OutputOp κ → Console κ → Prop
  | call (c : κ) (format : U64) (args : List U64) (buffer : U64) (hout : s.point c = .out) :
      Step s (.call c format args buffer) (s.setPoint c (.lock format args buffer))
  | acquire (c : κ) (format : U64) (args : List U64) (buffer : U64)
      (hlock : s.point c = .lock format args buffer) (hfree : s.lock = none) :
      Step s (.acquire c) { s.setPoint c (.format format args buffer) with lock := some c }
  | format (c : κ) (format : U64) (args : List U64) (buffer : U64) (garbage : Nat → DigitsBuffer)
      (size : Nat) (mem : Memory) (hformat : s.point c = .format format args buffer)
      (htext : printkText garbage s.mem format args buffer = .ok (size, mem)) :
      Step s (.format c (bytesAt mem buffer size)) { s.setPoint c (.print buffer 0 size) with mem }
  | put (c : κ) (buffer : U64) (i size : Nat) (hprint : s.point c = .print buffer i size)
      (hi : i < size) : Step s (.put c) { s.setPoint c (.print buffer (i + 1) size) with
        uart := s.uart ++ [(.kernel, s.mem (buffer + BitVec.ofNat 64 i))] }
  | release (c : κ) (buffer : U64) (i size : Nat) (hprint : s.point c = .print buffer i size)
      (hi : ¬i < size) : Step s (.release c) { s.setPoint c .out with lock := none }
  | write (c : κ) (buffer : U64) (size : Int) (hout : s.point c = .out) :
      Step s (.write c buffer size) (s.setPoint c (.write buffer 0 size))
  | putUser (c : κ) (buffer : U64) (i : Nat) (size : Int) (hwrite : s.point c = .write buffer i size)
      (hi : i < size) : Step s (.put c) { s.setPoint c (.write buffer (i + 1) size) with
        uart := s.uart ++ [(.user, s.mem (buffer + BitVec.ofNat 64 i))] }
  | finish (c : κ) (buffer : U64) (i : Nat) (size : Int) (hwrite : s.point c = .write buffer i size)
      (hi : ¬i < size) : Step s (.finish c) (s.setPoint c .out)
  -- nobody else writes to the text that is on the stack
  | store (mem : Memory) (hstack : ∀ c buffer i size, s.point c = .print buffer i size →
      ∀ j < size, mem (buffer + BitVec.ofNat 64 j) = s.mem (buffer + BitVec.ofNat 64 j)) :
      Step s (.store mem) { s with mem }

/-- All cores are somewhere else, and nothing has been printed. -/
def start (m : Memory) : Console κ :=
  { mem := m, lock := none, point := fun _ => .out, uart := [] }

end Console

/-- What `printk` has printed. -/
def printed (uart : List (Writer × BitVec 8)) : List (BitVec 8) :=
  uart.filterMap fun x => if x.1 = .kernel then some x.2 else none

/-- The message that is put together in a step. -/
def OutputOp.message : OutputOp κ → Option (List (BitVec 8))
  | .format _ text => some text
  | _ => none

/-- The messages, in the order in which they were put together. -/
def messages (ops : List (OutputOp κ)) : List (List (BitVec 8)) :=
  ops.filterMap OutputOp.message

theorem messages_snoc (ops : List (OutputOp κ)) (a : OutputOp κ) :
    messages (ops ++ [a]) = messages ops ++ a.message.toList := by
  rw [messages, List.filterMap_append]
  cases h : a.message <;> simp [messages, h]

theorem printed_concat (uart : List (Writer × BitVec 8)) (w : Writer) (b : BitVec 8) :
    printed (uart ++ [(w, b)]) = printed uart ++ if w = .kernel then [b] else [] := by
  cases w <;> simp [printed]

theorem bytesAt_take_succ {a : U64} {i n : Nat} (hi : i < n) :
    (bytesAt m a n).take (i + 1) = (bytesAt m a n).take i ++ [m (a + BitVec.ofNat 64 i)] := by
  have hget : (bytesAt m a n)[i]? = some (m (a + BitVec.ofNat 64 i)) := by
    rw [bytesAt, List.getElem?_map, List.getElem?_range hi]
    rfl
  rw [List.take_add_one, hget]
  rfl

theorem bytesAt_congr {m' : Memory} {a : U64} {n : Nat}
    (h : ∀ j < n, m' (a + BitVec.ofNat 64 j) = m (a + BitVec.ofNat 64 j)) :
    bytesAt m' a n = bytesAt m a n :=
  List.map_congr_left fun j hj => h j (List.mem_range.mp hj)

theorem length_bytesAt (m : Memory) (a : U64) (n : Nat) : (bytesAt m a n).length = n := by
  rw [bytesAt, List.length_map, List.length_range]

theorem bytesAt_writeText {a : U64} {text : List (BitVec 8)} (h : text.length ≤ 2 ^ 64) :
    bytesAt (writeText m a text) a text.length = text := by
  refine List.ext_getElem (length_bytesAt ..) fun i hi hi' => ?_
  have hoffset : (a + BitVec.ofNat 64 i - a).toNat = i := by
    rw [BitVec.add_comm, BitVec.add_sub_cancel, BitVec.toNat_ofNat]
    exact Nat.mod_eq_of_lt (hi'.trans_le h)
  have hbyte : writeText m a text (a + BitVec.ofNat 64 i) = text[i] := by
    unfold writeText blit
    rw [hoffset, if_pos hi']
    exact List.getD_eq_getElem _ _ hi'
  simp only [bytesAt, List.getElem_map, List.getElem_range]
  exact hbyte

-- ---------------------------------------------------------------------------
-- Steps
-- ---------------------------------------------------------------------------

/-- The console after some steps. While a core prints, the last message is complete up to the
character that comes next; otherwise all messages are. What the UART was given by `sys_write` is not
looked at. -/
structure ConsoleInv (s : Console κ) (ops : List (OutputOp κ)) : Prop where
  guards : Guards s.lock fun c => (s.point c).Inside
  /-- A message is being printed. -/
  printing : ∀ c buffer i size, s.point c = .print buffer i size → i ≤ size ∧
    ∃ whole, messages ops = whole ++ [bytesAt s.mem buffer size] ∧
      printed s.uart = whole.flatten ++ (bytesAt s.mem buffer size).take i
  /-- No message is being printed. -/
  quiet : (∀ c buffer i size, s.point c ≠ .print buffer i size) →
    printed s.uart = (messages ops).flatten

section

variable {s s' : Console κ} {a : OutputOp κ} {ops : List (OutputOp κ)} {p : OutputPoint}

/-- **What a message is**: the text of its format. -/
theorem Console.Step.message_eq [DecidableEq κ] {format buffer : U64} {words : List U64}
    {fmt text out : List (BitVec 8)} {args : List PrintArg} (hstep : s.Step (.format c text) s')
    (hpoint : s.point c = .format format words buffer)
    (hformat : TextAt s.mem buffer out.length format fmt)
    (hargs : List.Forall₂ (PrintArg.Passed s.mem buffer out.length) args words)
    (hout : formatted fmt args = some out) (hlen : out.length < 2 ^ 31) (hfmt : fmt.length < 2 ^ 31) :
    text = out := by
  cases hstep with
  | format _ _ _ _ garbage size mem hpoint' htext =>
    cases hpoint.symm.trans hpoint'
    rw [(loopPrints garbage hformat hlen fmt args).printkText hargs hout le_rfl hfmt] at htext
    split at htext
    · cases htext
      exact bytesAt_writeText (by omega)
    · cases htext

namespace ConsoleInv

theorem start (m : Memory) : ConsoleInv (.start m : Console κ) [] := by
  refine ⟨.none fun _ => id, fun c buffer i size hprint => ?_, fun _ => rfl⟩
  cases hprint

/-- Nobody prints while another core is between `spin_lock` and `spin_unlock`. -/
theorem alone (h : ConsoleInv s ops) (hc : (s.point c).Inside) (hd : d ≠ c) (buffer : U64)
    (i size : Nat) : s.point d ≠ .print buffer i size := by
  intro hprint
  refine hd (h.guards.unique ?_ hc)
  rw [hprint]
  trivial

/-- One core is printing a message, and no other core is. -/
theorem of_print (hguards : Guards s.lock fun c => (s.point c).Inside)
    (hother : ∀ d, d ≠ c → ∀ buffer i size, s.point d ≠ .print buffer i size)
    {buffer : U64} {i size : Nat} {whole : List (List (BitVec 8))}
    (hc : s.point c = .print buffer i size) (hle : i ≤ size)
    (hmessages : messages ops = whole ++ [bytesAt s.mem buffer size])
    (hprinted : printed s.uart = whole.flatten ++ (bytesAt s.mem buffer size).take i) :
    ConsoleInv s ops := by
  refine ⟨hguards, fun d buffer' j n hprint => ?_, fun hno => ?_⟩
  · by_cases hd : d = c
    · rw [hd, hc] at hprint
      cases hprint
      exact ⟨hle, whole, hmessages, hprinted⟩
    · exact absurd hprint (hother d hd buffer' j n)
  · exact (hno c buffer i size hc).elim

/-- A step that neither begins, continues nor ends the printing of a message. -/
theorem elsewhere (h : ConsoleInv s ops) (hguards : Guards s'.lock fun c => (s'.point c).Inside)
    (hmessage : a.message = none) (hprinted : printed s'.uart = printed s.uart)
    (hpoint : ∀ c buffer i size,
      s'.point c = .print buffer i size ↔ s.point c = .print buffer i size)
    (hbytes : ∀ c buffer i size, s.point c = .print buffer i size →
      bytesAt s'.mem buffer size = bytesAt s.mem buffer size) : ConsoleInv s' (ops ++ [a]) := by
  have hmessages : messages (ops ++ [a]) = messages ops := by
    rw [messages_snoc, hmessage]
    exact List.append_nil _
  refine ⟨hguards, fun c buffer i size hprint => ?_, fun hquiet => ?_⟩
  · have hprint' := (hpoint c buffer i size).mp hprint
    rw [hmessages, hprinted, hbytes c buffer i size hprint']
    exact h.printing c buffer i size hprint'
  · rw [hmessages, hprinted]
    exact h.quiet fun c buffer i size hprint => hquiet c buffer i size ((hpoint ..).mpr hprint)

variable [DecidableEq κ]

theorem setPoint_print {q : OutputPoint} (hq : s.point c = q)
    (hfrom : ∀ buffer i size, q ≠ .print buffer i size)
    (hto : ∀ buffer i size, p ≠ .print buffer i size) (d : κ) (buffer : U64) (i size : Nat) :
    Function.update s.point c p d = .print buffer i size ↔ s.point d = .print buffer i size := by
  by_cases hd : d = c
  · rw [hd, Function.update_self, hq]
    exact iff_of_false (hto buffer i size) (hfrom buffer i size)
  · rw [Function.update_of_ne hd]

theorem alone_update (h : ConsoleInv s ops) (hc : (s.point c).Inside) (d : κ) (hd : d ≠ c)
    (buffer : U64) (i size : Nat) : Function.update s.point c p d ≠ .print buffer i size := by
  rw [Function.update_of_ne hd]
  exact h.alone hc hd buffer i size

/-- **One step** of one core. -/
theorem step (h : ConsoleInv s ops) (hstep : s.Step a s') : ConsoleInv s' (ops ++ [a]) := by
  cases hstep with
  | call c format args buffer hout =>
    refine h.elsewhere (h.guards.update ?_) rfl rfl (setPoint_print hout nofun nofun)
      fun _ _ _ _ _ => rfl
    rw [hout]
    exact Iff.rfl
  | acquire c format args buffer hlock hfree =>
    have hguards := h.guards
    rw [hfree] at hguards
    have hheld : Guards (some c) fun d =>
        (Function.update s.point c (.format format args buffer) d).Inside :=
      hguards.update_acquire trivial
    exact h.elsewhere hheld rfl rfl (setPoint_print hlock nofun nofun) fun _ _ _ _ _ => rfl
  | format c format args buffer garbage size mem hformat htext =>
    have hin : (s.point c).Inside := by
      rw [hformat]
      trivial
    have hquiet : printed s.uart = (messages ops).flatten := h.quiet fun d buffer' i n hprint => by
      by_cases hd : d = c
      · rw [hd, hformat] at hprint
        cases hprint
      · exact h.alone hin hd buffer' i n hprint
    -- the first character is next
    refine of_print (h.guards.update (iff_of_true hin trivial)) (h.alone_update hin)
      (Function.update_self ..) (Nat.zero_le size) (messages_snoc ..) ?_
    rw [List.take_zero, List.append_nil]
    exact hquiet
  | put c buffer i size hprint hi =>
    have hin : (s.point c).Inside := by
      rw [hprint]
      trivial
    obtain ⟨-, whole, hmessages, hprinted⟩ := h.printing c buffer i size hprint
    have hsame : messages (ops ++ [.put c]) = whole ++ [bytesAt s.mem buffer size] := by
      rw [messages_snoc]
      exact (List.append_nil _).trans hmessages
    refine of_print (h.guards.update (iff_of_true hin trivial)) (h.alone_update hin)
      (Function.update_self ..) hi hsame ((printed_concat s.uart .kernel _).trans ?_)
    rw [hprinted, List.append_assoc]
    exact congrArg (whole.flatten ++ ·) (bytesAt_take_succ hi).symm
  | release c buffer i size hprint hi =>
    have hin : (s.point c).Inside := by
      rw [hprint]
      trivial
    obtain ⟨hle, whole, hmessages, hprinted⟩ := h.printing c buffer i size hprint
    refine ⟨h.guards.update_release hin id, fun d buffer' j n hprint' => ?_, fun _ => ?_⟩
    · by_cases hd : d = c
      · rw [hd] at hprint'
        cases (Function.update_self ..).symm.trans hprint'
      · exact absurd hprint' (h.alone_update hin d hd buffer' j n)
    · -- all of the message is there
      have hend : i = size := Nat.le_antisymm hle (Nat.not_lt.mp hi)
      rw [hend, List.take_of_length_le (length_bytesAt ..).le] at hprinted
      rw [messages_snoc, hmessages]
      change printed s.uart = (whole ++ [bytesAt s.mem buffer size] ++ []).flatten
      rw [hprinted, List.append_nil, List.flatten_append, List.flatten_singleton]
  | write c buffer size hout =>
    refine h.elsewhere (h.guards.update ?_) rfl rfl (setPoint_print hout nofun nofun)
      fun _ _ _ _ _ => rfl
    rw [hout]
    exact Iff.rfl
  | putUser c buffer i size hwrite hi =>
    refine h.elsewhere (h.guards.update ?_) rfl ?_ (setPoint_print hwrite nofun nofun)
      fun _ _ _ _ _ => rfl
    · rw [hwrite]
      exact Iff.rfl
    · exact (printed_concat s.uart .user _).trans (List.append_nil _)
  | finish c buffer i size hwrite hi =>
    refine h.elsewhere (h.guards.update ?_) rfl rfl (setPoint_print hwrite nofun nofun)
      fun _ _ _ _ _ => rfl
    rw [hwrite]
    exact Iff.rfl
  | store mem hstack =>
    exact h.elsewhere h.guards rfl rfl (fun _ _ _ _ => Iff.rfl) fun c buffer i size hprint =>
      bytesAt_congr (hstack c buffer i size hprint)

variable {m : Memory}

/-- The run lemma. -/
theorem run (hrun : Run Console.Step (.start m) ops s) : ConsoleInv s ops := by
  induction hrun with
  | nil => exact start m
  | snoc hr hstep ih => exact ih.step hstep

end ConsoleInv

variable [DecidableEq κ]

/-- **Messages stay whole.** Whatever the cores print in texts of at most 1024 bytes, in whatever
order they take steps: what `printk` has given to the UART are the messages in the order of their
texts, one behind the other, of which only the last may be incomplete. When `print_lock` is free, it
is complete too. What programs write with `sys_write` may be anywhere in between, also inside of a
message. -/
theorem messages_stay_whole (hrun : Run Console.Step (.start m) ops s) :
    (∃ whole last, messages ops = whole ++ last ∧ last.length ≤ 1 ∧
      whole.flatten <+: printed s.uart ∧ printed s.uart <+: (messages ops).flatten) ∧
    (s.lock = none → printed s.uart = (messages ops).flatten) := by
  have h := ConsoleInv.run hrun
  refine ⟨?_, fun hfree => h.quiet fun c buffer i size hprint => ?_⟩
  · by_cases hprinting : ∃ c buffer i size, s.point c = .print buffer i size
    · obtain ⟨c, buffer, i, size, hprint⟩ := hprinting
      obtain ⟨-, whole, hmessages, hprinted⟩ := h.printing c buffer i size hprint
      refine ⟨whole, [bytesAt s.mem buffer size], hmessages, le_rfl, ?_, ?_⟩
      · rw [hprinted]
        exact List.prefix_append ..
      · rw [hprinted, hmessages, List.flatten_append, List.flatten_singleton]
        exact (List.prefix_append_right_inj _).mpr (List.take_prefix ..)
    · have hquiet := h.quiet fun c buffer i size hprint => hprinting ⟨c, buffer, i, size, hprint⟩
      rw [hquiet]
      exact ⟨messages ops, [], (List.append_nil _).symm, Nat.zero_le 1, List.prefix_rfl, List.prefix_rfl⟩
  · have hguards := h.guards
    rw [hfree] at hguards
    refine hguards.free c ?_
    rw [hprint]
    trivial

end

/-- A message at 0x1000. -/
def okMemory : Memory := writeText (fun _ => 0) 0x1000 (chars "ok")

/-- Core 1 writes between the two characters of a message of core 0. -/
def okOps : List (OutputOp (Fin 4)) :=
  [.call 0 0x1000 [] 0x3000, .acquire 0, .format 0 (chars "ok"), .put 0, .write 1 0x1000 1, .put 1,
    .put 0, .release 0]

theorem ok_stays_whole : ∃ s, Run Console.Step (.start okMemory) okOps s ∧
    s.uart = [(.kernel, 0x6f), (.user, 0x6f), (.kernel, 0x6b)] ∧ printed s.uart = chars "ok" := by
  have hformat : TextAt okMemory 0x3000 2 0x1000 (chars "ok") :=
    .of_forall (by decide +kernel) (by decide +kernel) (by decide +kernel)
  have htext : printkText (fun _ _ => 0) okMemory 0x1000 [] 0x3000 =
      .ok (2, writeText okMemory 0x3000 (chars "ok")) :=
    ((loopPrints (fun _ _ => 0) hformat (by decide) (chars "ok") []).printkText .nil rfl le_rfl
      (by decide)).trans (if_pos (by decide))
  have h₀ : Run Console.Step (.start okMemory : Console (Fin 4)) [] _ := .nil
  have h₁ := h₀.snoc (.call 0 0x1000 [] 0x3000 rfl)
  have h₂ := h₁.snoc (.acquire 0 0x1000 [] 0x3000 rfl rfl)
  have h₃ := h₂.snoc (.format 0 0x1000 [] 0x3000 (fun _ _ => 0) 2 _ rfl htext)
  have h₄ := h₃.snoc (.put 0 0x3000 0 2 rfl (by decide))
  have h₅ := h₄.snoc (.write 1 0x1000 1 rfl)
  have h₆ := h₅.snoc (.putUser 1 0x1000 0 1 rfl (by decide))
  have h₇ := h₆.snoc (.put 0 0x3000 1 2 rfl (by decide))
  have h₈ := h₇.snoc (.release 0 0x3000 2 2 rfl (by decide))
  exact ⟨_, h₈, by decide +kernel, (messages_stay_whole h₈).2 rfl⟩

end TinyMultiCore
