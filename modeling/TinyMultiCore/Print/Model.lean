import TinyMultiCore.Kernel.Machine

/-!
# `printk`

The three functions of `src/print.c` that write a number into the buffer of `printk` collect
its digits in a `digits_buffer` of 25 bytes, which is not initialised, and copy them behind the
text there is, the last one first. `printk` calls them, or `read_string`, for the arguments that
its format asks for.

A `position` is an `int` that does not overflow. A store behind the end of `digits_buffer` is a
fault, and so is an argument that was not passed. How long the buffer is only `printk` knows: its
loop faults when a character or an argument has run over the end.
-/

namespace TinyMultiCore

/-- The bytes of a character array. -/
def chars (s : String) : List (BitVec 8) := s.toList.map fun c => BitVec.ofNat 8 c.toNat

/-- `buffer[position] = c` -/
def storeChar (m : Memory) (buffer : U64) (position : Int) (c : BitVec 8) : Memory :=
  Function.update m (buffer + BitVec.ofInt 64 position) c

/-- `char digits_buffer[25]` -/
abbrev DigitsBuffer := Nat → BitVec 8

/-- `digits_buffer[i] = c` -/
def storeDigit (b : DigitsBuffer) (i : Nat) (c : BitVec 8) : Except Halt DigitsBuffer :=
  if i < 25 then .ok (Function.update b i c) else .error .fault

/-- `do { ... } while (digits != 0)`, with at most `turns` turns: the number of digits, and
the buffer with them. -/
def digitLoop (digitsMap : List (BitVec 8)) (base : U64) :
    Nat → Nat → U64 → DigitsBuffer → Except Halt (Nat × DigitsBuffer)
  | 0, _, _, _ => .error .runaway
  | turns + 1, size, digits, b => do
    let c ← deref digitsMap[(digits % base).toNat]?
    let b ← storeDigit b size c
    let size := size + 1
    let digits := digits / base
    if digits ≠ 0 then digitLoop digitsMap base turns size digits b else return (size, b)

/-- `for (int i = size - 1; i >= 0; i--)`, with `i + 1` turns left. -/
def copyDigits (b : DigitsBuffer) (buffer : U64) : Nat → Int → Memory → Int × Memory
  | 0, position, m => (position, m)
  | i + 1, position, m => copyDigits b buffer i (position + 1) (storeChar m buffer position (b i))

variable (digitsBuffer : DigitsBuffer) (m : Memory) (buffer : U64) (position : Int) (digits : U64)

def hexToString : Except Halt (Nat × Memory) := do
  let (size, b) ← digitLoop (chars "0123456789ABCDEF") 16 64 0 digits digitsBuffer
  let (position, m) := copyDigits b buffer size position m
  let m := storeChar m buffer position 0x48
  return (size + 1, m)

def udecimalToString : Except Halt (Nat × Memory) := do
  let (size, b) ← digitLoop (chars "0123456789") 10 64 0 digits digitsBuffer
  let (_, m) := copyDigits b buffer size position m
  return (size, m)

/-- The argument is an `int64_t`; `-digits` wraps around, and the cast to `uint64_t` takes
it as it is. -/
def decimalToString : Except Halt (Nat × Memory) :=
  if digits.toInt < 0 then do
    let (size, m) ← udecimalToString digitsBuffer (storeChar m buffer position 0x2d) buffer
      (position + 1) (-digits)
    return (1 + size, m)
  else udecimalToString digitsBuffer m buffer position digits

/-- The loop of `read_string`, with at most `turns` turns. -/
def stringLoop (buffer string : U64) : Nat → Nat → Int → Memory → Except Halt (Nat × Memory)
  | 0, _, _, _ => .error .runaway
  | turns + 1, index, position, m =>
    let c := m (string + BitVec.ofNat 64 index)
    if c ≠ 0 then
      stringLoop buffer string turns (index + 1) (position + 1) (storeChar m buffer position c)
    else .ok (index, m)

/-- The `index` is an `int`. -/
def readString (m : Memory) (buffer : U64) (position : Int) (string : U64) :
    Except Halt (Nat × Memory) :=
  stringLoop buffer string (2 ^ 31) 0 position m

/-- `va_arg(args, ...)` -/
def vaArg : List U64 → Except Halt (U64 × List U64)
  | [] => .error .fault
  | x :: args => .ok (x, args)

/-- `char buffer[1024]`: a text that is longer has run over the stack of `printk`. -/
def checkBuffer (bufferSize : Nat) : Except Halt Unit :=
  if bufferSize ≤ 1024 then .ok () else .error .fault

/-- What the `switch` calls for the character behind a `%`; `none` is its default. -/
def conversion (digitsBuffer : DigitsBuffer) (buffer : U64) (c : BitVec 8) :
    Option (Memory → Int → U64 → Except Halt (Nat × Memory)) :=
  if c = 0x78 then some fun m position x => hexToString digitsBuffer m buffer position x
  else if c = 0x75 then some fun m position x => udecimalToString digitsBuffer m buffer position x
  else if c = 0x64 then some fun m position x => decimalToString digitsBuffer m buffer position x
  else if c = 0x73 then some fun m position x => readString m buffer position x
  else none

/-- The loop of `printk`, with at most `turns` turns. What `digits_buffer` contains at the call
for the character `i` is `garbage i`. -/
def printkLoop (garbage : Nat → DigitsBuffer) (format buffer : U64) :
    Nat → Nat → Nat → List U64 → Memory → Except Halt (Nat × Memory)
  | 0, _, _, _, _ => .error .runaway
  | turns + 1, i, bufferSize, args, m =>
    let c := m (format + BitVec.ofNat 64 i)
    if c = 0 then .ok (bufferSize, m)
    else if c ≠ 0x25 then do
      checkBuffer (bufferSize + 1)
      printkLoop garbage format buffer turns (i + 1) (bufferSize + 1) args
        (storeChar m buffer bufferSize c)
    else
      -- `format[++i]`
      let i := i + 1
      match conversion (garbage i) buffer (m (format + BitVec.ofNat 64 i)) with
      | some write => do
        let (x, args) ← vaArg args
        let (size, m) ← write m bufferSize x
        checkBuffer (bufferSize + size)
        printkLoop garbage format buffer turns (i + 1) (bufferSize + size) args m
      | none => do
        checkBuffer (bufferSize + 1)
        let m := storeChar m buffer bufferSize 0x25
        let i := i - 1
        printkLoop garbage format buffer turns (i + 1) (bufferSize + 1) args m

/-- `printk` up to its `write_console`: the `buffer_size`, and the memory with the text. -/
def printkText (garbage : Nat → DigitsBuffer) (m : Memory) (format : U64) (args : List U64)
    (buffer : U64) : Except Halt (Nat × Memory) :=
  printkLoop garbage format buffer (2 ^ 31) 0 0 args m

end TinyMultiCore
