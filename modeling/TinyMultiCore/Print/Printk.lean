import TinyMultiCore.Print.Numbers

/-!
# What `printk` prints

A format is a text in which a `%` in front of one of four letters stands for the next argument; in
front of anything else it stands for itself, also at the end. `formatted` is the text that comes of
it. `printk` puts this text into its buffer and nothing anywhere else, as long as the strings are not
where it writes and the buffer has room for it.

* `stringLoop_eq`, `conversion_writes` — an argument;
* `loopPrints` — the loop, from any character of the format on;
* `printk_formats` — all of it.
-/

namespace TinyMultiCore

open ByteMemory

variable {m : Memory} {buffer string format x : U64} {c : BitVec 8} {text out rest : List (BitVec 8)}
  {garbage : Nat → DigitsBuffer} {words : List U64} {n : Nat}

-- ---------------------------------------------------------------------------
-- Formats
-- ---------------------------------------------------------------------------

/-- An argument of `printk`. -/
inductive PrintArg where
  | number (x : U64)
  | text (s : List (BitVec 8))

/-- What a letter behind a `%` asks for. -/
inductive Directive where
  | hex
  | unsigned
  | signed
  | string
  deriving DecidableEq

def directive (c : BitVec 8) : Option Directive :=
  if c = 0x78 then some .hex
  else if c = 0x75 then some .unsigned
  else if c = 0x64 then some .signed
  else if c = 0x73 then some .string
  else none

/-- The text of an argument of the right kind. -/
def Directive.print : Directive → PrintArg → Option (List (BitVec 8))
  | .hex, .number x => some (digitText 16 x.toNat ++ [0x48])
  | .unsigned, .number x => some (digitText 10 x.toNat)
  | .signed, .number x => some (signedText x)
  | .string, .text s => some s
  | _, _ => none

/-- The text of a format. There is none when an argument is missing or of the wrong kind. -/
def formatted : List (BitVec 8) → List PrintArg → Option (List (BitVec 8))
  | [], _ => some []
  | [c], _ => some [c]
  | c :: d :: rest, args =>
    if c = 0x25 then
      match directive d, args with
      | none, args => (formatted (d :: rest) args).map (c :: ·)
      | some _, [] => none
      | some k, x :: args =>
        (k.print x).bind fun text => (formatted rest args).map (text ++ ·)
    else (formatted (d :: rest) args).map (c :: ·)

/-- A character that does not begin with an argument. -/
theorem formatted_plain {args : List PrintArg} (hplain : c = 0x25 → directive (rest.headD 0) = none) :
    formatted (c :: rest) args = (formatted rest args).map (c :: ·) := by
  cases rest with
  | nil => rfl
  | cons d rest =>
    conv_lhs => unfold formatted
    by_cases hc : c = 0x25
    · rw [if_pos hc, show directive d = none from hplain hc]
    · rw [if_neg hc]

theorem formatted_argument {k : Directive} {arg : PrintArg} {args : List PrintArg}
    (hk : directive c = some k) : formatted (0x25 :: c :: rest) (arg :: args) =
      (k.print arg).bind fun text => (formatted rest args).map (text ++ ·) := by
  conv_lhs => unfold formatted
  rw [if_pos rfl, hk]

theorem formatted_missing {k : Directive} (hk : directive c = some k) :
    formatted (0x25 :: c :: rest) [] = none := by
  unfold formatted
  rw [if_pos rfl, hk]

-- ---------------------------------------------------------------------------
-- Texts in the memory
-- ---------------------------------------------------------------------------

/-- A text with a zero behind it, apart from the `n` bytes from `buffer` on. -/
structure TextAt (m : Memory) (buffer : U64) (n : Nat) (a : U64) (text : List (BitVec 8)) : Prop where
  char : ∀ i c, text[i]? = some c → m (a + BitVec.ofNat 64 i) = c ∧ c ≠ 0
  stop : m (a + BitVec.ofNat 64 text.length) = 0
  apart : ∀ i ≤ text.length, n ≤ (a + BitVec.ofNat 64 i - buffer).toNat

/-- What the caller passes for an argument. -/
def PrintArg.Passed (m : Memory) (buffer : U64) (n : Nat) : PrintArg → U64 → Prop
  | .number x, word => word = x
  | .text s, word => TextAt m buffer n word s

section

variable {done : List (BitVec 8)} {a : U64}

theorem writeText_apart (hx : done.length ≤ (x - buffer).toNat) : writeText m buffer done x = m x :=
  if_neg (Nat.not_lt.mpr hx)

/-- A text behind another one. -/
theorem writeText_append (h : done.length + text.length ≤ 2 ^ 64) :
    writeText (writeText m buffer done) (buffer + BitVec.ofInt 64 done.length) text =
      writeText m buffer (done ++ text) := by
  have hfirst : ∀ i < done.length, done.getD i 0 = (done ++ text).getD i 0 := by
    intro i hi
    rw [List.getD_append done text 0 i hi]
  have hsecond : ∀ i < text.length, text.getD i 0 = (done ++ text).getD (done.length + i) 0 := by
    intro i hi
    rw [List.getD_append_right done text 0 _ (Nat.le_add_right ..), Nat.add_sub_cancel_left]
  unfold writeText
  rw [BitVec.ofInt_natCast, blit_congr hfirst, blit_congr hsecond,
    blit_blit m buffer h fun i => (done ++ text).getD i 0, List.length_append]

theorem storeChar_writeText (h : done.length + 1 ≤ 2 ^ 64) :
    storeChar (writeText m buffer done) buffer done.length c = writeText m buffer (done ++ [c]) := by
  rw [storeChar, BitVec.ofInt_natCast, writeText_concat h]

namespace TextAt

/-- The text stays there while `printk` writes. -/
theorem writes (h : TextAt m buffer n a text) (done : List (BitVec 8)) (hdone : done.length ≤ n) :
    TextAt (writeText m buffer done) buffer n a text := by
  have hsame : ∀ i ≤ text.length, writeText m buffer done (a + BitVec.ofNat 64 i) =
      m (a + BitVec.ofNat 64 i) := fun i hi => writeText_apart (hdone.trans (h.apart i hi))
  refine ⟨fun i c hc => ?_, ?_, h.apart⟩
  · rw [hsame i (List.getElem?_eq_some_iff.mp hc).1.le]
    exact h.char i c hc
  · rw [hsame _ le_rfl]
    exact h.stop

/-- The first of the characters that are left. -/
theorem next {pre : List (BitVec 8)} (h : TextAt m buffer n a text) (htext : text = pre ++ c :: rest) :
    m (a + BitVec.ofNat 64 pre.length) = c ∧ c ≠ 0 :=
  h.char pre.length c (by rw [htext, List.getElem?_append_right le_rfl, Nat.sub_self]; rfl)

theorem finish {pre : List (BitVec 8)} (h : TextAt m buffer n a text) (htext : text = pre ++ []) :
    m (a + BitVec.ofNat 64 pre.length) = 0 := by
  rw [List.append_nil] at htext
  rw [← htext]
  exact h.stop

end TextAt

-- ---------------------------------------------------------------------------
-- Arguments
-- ---------------------------------------------------------------------------

/-- **`read_string`**, by induction on what is left of the string. What has been read so far and what
has been written so far are parameters, since the characters are read from a memory in which the first
of them have been written already. -/
theorem stringLoop_eq {turns : Nat} {pre : List (BitVec 8)} (h : TextAt m buffer n string text)
    (hn : n < 2 ^ 31) (htext : text = pre ++ rest) (hlen : done.length + rest.length ≤ n)
    (hturns : rest.length < turns) :
    stringLoop buffer string turns pre.length done.length (writeText m buffer done) =
      .ok (text.length, writeText m buffer (done ++ rest)) := by
  induction rest generalizing pre done turns with
  | nil =>
    obtain ⟨turns, rfl⟩ := Nat.exists_eq_succ_of_ne_zero (Nat.ne_of_gt (Nat.zero_lt_of_lt hturns))
    have hzero := (h.writes done (by omega)).finish htext
    unfold stringLoop
    dsimp only
    rw [hzero, if_neg (by decide), List.append_nil, htext, List.append_nil]
  | cons c rest ih =>
    obtain ⟨turns, rfl⟩ := Nat.exists_eq_succ_of_ne_zero (Nat.ne_of_gt (Nat.zero_lt_of_lt hturns))
    rw [List.length_cons] at hlen hturns
    obtain ⟨hchar, hne⟩ := (h.writes done (by omega)).next htext
    have hnext : stringLoop buffer string turns (pre ++ [c]).length (done ++ [c]).length
        (writeText m buffer (done ++ [c])) =
        .ok (text.length, writeText m buffer (done ++ [c] ++ rest)) :=
      ih (by simp [htext]) (by rw [List.length_append, List.length_singleton]; omega) (by omega)
    rw [List.length_append, List.length_append, List.length_singleton, List.append_assoc,
      List.singleton_append] at hnext
    unfold stringLoop
    dsimp only
    rw [hchar, if_pos hne, storeChar_writeText (by omega)]
    exact hnext

/-- The four letters. -/
theorem directive_cases {k : Directive} (hk : directive c = some k) :
    (c = 0x78 ∧ k = .hex) ∨ (c = 0x75 ∧ k = .unsigned) ∨ (c = 0x64 ∧ k = .signed) ∨
      (c = 0x73 ∧ k = .string) := by
  unfold directive at hk
  grind

theorem conversion_eq_none {digitsBuffer : DigitsBuffer} (h : directive c = none) :
    conversion digitsBuffer buffer c = none := by
  unfold directive at h
  unfold conversion
  grind

/-- **The `switch`**: what it calls writes the text of the argument. The four functions have one shape,
so the loop needs to know them by this only: the text goes behind what is there, and its length is
what they return. -/
theorem conversion_writes {k : Directive} {arg : PrintArg} {word : U64} (digitsBuffer : DigitsBuffer)
    (hk : directive c = some k) (ht : k.print arg = some text) (harg : arg.Passed m buffer n word)
    (hn : n < 2 ^ 31) (hlen : done.length + text.length ≤ n) :
    ∃ write, conversion digitsBuffer buffer c = some write ∧
      write (writeText m buffer done) done.length word =
        .ok (text.length, writeText m buffer (done ++ text)) := by
  have happend : writeText (writeText m buffer done) (buffer + BitVec.ofInt 64 done.length) text =
      writeText m buffer (done ++ text) := writeText_append (by omega)
  rcases directive_cases hk with ⟨rfl, rfl⟩ | ⟨rfl, rfl⟩ | ⟨rfl, rfl⟩ | ⟨rfl, rfl⟩
  · -- `%x`
    cases arg with
    | text s => cases ht
    | number x =>
      cases ht
      obtain rfl : word = x := harg
      exact ⟨_, rfl, (hexToString_eq ..).trans (by rw [happend])⟩
  · -- `%u`
    cases arg with
    | text s => cases ht
    | number x =>
      cases ht
      obtain rfl : word = x := harg
      exact ⟨_, rfl, (udecimalToString_eq ..).trans (by rw [happend])⟩
  · -- `%d`
    cases arg with
    | text s => cases ht
    | number x =>
      cases ht
      obtain rfl : word = x := harg
      exact ⟨_, rfl, (decimalToString_eq ..).trans (by rw [happend])⟩
  · -- `%s`
    cases arg with
    | number x => cases ht
    | text s =>
      cases ht
      exact ⟨_, rfl, stringLoop_eq harg hn (List.nil_append text).symm hlen (by omega)⟩

end

-- ---------------------------------------------------------------------------
-- The loop
-- ---------------------------------------------------------------------------

section

variable {turns i size : Nat}

theorem checkBuffer_bind {α : Type} (f : Unit → Except Halt α) :
    (checkBuffer size >>= f) = if size ≤ 1024 then f () else .error .fault := by
  unfold checkBuffer
  split <;> rfl

/-- A character that is printed as it is. -/
theorem printkLoop_plain (hc : m (format + BitVec.ofNat 64 i) = c) (hne : c ≠ 0)
    (hplain : c = 0x25 → directive (m (format + BitVec.ofNat 64 (i + 1))) = none) :
    printkLoop garbage format buffer (turns + 1) i size words m =
      if size + 1 ≤ 1024 then
        printkLoop garbage format buffer turns (i + 1) (size + 1) words (storeChar m buffer size c)
      else .error .fault := by
  conv_lhs => unfold printkLoop
  dsimp only
  rw [hc, if_neg hne]
  by_cases hpercent : c = 0x25
  · rw [if_neg (not_not.mpr hpercent), conversion_eq_none (hplain hpercent), hpercent]
    exact checkBuffer_bind _
  · rw [if_pos hpercent]
    exact checkBuffer_bind _

/-- A `%` that stands for an argument. -/
theorem printkLoop_argument {write : Memory → Int → U64 → Except Halt (Nat × Memory)} {word : U64}
    {written : Nat} {m' : Memory} (hc : m (format + BitVec.ofNat 64 i) = 0x25)
    (hwrite : conversion (garbage (i + 1)) buffer (m (format + BitVec.ofNat 64 (i + 1))) = some write)
    (hok : write m size word = .ok (written, m')) :
    printkLoop garbage format buffer (turns + 1) i size (word :: words) m =
      if size + written ≤ 1024 then
        printkLoop garbage format buffer turns (i + 2) (size + written) words m'
      else .error .fault := by
  conv_lhs => unfold printkLoop
  dsimp only
  rw [hc, if_neg (by decide), if_neg (by decide), hwrite]
  dsimp only
  rw [show vaArg (word :: words) = .ok (word, words) from rfl, ok_bind]
  dsimp only
  rw [hok, ok_bind]
  exact checkBuffer_bind _

end

/-- The character behind the one that is next. -/
theorem TextAt.head {a : U64} {pre : List (BitVec 8)} (h : TextAt m buffer n a text)
    (htext : text = pre ++ c :: rest) : m (a + BitVec.ofNat 64 (pre.length + 1)) = rest.headD 0 := by
  have htext' : text = (pre ++ [c]) ++ rest := by rw [htext, List.append_assoc, List.singleton_append]
  rw [show pre.length + 1 = (pre ++ [c]).length by simp]
  cases rest with
  | nil => exact h.finish htext'
  | cons d rest => exact (h.next htext').1

/-- In front of the part `rest` of the format `fmt`, with the text `done` in the buffer, the loop
prints what `rest` stands for, or runs over the end of the buffer. -/
def LoopPrints (garbage : Nat → DigitsBuffer) (m : Memory) (format buffer : U64) (n : Nat)
    (fmt rest : List (BitVec 8)) (args : List PrintArg) : Prop :=
  ∀ pre done out words turns, fmt = pre ++ rest → List.Forall₂ (PrintArg.Passed m buffer n) args words →
    formatted rest args = some out → done.length + out.length ≤ n → done.length ≤ 1024 →
    rest.length < turns →
    printkLoop garbage format buffer turns pre.length done.length words (writeText m buffer done) =
      if done.length + out.length ≤ 1024 then
        .ok (done.length + out.length, writeText m buffer (done ++ out))
      else .error .fault

namespace LoopPrints

variable {fmt : List (BitVec 8)} {args : List PrintArg}

theorem nil (hformat : TextAt m buffer n format fmt) :
    LoopPrints garbage m format buffer n fmt [] args := by
  intro pre done out words turns hfmt _ hout hlen hroom hturns
  obtain ⟨turns, rfl⟩ := Nat.exists_eq_succ_of_ne_zero (Nat.ne_of_gt hturns)
  cases hout
  rw [List.length_nil] at hlen ⊢
  rw [if_pos (show done.length + 0 ≤ 1024 from hroom)]
  have hzero := (hformat.writes done (by omega)).finish hfmt
  unfold printkLoop
  dsimp only
  rw [hzero, if_pos rfl, List.append_nil]
  rfl

/-- One more character of the text. -/
theorem char (hformat : TextAt m buffer n format fmt)
    (hplain : c = 0x25 → directive (rest.headD 0) = none)
    (h : LoopPrints garbage m format buffer n fmt rest args) :
    LoopPrints garbage m format buffer n fmt (c :: rest) args := by
  intro pre done out words turns hfmt hargs hout hlen hroom hturns
  obtain ⟨turns, rfl⟩ := Nat.exists_eq_succ_of_ne_zero (Nat.ne_of_gt (Nat.zero_lt_of_lt hturns))
  rw [formatted_plain hplain] at hout
  obtain ⟨out', hout', rfl⟩ := Option.map_eq_some_iff.mp hout
  rw [List.length_cons] at hlen hturns ⊢
  have hthere := hformat.writes done (by omega)
  obtain ⟨hchar, hne⟩ := hthere.next hfmt
  rw [printkLoop_plain hchar hne fun hpercent => (hthere.head hfmt).symm ▸ hplain hpercent,
    storeChar_writeText (by omega)]
  by_cases hnow : done.length + 1 ≤ 1024
  · have hnext := h (pre ++ [c]) (done ++ [c]) out' words turns (by simp [hfmt]) hargs hout'
      (by rw [List.length_append, List.length_singleton]; omega)
      (by rw [List.length_append, List.length_singleton]; exact hnow) (by omega)
    rw [List.length_append, List.length_append, List.length_singleton, List.append_assoc,
      List.singleton_append] at hnext
    rw [if_pos hnow, hnext, Nat.add_assoc, Nat.add_comm 1]
  · rw [if_neg hnow, if_neg (by omega)]

/-- The text of an argument. -/
theorem argument {k : Directive} {arg : PrintArg} (hformat : TextAt m buffer n format fmt)
    (hn : n < 2 ^ 31) (hk : directive c = some k)
    (h : LoopPrints garbage m format buffer n fmt rest args) :
    LoopPrints garbage m format buffer n fmt (0x25 :: c :: rest) (arg :: args) := by
  intro pre done out words turns hfmt hargs hout hlen hroom hturns
  obtain ⟨turns, rfl⟩ := Nat.exists_eq_succ_of_ne_zero (Nat.ne_of_gt (Nat.zero_lt_of_lt hturns))
  obtain ⟨word, words, harg, hrest, rfl⟩ := List.forall₂_cons_left_iff.mp hargs
  rw [formatted_argument hk] at hout
  obtain ⟨text, htext, hout⟩ := Option.bind_eq_some_iff.mp hout
  obtain ⟨out', hout', rfl⟩ := Option.map_eq_some_iff.mp hout
  rw [List.length_append] at hlen ⊢
  rw [List.length_cons, List.length_cons] at hturns
  have hthere := hformat.writes done (by omega)
  obtain ⟨hchar, -⟩ := hthere.next hfmt
  have hletter := hthere.head hfmt
  have hfits : done.length + text.length ≤ n := by omega
  obtain ⟨write, hconv, hwrite⟩ := conversion_writes (garbage (pre.length + 1)) hk htext harg hn hfits
  rw [printkLoop_argument hchar (hletter.symm ▸ hconv) hwrite]
  by_cases hnow : done.length + text.length ≤ 1024
  · have hnext := h (pre ++ [0x25, c]) (done ++ text) out' words turns (by simp [hfmt]) hrest hout'
      (by rw [List.length_append]; omega) (by rw [List.length_append]; exact hnow) (by omega)
    rw [List.length_append, List.length_append, List.append_assoc] at hnext
    rw [if_pos hnow]
    exact hnext.trans (by rw [Nat.add_assoc])
  · rw [if_neg hnow, if_neg (by omega)]

/-- All of the format. -/
theorem printkText (h : LoopPrints garbage m format buffer n fmt fmt args)
    (hargs : List.Forall₂ (PrintArg.Passed m buffer n) args words) (hout : formatted fmt args = some out)
    (hlen : out.length ≤ n) (hfmt : fmt.length < 2 ^ 31) :
    printkText garbage m format words buffer =
      if out.length ≤ 1024 then .ok (out.length, writeText m buffer out) else .error .fault := by
  have hloop := h [] [] out words (2 ^ 31) rfl hargs hout (by simpa using hlen) (Nat.zero_le _) hfmt
  have hempty : writeText m buffer [] = m := blit_zero ..
  rw [hempty, List.nil_append, List.length_nil, Nat.zero_add] at hloop
  exact hloop

end LoopPrints

/-- **The loop of `printk`**, by induction on what is left of the format, with the cases of `formatted`:
a character, a `%` in front of something else, which stands for itself and lets the next turn look at
that character again, a directive with its argument, and one that has no argument left. -/
theorem loopPrints (garbage : Nat → DigitsBuffer) {fmt : List (BitVec 8)}
    (hformat : TextAt m buffer n format fmt) (hn : n < 2 ^ 31)
    (rest : List (BitVec 8)) (args : List PrintArg) :
    LoopPrints garbage m format buffer n fmt rest args := by
  induction rest, args using formatted.induct with
  | case1 args => exact .nil hformat
  | case2 c args => exact .char hformat (fun _ => by decide) (.nil hformat)
  | case3 d rest args hnone ih =>
    -- a `%` that stands for itself
    exact .char hformat (fun _ => hnone) ih
  | case4 d rest k hk =>
    -- the argument is missing
    intro pre done out words turns _ _ hout
    rw [formatted_missing hk] at hout
    cases hout
  | case5 d rest k arg args hk ih => exact .argument hformat hn hk ih
  | case6 c d rest args hne ih => exact .char hformat (fun he => absurd he hne) ih

/-- **`printk`** puts the text of its format into its buffer, from the beginning on, and changes
nothing else in the memory, if the text has at most 1024 bytes; a longer one runs over the stack. The
format and the strings are not where the text goes, and the arguments are of the kinds that the
format asks for. The lengths are those that `printk` can count, its counters are `int`s. -/
theorem printk_formats (garbage : Nat → DigitsBuffer) {fmt : List (BitVec 8)} {args : List PrintArg}
    (hformat : TextAt m buffer text.length format fmt)
    (hargs : List.Forall₂ (PrintArg.Passed m buffer text.length) args words)
    (htext : formatted fmt args = some text) (hlen : text.length < 2 ^ 31) (hfmt : fmt.length < 2 ^ 31) :
    printkText garbage m format words buffer =
      if text.length ≤ 1024 then .ok (text.length, writeText m buffer text) else .error .fault :=
  (loopPrints garbage hformat hlen fmt args).printkText hargs htext le_rfl hfmt

theorem TextAt.of_forall {a : U64} (hchar : ∀ i < text.length,
      m (a + BitVec.ofNat 64 i) = text.getD i 0 ∧ text.getD i 0 ≠ 0)
    (hstop : m (a + BitVec.ofNat 64 text.length) = 0)
    (hapart : ∀ i < text.length + 1, n ≤ (a + BitVec.ofNat 64 i - buffer).toNat) :
    TextAt m buffer n a text := by
  refine ⟨fun i c hc => ?_, hstop, fun i hi => hapart i (Nat.lt_succ_of_le hi)⟩
  have hlt := (List.getElem?_eq_some_iff.mp hc).1
  have hget : text.getD i 0 = c := by rw [List.getD_eq_getElem?_getD, hc]; rfl
  rw [← hget]
  exact hchar i hlt

/-- The format of `error_check` at 0x1000, and the name of a file at 0x2000. -/
def assertMemory : Memory :=
  writeText (writeText (fun _ => 0) 0x1000 (chars "Assertion Failed [%s: %u]")) 0x2000 (chars "main.c")

theorem assertion_printed :
    printkText (fun _ _ => 0xff) assertMemory 0x1000 [0x2000, 42] 0x3000 =
      .ok (29, writeText assertMemory 0x3000 (chars "Assertion Failed [main.c: 42]")) := by
  have hformat : TextAt assertMemory 0x3000 29 0x1000 (chars "Assertion Failed [%s: %u]") :=
    .of_forall (by decide +kernel) (by decide +kernel) (by decide +kernel)
  have hname : TextAt assertMemory 0x3000 29 0x2000 (chars "main.c") :=
    .of_forall (by decide +kernel) (by decide +kernel) (by decide +kernel)
  have hargs : List.Forall₂ (PrintArg.Passed assertMemory 0x3000 29)
      [.text (chars "main.c"), .number 42] [0x2000, 42] := .cons hname (.cons rfl .nil)
  have htext : formatted (chars "Assertion Failed [%s: %u]") [.text (chars "main.c"), .number 42] =
      some (chars "Assertion Failed [main.c: 42]") := by
    decide +kernel
  exact (printk_formats (fun _ _ => 0xff) hformat hargs htext (by decide) (by decide)).trans
    (if_pos (by decide))

end TinyMultiCore
