import Mathlib.Data.List.GetD
import TinyMultiCore.Lib.Copy
import TinyMultiCore.Lib.Positional
import TinyMultiCore.Print.Model

/-!
# Numbers read back

What the functions write is the numeral of the number, digit by digit, and nothing else; the
digits fit into the buffer that collects them. `readHex`, `readUnsigned` and `readSigned` are
how a reader takes such a text.

* `digitLoop_eq`, `copyDigits_eq` — the two loops: the digits in reverse, and reversed again;
* `hexToString_eq`, `udecimalToString_eq`, `decimalToString_eq` — the text of each function;
* `numbers_round_trip` — reading it back gives the number.
-/

namespace TinyMultiCore

open ByteMemory Positional

-- ---------------------------------------------------------------------------
-- Reading numbers
-- ---------------------------------------------------------------------------

/-- The value of a character that is a digit in the base. -/
def digitValue (base : Nat) (c : BitVec 8) : Option Nat :=
  if 0x30 ≤ c.toNat ∧ c.toNat ≤ 0x39 ∧ c.toNat - 0x30 < base then some (c.toNat - 0x30)
  else if 0x41 ≤ c.toNat ∧ c.toNat ≤ 0x46 ∧ c.toNat - 0x41 + 10 < base then
    some (c.toNat - 0x41 + 10)
  else none

/-- A text of digits. -/
def readDigits (base : Nat) (text : List (BitVec 8)) : Option Nat :=
  if text = [] then none
  else text.foldlM (fun acc c => (digitValue base c).map fun d => base * acc + d) 0

/-- Hexadecimal digits in front of an `H`. -/
def readHex (text : List (BitVec 8)) : Option Nat :=
  if text.getLast? = some 0x48 then readDigits 16 text.dropLast else none

/-- Decimal digits. -/
def readUnsigned (text : List (BitVec 8)) : Option Nat := readDigits 10 text

/-- Decimal digits, and maybe a `-` in front of them. -/
def readSigned : List (BitVec 8) → Option Int
  | [] => none
  | c :: text =>
    if c = 0x2d then (readDigits 10 text).map fun (n : Nat) => -(n : Int)
    else (readDigits 10 (c :: text)).map fun (n : Nat) => (n : Int)

/-- The text behind its sign. -/
def afterSign : List (BitVec 8) → List (BitVec 8)
  | [] => []
  | c :: text => if c = 0x2d then text else c :: text

/-- There is no digit behind a zero that is the first digit of the text. -/
def NoLeadingZero (text : List (BitVec 8)) : Prop :=
  ∀ c rest, afterSign text = 0x30 :: c :: rest → digitValue 16 c = none

/-- The character of a digit. -/
def digitChar (d : Nat) : BitVec 8 := BitVec.ofNat 8 (if d < 10 then 0x30 + d else 0x41 + (d - 10))

/-- A number as it is printed in a base. -/
def digitText (b n : Nat) : List (BitVec 8) := (numeral b n).map digitChar

theorem digitValue_digitChar {b d : Nat} (hd : d < b) (hb : b ≤ 16) :
    digitValue b (digitChar d) = some d := by
  unfold digitValue digitChar
  by_cases h10 : d < 10
  · rw [if_pos h10, BitVec.toNat_ofNat, Nat.mod_eq_of_lt (by omega), if_pos (by omega)]
    congr 1
    omega
  · rw [if_neg h10, BitVec.toNat_ofNat, Nat.mod_eq_of_lt (by omega), if_neg (by omega),
      if_pos (by omega)]
    congr 1
    omega

theorem foldlM_digitChar {b : Nat} (hb : b ≤ 16) {ds : List Nat} (hds : ∀ d ∈ ds, d < b) (acc : Nat) :
    (ds.map digitChar).foldlM (fun acc c => (digitValue b c).map fun d => b * acc + d) acc =
      some (ds.foldl (fun acc d => b * acc + d) acc) := by
  induction ds generalizing acc with
  | nil => rfl
  | cons d ds ih =>
    rw [List.map_cons, List.foldlM_cons, digitValue_digitChar (hds d List.mem_cons_self) hb]
    exact ih (fun e he => hds e (List.mem_cons_of_mem d he)) (b * acc + d)

/-- A printed number reads back. -/
theorem readDigits_digitText {b n : Nat} (hb : 1 < b) (hb' : b ≤ 16) :
    readDigits b (digitText b n) = some n := by
  unfold readDigits digitText
  rw [if_neg (by simpa using numeral_ne_nil), foldlM_digitChar hb' (fun d hd => numeral_lt hb hd)]
  exact congrArg some value_numeral

/-- Only zero is printed with a zero in front. -/
theorem digitText_head {b n : Nat} (hb : 1 < b) (hb' : b ≤ 16) {rest : List (BitVec 8)}
    (h : digitText b n = 0x30 :: rest) : rest = [] := by
  obtain ⟨d, ds, hnum, hd, hrest⟩ := List.map_eq_cons_iff.mp h
  have hlt : d < b := numeral_lt hb (by rw [hnum]; exact List.mem_cons_self)
  have hzero : d = 0 := by
    have := digitValue_digitChar hlt hb'
    rw [hd, digitValue, if_pos ⟨by decide, by decide, by show 0 < b; omega⟩] at this
    exact (Option.some.inj this).symm
  have hone := numeral_head (b := b) (n := n) (by rw [hnum, hzero]; rfl)
  rw [hnum] at hone
  rw [← hrest, (List.cons.inj hone).2]
  rfl

-- ---------------------------------------------------------------------------
-- The loops
-- ---------------------------------------------------------------------------

/-- `m` with the text written from `a` on. -/
def writeText (m : Memory) (a : U64) (text : List (BitVec 8)) : Memory :=
  blit m a text.length fun i => text.getD i 0

variable {digitsBuffer b : DigitsBuffer} {m : Memory} {buffer digits : U64} {position : Int}

/-- **The first loop** leaves the digits in the buffer from `size` on, the last one first. By
induction on the turns: `do ... while` takes one at least, so zero has a digit. The bound of 25 is the
size of `digits_buffer`, and a store behind it would be a fault. -/
theorem digitLoop_eq {digitsMap : List (BitVec 8)} {base : U64} (hbase : 1 < base.toNat)
    (hmap : ∀ d < base.toNat, digitsMap[d]? = some (digitChar d)) {turns size : Nat}
    (hturns : (lowDigits base.toNat digits.toNat).length ≤ turns)
    (hsize : size + (lowDigits base.toNat digits.toNat).length ≤ 25) :
    ∃ b', digitLoop digitsMap base turns size digits b =
        .ok (size + (lowDigits base.toNat digits.toNat).length, b') ∧
      (∀ i < size, b' i = b i) ∧
      ∀ i d, (lowDigits base.toNat digits.toNat)[i]? = some d → b' (size + i) = digitChar d := by
  induction turns generalizing size digits b with
  | zero => exact absurd (List.eq_nil_of_length_eq_zero (Nat.le_zero.mp hturns)) lowDigits_ne_nil
  | succ turns ih =>
    have hpos := List.length_pos_of_ne_nil (lowDigits_ne_nil (b := base.toNat) (n := digits.toNat))
    have hmod : (digits % base).toNat = digits.toNat % base.toNat := BitVec.toNat_umod
    have hdiv : (digits / base).toNat = digits.toNat / base.toNat := BitVec.toNat_udiv
    have hchar : deref digitsMap[(digits % base).toNat]? =
        .ok (digitChar (digits.toNat % base.toNat)) := by
      rw [hmod, hmap _ (Nat.mod_lt _ (by omega))]
      rfl
    have hstore : storeDigit b size (digitChar (digits.toNat % base.toNat)) =
        .ok (Function.update b size (digitChar (digits.toNat % base.toNat))) :=
      if_pos (by omega)
    unfold digitLoop
    rw [hchar, ok_bind, hstore, ok_bind]
    dsimp only
    by_cases hlast : digits / base = 0
    · -- the first digit of the numeral
      have hlt : digits.toNat < base.toNat := by
        have h0 : digits.toNat / base.toNat = 0 := by rw [← hdiv, hlast]; rfl
        exact (Nat.div_eq_zero_iff.mp h0).resolve_left (by omega)
      rw [if_neg (not_not.mpr hlast), lowDigits_of_lt hlt, Nat.mod_eq_of_lt hlt]
      refine ⟨_, rfl, fun i hi => Function.update_of_ne (Nat.ne_of_lt hi) .., fun i d hd => ?_⟩
      rw [List.getElem?_singleton, Option.ite_none_right_eq_some] at hd
      rw [hd.1, ← Option.some.inj hd.2]
      exact Function.update_self ..
    · have hne : digits.toNat / base.toNat ≠ 0 := by
        rw [← hdiv]
        exact fun h0 => hlast (BitVec.eq_of_toNat_eq h0)
      have hcons := lowDigits_of_div_ne hbase hne
      rw [hcons, List.length_cons] at hturns hsize
      rw [← hdiv] at hturns hsize hcons
      have hturns' : (lowDigits base.toNat (digits / base).toNat).length ≤ turns := by omega
      have hsize' : size + 1 + (lowDigits base.toNat (digits / base).toNat).length ≤ 25 := by omega
      obtain ⟨b', hloop, hkeep, hnew⟩ := ih
        (b := Function.update b size (digitChar (digits.toNat % base.toNat))) hturns' hsize'
      rw [if_pos hlast, hloop, hcons, List.length_cons]
      refine ⟨b', ?_, fun i hi => ?_, fun i d hd => ?_⟩
      · rw [Nat.add_assoc, Nat.add_comm 1]
      · rw [hkeep i (by omega)]
        exact Function.update_of_ne (Nat.ne_of_lt hi) ..
      · match i, hd with
        | 0, hd =>
          obtain rfl := Option.some.inj hd
          rw [hkeep (size + 0) (by omega)]
          exact Function.update_self ..
        | i + 1, hd =>
          rw [← hnew i d hd, Nat.add_assoc, Nat.add_comm 1]

/-- **The second loop** copies the digits out, the first one in the buffer last, which puts them in
the order in which they are read. -/
theorem copyDigits_eq {n : Nat} (hn : n ≤ 2 ^ 64) :
    copyDigits b buffer n position m = (position + n,
      blit m (buffer + BitVec.ofInt 64 position) n fun i => b (n - 1 - i)) := by
  induction n generalizing position m with
  | zero =>
    rw [copyDigits, blit_zero, Nat.cast_zero, Int.add_zero]
  | succ n ih =>
    have hnext : buffer + BitVec.ofInt 64 (position + 1) = buffer + BitVec.ofInt 64 position + 1 := by
      rw [BitVec.ofInt_add, BitVec.add_assoc]
      rfl
    rw [copyDigits, ih (by omega), storeChar, hnext]
    have hblit := blit_update (m := m) (d := buffer + BitVec.ofInt 64 position) (b n)
      (f := fun i => b (n + 1 - 1 - i)) hn rfl
    have hbytes : ∀ i < n, b (n - 1 - i) = b (n + 1 - 1 - (i + 1)) := by
      intro i _
      exact congrArg b (by omega)
    rw [← hblit, blit_congr hbytes, Nat.cast_add, Nat.cast_one, Int.add_assoc, Int.add_comm 1]

-- ---------------------------------------------------------------------------
-- The texts
-- ---------------------------------------------------------------------------

section

variable {a : U64} {c : BitVec 8} {text : List (BitVec 8)}

theorem writeText_cons (h : text.length + 1 ≤ 2 ^ 64) :
    writeText (Function.update m a c) (a + 1) text = writeText m a (c :: text) :=
  blit_update c (f := fun i => (c :: text).getD i 0) h rfl

theorem writeText_concat (h : text.length + 1 ≤ 2 ^ 64) :
    Function.update (writeText m a text) (a + BitVec.ofNat 64 text.length) c =
      writeText m a (text ++ [c]) := by
  have hfirst : ∀ i < text.length, text.getD i 0 = (text ++ [c]).getD i 0 := by
    intro i hi
    rw [List.getD_append text [c] 0 i hi]
  have hlast : (text ++ [c]).getD (text.length + 0) 0 = c := by
    rw [Nat.add_zero, List.getD_append_right text [c] 0 text.length le_rfl, Nat.sub_self]
    rfl
  rw [update_eq_blit c (f := fun i => (text ++ [c]).getD (text.length + i) 0) (by decide) hlast]
  unfold writeText
  rw [blit_congr hfirst, blit_blit m a h fun i => (text ++ [c]).getD i 0, List.length_append]
  rfl

end

theorem length_digitText (b n : Nat) : (digitText b n).length = (lowDigits b n).length := by
  rw [digitText, List.length_map, numeral, List.length_reverse]

/-- **Both loops** write the number in the base. -/
theorem digits_written (digitsMap : List (BitVec 8)) {base : U64} {k : Nat} (hk : base.toNat = k)
    (hbase : 1 < k) (hmap : ∀ d < k, digitsMap[d]? = some (digitChar d)) (digits : U64)
    (hlen : (digitText k digits.toNat).length ≤ 25) (digitsBuffer : DigitsBuffer) (m : Memory)
    (buffer : U64) (position : Int) :
    ∃ b, digitLoop digitsMap base 64 0 digits digitsBuffer =
        .ok ((digitText k digits.toNat).length, b) ∧
      copyDigits b buffer (digitText k digits.toNat).length position m =
        (position + (digitText k digits.toNat).length,
          writeText m (buffer + BitVec.ofInt 64 position) (digitText k digits.toNat)) := by
  subst hk
  rw [length_digitText] at hlen
  have hturns : (lowDigits base.toNat digits.toNat).length ≤ 64 := hlen.trans (by decide)
  have hsize : 0 + (lowDigits base.toNat digits.toNat).length ≤ 25 := by rwa [Nat.zero_add]
  obtain ⟨b, hloop, -, hnew⟩ := digitLoop_eq (b := digitsBuffer) hbase hmap hturns hsize
  rw [Nat.zero_add, ← length_digitText] at hloop
  refine ⟨b, hloop, ?_⟩
  rw [copyDigits_eq (by rw [length_digitText]; omega)]
  refine congrArg (Prod.mk _) (blit_congr fun i hi => ?_)
  -- the characters in the buffer are those of the text, from its end
  rw [length_digitText] at hi ⊢
  have hget : (lowDigits base.toNat digits.toNat)[(lowDigits base.toNat digits.toNat).length - 1 - i]? =
      some ((lowDigits base.toNat digits.toNat)[(lowDigits base.toNat digits.toNat).length - 1 - i]) :=
    List.getElem?_eq_getElem (by omega)
  have hchar := hnew _ _ hget
  rw [Nat.zero_add] at hchar
  rw [hchar, digitText, List.getD_eq_getElem?_getD, List.getElem?_map, numeral,
    List.getElem?_reverse hi, hget]
  rfl

/-- A 64-bit number has at most 16 hexadecimal digits. -/
theorem length_digitText_hex (digits : U64) : (digitText 16 digits.toNat).length ≤ 16 := by
  rw [length_digitText]
  exact length_lowDigits_le (by decide) (by decide) (lt_of_lt_of_le digits.isLt (by decide))

/-- And at most 20 decimal ones. -/
theorem length_digitText_decimal (digits : U64) : (digitText 10 digits.toNat).length ≤ 20 := by
  rw [length_digitText]
  exact length_lowDigits_le (by decide) (by decide) (lt_of_lt_of_le digits.isLt (by decide))

section

variable (digitsBuffer : DigitsBuffer) (m : Memory) (buffer : U64) (position : Int) (digits : U64)

/-- **`hex_to_string`** -/
theorem hexToString_eq : hexToString digitsBuffer m buffer position digits =
    .ok ((digitText 16 digits.toNat ++ [0x48]).length,
      writeText m (buffer + BitVec.ofInt 64 position) (digitText 16 digits.toNat ++ [0x48])) := by
  have hlen := length_digitText_hex digits
  obtain ⟨b, hloop, hcopy⟩ := digits_written (chars "0123456789ABCDEF")
    (show (16 : U64).toNat = 16 from rfl) (by decide) (by decide) digits (by omega) digitsBuffer m
    buffer position
  unfold hexToString
  rw [hloop, ok_bind]
  dsimp only
  rw [hcopy]
  dsimp only
  rw [storeChar, BitVec.ofInt_add, ← BitVec.add_assoc, BitVec.ofInt_natCast,
    writeText_concat (by omega), List.length_append]
  rfl

/-- **`udecimal_to_string`** -/
theorem udecimalToString_eq : udecimalToString digitsBuffer m buffer position digits =
    .ok ((digitText 10 digits.toNat).length,
      writeText m (buffer + BitVec.ofInt 64 position) (digitText 10 digits.toNat)) := by
  have hlen := length_digitText_decimal digits
  obtain ⟨b, hloop, hcopy⟩ := digits_written (chars "0123456789")
    (show (10 : U64).toNat = 10 from rfl) (by decide) (by decide) digits (by omega) digitsBuffer m
    buffer position
  unfold udecimalToString
  rw [hloop, ok_bind]
  dsimp only
  rw [hcopy]
  rfl

/-- The text of a signed number. -/
def signedText (digits : U64) : List (BitVec 8) :=
  if digits.toInt < 0 then 0x2d :: digitText 10 (-digits).toNat else digitText 10 digits.toNat

/-- **`decimal_to_string`** -/
theorem decimalToString_eq : decimalToString digitsBuffer m buffer position digits =
    .ok ((signedText digits).length,
      writeText m (buffer + BitVec.ofInt 64 position) (signedText digits)) := by
  unfold decimalToString signedText
  by_cases hneg : digits.toInt < 0
  · have hlen := length_digitText_decimal (-digits)
    have hnext : buffer + BitVec.ofInt 64 (position + 1) = buffer + BitVec.ofInt 64 position + 1 := by
      rw [BitVec.ofInt_add, BitVec.add_assoc]
      rfl
    rw [if_pos hneg, if_pos hneg, udecimalToString_eq, ok_bind, hnext, storeChar]
    dsimp only
    rw [writeText_cons (by omega), List.length_cons, Nat.add_comm]
    rfl
  · rw [if_neg hneg, if_neg hneg, udecimalToString_eq]

end

-- ---------------------------------------------------------------------------
-- The round trips
-- ---------------------------------------------------------------------------

/-- The negated value, read without its sign, is the distance from zero, also for the most
negative value. -/
theorem neg_toNat_of_neg {digits : U64} (h : digits.toInt < 0) :
    -((-digits).toNat : Int) = digits.toInt := by
  have hpos : digits.toNat ≠ 0 := by
    intro h0
    rw [show digits = 0 from BitVec.eq_of_toNat_eq h0] at h
    exact absurd h (by decide)
  have hlt := digits.isLt
  rw [BitVec.toInt_eq_toNat_cond] at h ⊢
  rw [BitVec.toNat_neg, Nat.mod_eq_of_lt (by omega)]
  split at h
  · omega
  · rename_i hge
    rw [if_neg hge]
    omega

theorem readHex_digitText (n : Nat) : readHex (digitText 16 n ++ [0x48]) = some n := by
  unfold readHex
  rw [if_pos List.getLast?_concat, List.dropLast_concat]
  exact readDigits_digitText (by decide) (by decide)

/-- A digit is no sign. -/
theorem digitText_ne_minus {k n : Nat} {c : BitVec 8} {rest : List (BitVec 8)} (hk : 1 < k)
    (hk' : k ≤ 16) (h : digitText k n = c :: rest) : c ≠ 0x2d := by
  obtain ⟨d, ds, hnum, hd, -⟩ := List.map_eq_cons_iff.mp h
  have hlt : d < k := numeral_lt hk (by rw [hnum]; exact List.mem_cons_self)
  rintro rfl
  have := digitValue_digitChar hlt hk'
  rw [hd] at this
  exact absurd this (by simp [digitValue])

theorem digitText_cons (k n : Nat) : ∃ c rest, digitText k n = c :: rest := by
  refine List.exists_cons_of_ne_nil fun h => ?_
  exact numeral_ne_nil (List.map_eq_nil_iff.mp h)

theorem readSigned_signedText (digits : U64) :
    readSigned (signedText digits) = some digits.toInt := by
  unfold signedText
  by_cases hneg : digits.toInt < 0
  · rw [if_pos hneg, readSigned, if_pos rfl, readDigits_digitText (by decide) (by decide),
      Option.map_some, neg_toNat_of_neg hneg]
  · obtain ⟨c, rest, htext⟩ := digitText_cons 10 digits.toNat
    have hread := readDigits_digitText (b := 10) (n := digits.toNat) (by decide) (by decide)
    have hle : ((digits.toNat : Int)) = digits.toInt := by
      have hlt := digits.isLt
      rw [BitVec.toInt_eq_toNat_cond] at hneg ⊢
      split at hneg
      · rename_i hsmall
        rw [if_pos hsmall]
      · omega
    rw [if_neg hneg, htext, readSigned, if_neg (digitText_ne_minus (by decide) (by decide) htext),
      ← htext, hread, Option.map_some, hle]

/-- Behind the sign there are digits, and behind a first digit zero none. -/
theorem noLeadingZero_digitText {k n : Nat} (hk : 1 < k) (hk' : k ≤ 16) {text : List (BitVec 8)}
    (stop : List (BitVec 8)) (hstop : ∀ c ∈ stop, digitValue 16 c = none)
    (htext : text = digitText k n ++ stop ∨ text = 0x2d :: (digitText k n ++ stop)) :
    NoLeadingZero text := by
  obtain ⟨c₀, rest₀, hdigits⟩ := digitText_cons k n
  have hsign : afterSign text = digitText k n ++ stop := by
    rcases htext with rfl | rfl
    · rw [hdigits]
      exact if_neg (digitText_ne_minus hk hk' hdigits)
    · rw [afterSign, if_pos rfl]
  intro c rest h
  rw [hsign, hdigits, List.cons_append] at h
  obtain ⟨rfl, hrest⟩ := List.cons.inj h
  rw [digitText_head hk hk' hdigits, List.nil_append] at hrest
  exact hstop c (by rw [hrest]; exact List.mem_cons_self)

/-- **Numbers read back.** For every 64-bit value and every position the three functions return,
so they stay within the 25 bytes of `digits_buffer`. Each writes a text at the position, as many
characters as it returns, and nothing else; the text has no superfluous leading zero, and reads
as the value: unsigned before an `H`, unsigned, or signed. -/
theorem numbers_round_trip (digitsBuffer : DigitsBuffer) (m : Memory) (buffer : U64)
    (position : Int) (digits : U64) :
    (∃ text, hexToString digitsBuffer m buffer position digits =
        .ok (text.length, writeText m (buffer + BitVec.ofInt 64 position) text) ∧
      readHex text = some digits.toNat ∧ NoLeadingZero text) ∧
    (∃ text, udecimalToString digitsBuffer m buffer position digits =
        .ok (text.length, writeText m (buffer + BitVec.ofInt 64 position) text) ∧
      readUnsigned text = some digits.toNat ∧ NoLeadingZero text) ∧
    ∃ text, decimalToString digitsBuffer m buffer position digits =
        .ok (text.length, writeText m (buffer + BitVec.ofInt 64 position) text) ∧
      readSigned text = some digits.toInt ∧ NoLeadingZero text := by
  refine ⟨⟨_, hexToString_eq digitsBuffer m buffer position digits, readHex_digitText _, ?_⟩,
    ⟨_, udecimalToString_eq digitsBuffer m buffer position digits, ?_, ?_⟩,
    ⟨_, decimalToString_eq digitsBuffer m buffer position digits, readSigned_signedText digits, ?_⟩⟩
  · exact noLeadingZero_digitText (k := 16) (by decide) (by decide) [0x48] (by decide) (Or.inl rfl)
  · exact readDigits_digitText (by decide) (by decide)
  · exact noLeadingZero_digitText (k := 10) (by decide) (by decide) [] (by decide)
      (Or.inl (List.append_nil _).symm)
  · unfold signedText
    by_cases hneg : digits.toInt < 0
    · rw [if_pos hneg]
      exact noLeadingZero_digitText (k := 10) (by decide) (by decide) [] (by decide)
        (Or.inr (congrArg (List.cons 0x2d) (List.append_nil _).symm))
    · rw [if_neg hneg]
      exact noLeadingZero_digitText (k := 10) (by decide) (by decide) [] (by decide)
        (Or.inl (List.append_nil _).symm)

end TinyMultiCore
