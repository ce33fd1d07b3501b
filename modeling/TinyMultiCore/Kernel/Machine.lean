import TinyMultiCore.Lib.Memory

/-!
# Machine words and kernel constants

`uint64_t` values and pointers are `U64 := BitVec 64`, `uint32_t` and `uint16_t`
values `U32` and `U16`; `Memory` is the memory behind the pointers, byte by byte.
The constants are those of `include/memory.h`. A kernel function that does not
return ends in a `Halt`.
-/

namespace TinyMultiCore

open ByteMemory (blit load store)

abbrev U64 := BitVec 64
abbrev U32 := BitVec 32
abbrev U16 := BitVec 16

instance u64_lawfulBEq : LawfulBEq U64 := inferInstance

/-- There are four cores. -/
instance cores_neZero : NeZero 4 := ⟨by decide⟩

abbrev Memory := ByteMemory.Memory 64

/-- `*(uint16_t*)p` -/
def read16 (m : Memory) (p : U64) : U16 := BitVec.ofNat 16 (load m p 2)

/-- `*(uint32_t*)p` -/
def read32 (m : Memory) (p : U64) : U32 := BitVec.ofNat 32 (load m p 4)

/-- `*(uint64_t*)p` -/
def read64 (m : Memory) (p : U64) : U64 := BitVec.ofNat 64 (load m p 8)

/-- `*(uint64_t*)p = v` -/
def write64 (m : Memory) (p v : U64) : Memory := store m p 8 v.toNat

theorem write64_outside {m : Memory} {p v x : U64} (h : 8 ≤ (x - p).toNat) :
    write64 m p v x = m x := if_neg (by omega)

/-- `memset(p, 0, PAGE_SIZE)` -/
def zeroPage (m : Memory) (p : U64) : Memory := blit m p (2 ^ 21) fun _ => 0

/-- `memcpy(dst, src, size)` from the memory `s`. -/
def memcpy (m : Memory) (dst : U64) (s : Memory) (src : U64) (size : U32) : Memory :=
  blit m dst size.toNat fun i => s (src + BitVec.ofNat 64 i)

/-- Why a kernel function does not return. -/
inductive Halt where
  /-- `ASSERT` failed: `error_check` prints and spins. -/
  | assertFailed
  /-- A loop that never ends. -/
  | runaway
  /-- An access outside the memory that is there: a data abort in the kernel,
  or undefined behaviour of the C program. -/
  | fault
  deriving DecidableEq, Repr

/-- `ASSERT(e)`. -/
def kernelAssert (e : Prop) [Decidable e] : Except Halt Unit :=
  if e then .ok () else .error .assertFailed

@[simp] theorem kernelAssert_eq_ok {e : Prop} [Decidable e] {u : Unit} :
    kernelAssert e = .ok u ↔ e := by
  unfold kernelAssert
  split <;> simp_all

theorem kernelAssert_pos {e : Prop} [Decidable e] (h : e) : kernelAssert e = .ok () := if_pos h

theorem ok_bind {α β : Type} (a : α) (f : α → Except Halt β) :
    ((.ok a : Except Halt α) >>= f) = f a := rfl

/-- A sequence of computations returns when its parts do. -/
theorem bind_eq_ok {α β : Type} {x : Except Halt α} {f : α → Except Halt β} {b : β} :
    (x >>= f) = .ok b ↔ ∃ a, x = .ok a ∧ f a = .ok b := by
  cases x <;> simp [bind, Except.bind]

theorem toOption_eq_some {α : Type} {x : Except Halt α} {a : α} :
    x.toOption = some a ↔ x = .ok a := by
  cases x <;> simp [Except.toOption]

/-- A dereferenced pointer: `NULL` faults. -/
def deref {α : Type} : Option α → Except Halt α
  | some a => .ok a
  | none => .error .fault

theorem deref_eq_ok {α : Type} {o : Option α} {a : α} : deref o = .ok a ↔ o = some a := by
  match o with
  | some b => simp [deref]
  | none => simp [deref]

/-- `for (...; n turns; i++) if (p(i)) break;`: the first index from `i` on with `p`. -/
def scan (p : Nat → Prop) [DecidablePred p] : Nat → Nat → Option Nat
  | 0, _ => none
  | n + 1, i => if p i then some i else scan p n (i + 1)

theorem scan_eq_some_iff {p : Nat → Prop} [DecidablePred p] {n i j : Nat} :
    scan p n i = some j ↔ i ≤ j ∧ j < i + n ∧ p j ∧ ∀ k, i ≤ k → k < j → ¬p k := by
  induction n generalizing i with
  | zero => exact iff_of_false (by simp [scan]) fun h => by omega
  | succ n ih =>
    unfold scan
    by_cases hp : p i
    · rw [if_pos hp, Option.some_inj]
      constructor
      · rintro rfl
        exact ⟨le_rfl, by omega, hp, fun k hk hlt => by omega⟩
      · rintro ⟨hle, -, -, hleast⟩
        by_contra hne
        exact hleast i le_rfl (by omega) hp
    · rw [if_neg hp, ih]
      constructor
      · rintro ⟨hle, hlt, hj, hleast⟩
        refine ⟨by omega, by omega, hj, fun k hk hkj => ?_⟩
        rcases Nat.eq_or_lt_of_le hk with rfl | hk
        · exact hp
        · exact hleast k hk hkj
      · rintro ⟨hle, hlt, hj, hleast⟩
        have hne : i ≠ j := fun he => hp (he ▸ hj)
        exact ⟨by omega, by omega, hj, fun k hk => hleast k (by omega)⟩

theorem scan_eq_some {p : Nat → Prop} [DecidablePred p] {n i j : Nat}
    (h : scan p n i = some j) : i ≤ j ∧ j < i + n ∧ p j := by
  obtain ⟨hle, hlt, hp, -⟩ := scan_eq_some_iff.mp h
  exact ⟨hle, hlt, hp⟩

/-- `KERNEL_BASE` -/
def kernelBase : U64 := 0xffff000000000000#64

/-- `P2V(p)` -/
def p2v (p : U64) : U64 := p + kernelBase

/-- `V2P(v)` -/
def v2p (v : U64) : U64 := v - kernelBase

/-- `MEMORY_END` -/
def memoryEnd : U64 := p2v 0x30000000#64

/-- `PAGE_SHIFT` -/
def pageShift : Nat := 21

/-- `PAGE_SIZE` -/
def pageSize : U64 := 0x200000#64

theorem pageSize_toNat : pageSize.toNat = 2 ^ pageShift := by
  simp [pageSize, pageShift]

end TinyMultiCore
