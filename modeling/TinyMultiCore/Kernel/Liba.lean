import TinyMultiCore.Kernel.Cpu
import TinyMultiCore.Lib.Copy

/-!
# The copy routine of `liba.s`

`memmove` and `memcpy` are two names of one routine: one loop, which goes upwards or, when
the destination begins inside the source, downwards. `memcpyCode` is the routine, line by
line, and `execute` runs it: a branch goes to the line of its label.

* `execute_loop` — the loop is the `copyLoop` of its stride;
* `execute_entry` — which way it goes is decided by two unsigned comparisons;
* `memmove_copies` — however the ranges overlap, the destination gets the old bytes of the
  source.
-/

namespace TinyMultiCore

open ByteMemory

/-- The condition of a branch. -/
inductive Cond where
  | eq
  | ne
  | hs
  | ls
  deriving DecidableEq, Repr

/-- Z is bit 30 of `PSTATE`, and C bit 29. -/
def Cond.holds (pstate : U64) : Cond → Bool
  | eq => pstate.getLsbD 30
  | ne => !pstate.getLsbD 30
  | hs => pstate.getLsbD 29
  | ls => !pstate.getLsbD 29 || pstate.getLsbD 30

/-- The instructions of the routine that are not branches. -/
inductive LibaOp where
  /-- `cmp a, #v` -/
  | cmpImm (a : Reg) (v : U64)
  /-- `cmp a, b` -/
  | cmp (a b : Reg)
  /-- `mov a, #v` -/
  | movImm (a : Reg) (v : U64)
  /-- `add a, b, c` -/
  | add (a b c : Reg)
  /-- `sub a, b, #v` -/
  | subImm (a b : Reg) (v : U64)
  /-- `subs a, b, #v` -/
  | subsImm (a b : Reg) (v : U64)
  /-- `neg a, b` -/
  | neg (a b : Reg)
  /-- `ldrb a, [base]` -/
  | ldrb (a base : Reg)
  /-- `strb a, [base]` -/
  | strb (a base : Reg)

/-- The flags after a comparison of `a` and `b`. -/
def Cpu.setFlags (s : Cpu) (a b : U64) : Cpu :=
  { s with pstate := s.pstate &&& ~~~0xf0000000 ||| cmpFlags a b }

def LibaOp.exec (s : Cpu) : LibaOp → Cpu
  | cmpImm a v => s.setFlags (s.x a) v
  | cmp a b => s.setFlags (s.x a) (s.x b)
  | movImm a v => s.setX a v
  | add a b c => s.setX a (s.x b + s.x c)
  | subImm a b v => s.setX a (s.x b - v)
  | subsImm a b v => (s.setFlags (s.x b) v).setX a (s.x b - v)
  | neg a b => s.setX a (-s.x b)
  | ldrb a base => s.setX a ((s.mem (s.x base)).setWidth 64)
  | strb a base => { s with mem := Function.update s.mem (s.x base) ((s.x a).setWidth 8) }

inductive LibaInstr where
  | op (o : LibaOp)
  /-- `b.cond`, with the line of its label. -/
  | b (cond : Cond) (line : Nat)
  | ret

/-- The code from a line on, with at most `fuel` instructions. -/
def execute (code : List LibaInstr) : Nat → Nat → Cpu → Option Cpu
  | 0, _, _ => none
  | fuel + 1, line, s =>
    match code[line]? with
    | none => none
    | some .ret => some { s with pc := s.x 30 }
    | some (.b cond target) =>
      execute code fuel (if cond.holds s.pstate then target else line + 1) s
    | some (.op o) => execute code fuel (line + 1) (o.exec s)

/-- `memmove` and `memcpy` -/
def memcpyCode : List LibaInstr :=
  [ .op (.cmpImm 2 0),
    .b .eq 18,
    .op (.movImm 4 1),
    .op (.cmp 1 0),
    .b .hs 12,
    .op (.add 3 1 2),
    .op (.cmp 3 0),
    .b .ls 12,
    -- `overlap`
    .op (.subImm 3 2 1),
    .op (.add 0 0 3),
    .op (.add 1 1 3),
    .op (.neg 4 4),
    -- `copy`, line 12
    .op (.ldrb 3 1),
    .op (.strb 3 0),
    .op (.add 0 0 4),
    .op (.add 1 1 4),
    .op (.subsImm 2 2 1),
    .b .ne 12,
    -- `memcpy_end`, line 18
    .ret ]

-- ---------------------------------------------------------------------------
-- The loop
-- ---------------------------------------------------------------------------

/-- Everything but the memory, the flags and the registers of the routine. -/
structure KeepsRest (s t : Cpu) : Prop where
  sp : t.sp = s.sp
  sys : t.sys = s.sys
  pc : t.pc = s.pc
  x : ∀ r : Reg, 5 ≤ r.val → t.x r = s.x r

variable {s t u : Cpu}

theorem KeepsRest.trans (h : KeepsRest s t) (h' : KeepsRest t u) : KeepsRest s u :=
  ⟨h'.sp.trans h.sp, h'.sys.trans h.sys, h'.pc.trans h.pc, fun r hr => (h'.x r hr).trans (h.x r hr)⟩

/-- The register an instruction sets. -/
def LibaOp.dest : LibaOp → Option Reg
  | cmpImm _ _ | cmp _ _ | strb _ _ => none
  | movImm a _ | add a _ _ | subImm a _ _ | subsImm a _ _ | neg a _ | ldrb a _ => some a

/-- The registers of the routine are the first five. -/
theorem LibaOp.keepsRest (o : LibaOp) (s : Cpu) (h : ∀ a ∈ o.dest, a.val < 5) :
    KeepsRest s (o.exec s) := by
  have hset : ∀ (u : Cpu) (a : Reg) (v : U64), a.val < 5 → ∀ r : Reg, 5 ≤ r.val →
      (u.setX a v).x r = u.x r := by
    intro u a v ha r hr
    have hne : r ≠ a := fun he => absurd (he ▸ hr) (Nat.not_le.mpr ha)
    exact Function.update_of_ne hne ..
  cases o with
  | cmpImm a v => exact ⟨rfl, rfl, rfl, fun _ _ => rfl⟩
  | cmp a b => exact ⟨rfl, rfl, rfl, fun _ _ => rfl⟩
  | strb a base => exact ⟨rfl, rfl, rfl, fun _ _ => rfl⟩
  | movImm a v => exact ⟨rfl, rfl, rfl, hset _ _ _ (h a rfl)⟩
  | add a b c => exact ⟨rfl, rfl, rfl, hset _ _ _ (h a rfl)⟩
  | subImm a b v => exact ⟨rfl, rfl, rfl, hset _ _ _ (h a rfl)⟩
  | subsImm a b v => exact ⟨rfl, rfl, rfl, hset (s.setFlags _ _) _ _ (h a rfl)⟩
  | neg a b => exact ⟨rfl, rfl, rfl, hset _ _ _ (h a rfl)⟩
  | ldrb a base => exact ⟨rfl, rfl, rfl, hset _ _ _ (h a rfl)⟩

theorem keepsRest_foldl (ops : List LibaOp) (s : Cpu)
    (h : ∀ o ∈ ops, ∀ a ∈ o.dest, a.val < 5) : KeepsRest s (ops.foldl LibaOp.exec s) := by
  induction ops generalizing s with
  | nil => exact ⟨rfl, rfl, rfl, fun _ _ => rfl⟩
  | cons o ops ih =>
    exact (o.keepsRest s (h o List.mem_cons_self)).trans
      (ih (o.exec s) fun o' ho' => h o' (List.mem_cons_of_mem o ho'))

/-- One turn of `copy`, up to its branch. -/
def copyTurn (s : Cpu) : Cpu :=
  [LibaOp.ldrb 3 1, .strb 3 0, .add 0 0 4, .add 1 1 4, .subsImm 2 2 1].foldl LibaOp.exec s

theorem copyTurn_eq (s : Cpu) :
    (copyTurn s).mem = Function.update s.mem (s.x 0) (s.mem (s.x 1)) ∧
      (copyTurn s).x 0 = s.x 0 + s.x 4 ∧ (copyTurn s).x 1 = s.x 1 + s.x 4 ∧
      (copyTurn s).x 2 = s.x 2 - 1 ∧ (copyTurn s).x 4 = s.x 4 ∧ KeepsRest s (copyTurn s) ∧
      (copyTurn s).pstate.getLsbD 30 = decide (s.x 2 = 1) := by
  refine ⟨?_, rfl, rfl, rfl, rfl, keepsRest_foldl _ s (by decide), ?_⟩
  · show Function.update s.mem (s.x 0) (((s.mem (s.x 1)).setWidth 64).setWidth 8) = _
    rw [BitVec.setWidth_setWidth_of_le _ (by decide), BitVec.setWidth_eq]
  · exact getLsbD_cmpFlags_zero s.pstate (s.x 2) 1

/-- **The loop** moves as many bytes as `x2` says, with the stride in `x4`. -/
theorem execute_loop {n : Nat} (hn : (s.x 2).toNat = n + 1) :
    ∃ t, (∀ fuel, execute memcpyCode (fuel + 6 * (n + 1)) 12 s = execute memcpyCode fuel 18 t) ∧
      t.mem = copyLoop (s.x 4) (n + 1) (s.x 0) (s.x 1) s.mem ∧ KeepsRest s t := by
  induction n generalizing s with
  | zero =>
    obtain ⟨hmem, -, -, -, -, hrest, hz⟩ := copyTurn_eq s
    have hone : s.x 2 = 1 := BitVec.eq_of_toNat_eq (by rw [hn]; rfl)
    refine ⟨copyTurn s, fun fuel => ?_, ?_, hrest⟩
    · show execute memcpyCode fuel (if Cond.ne.holds (copyTurn s).pstate then 12 else 18)
        (copyTurn s) = _
      rw [Cond.holds, hz, decide_eq_true hone]
      rfl
    · rw [hmem]
      rfl
  | succ n ih =>
    obtain ⟨hmem, h0, h1, h2, h4, hrest, hz⟩ := copyTurn_eq s
    have hone : s.x 2 ≠ 1 := by
      intro he
      rw [he] at hn
      cases hn
    have hleft : ((copyTurn s).x 2).toNat = n + 1 := by
      have hle : (1 : U64) ≤ s.x 2 := by
        rw [BitVec.le_def, hn]
        exact Nat.succ_le_succ (Nat.zero_le _)
      rw [h2, BitVec.toNat_sub_of_le hle, hn]
      rfl
    obtain ⟨t, hloop, hcopy, hrest'⟩ := ih hleft
    refine ⟨t, fun fuel => ?_, ?_, hrest.trans hrest'⟩
    · rw [← hloop]
      show execute memcpyCode (fuel + 6 * (n + 1))
        (if Cond.ne.holds (copyTurn s).pstate then 12 else 18) (copyTurn s) = _
      rw [Cond.holds, hz, decide_eq_false hone]
      rfl
    · rw [hcopy, hmem, h0, h1, h4]
      rfl

-- ---------------------------------------------------------------------------
-- The way in
-- ---------------------------------------------------------------------------

/-- Where the loop starts, when there is something to copy: at the first bytes with stride 1,
or at the last ones with stride -1. -/
structure Entered (s t : Cpu) : Prop where
  size : t.x 2 = s.x 2
  mem : t.mem = s.mem
  rest : KeepsRest s t
  way : (t.x 4 = 1 ∧ t.x 0 = s.x 0 ∧ t.x 1 = s.x 1 ∧
      (s.x 0 ≤ s.x 1 ∨ s.x 1 + s.x 2 ≤ s.x 0)) ∨
    (t.x 4 = -1 ∧ t.x 0 = s.x 0 + (s.x 2 - 1) ∧ t.x 1 = s.x 1 + (s.x 2 - 1) ∧
      ¬s.x 0 ≤ s.x 1 ∧ ¬s.x 1 + s.x 2 ≤ s.x 0)

/-- The state at the first comparison of the ranges. -/
def atCompare (s : Cpu) : Cpu :=
  [LibaOp.cmpImm 2 0, .movImm 4 1, .cmp 1 0].foldl LibaOp.exec s

/-- The state at the second one. -/
def atCompareEnd (s : Cpu) : Cpu := [LibaOp.add 3 1 2, .cmp 3 0].foldl LibaOp.exec (atCompare s)

/-- The state behind `overlap`. -/
def atOverlapEnd (s : Cpu) : Cpu :=
  [LibaOp.subImm 3 2 1, .add 0 0 3, .add 1 1 3, .neg 4 4].foldl LibaOp.exec (atCompareEnd s)

theorem atCompare_hs (s : Cpu) :
    Cond.hs.holds (atCompare s).pstate = decide (s.x 0 ≤ s.x 1) :=
  getLsbD_cmpFlags_carry _ (s.x 1) (s.x 0)

theorem atCompareEnd_ls (s : Cpu) :
    Cond.ls.holds (atCompareEnd s).pstate = decide (s.x 1 + s.x 2 ≤ s.x 0) := by
  have hz : (atCompareEnd s).pstate.getLsbD 30 = decide (s.x 1 + s.x 2 = s.x 0) :=
    getLsbD_cmpFlags_zero _ (s.x 1 + s.x 2) (s.x 0)
  have hc : (atCompareEnd s).pstate.getLsbD 29 = decide (s.x 0 ≤ s.x 1 + s.x 2) :=
    getLsbD_cmpFlags_carry _ (s.x 1 + s.x 2) (s.x 0)
  rw [Cond.holds, hz, hc, ← decide_not, ← Bool.decide_or]
  refine decide_eq_decide.mpr ?_
  rw [BitVec.le_def, BitVec.le_def, ← BitVec.toNat_inj]
  omega

/-- **The way in.** -/
theorem execute_entry (hne : s.x 2 ≠ 0) :
    ∃ t steps, steps ≤ 12 ∧ Entered s t ∧
      ∀ fuel, execute memcpyCode (fuel + steps) 0 s = execute memcpyCode fuel 12 t := by
  have hstart : ∀ fuel, execute memcpyCode (fuel + 5) 0 s = execute memcpyCode fuel
      (if Cond.hs.holds (atCompare s).pstate then 12 else 5) (atCompare s) := by
    intro fuel
    have hz : Cond.eq.holds ((LibaOp.cmpImm 2 0).exec s).pstate = decide (s.x 2 = 0) :=
      getLsbD_cmpFlags_zero s.pstate (s.x 2) 0
    show execute memcpyCode (fuel + 3)
      (if Cond.eq.holds ((LibaOp.cmpImm 2 0).exec s).pstate then 18 else 2)
      ((LibaOp.cmpImm 2 0).exec s) = _
    rw [hz, decide_eq_false hne]
    rfl
  rw [atCompare_hs] at hstart
  by_cases hhs : s.x 0 ≤ s.x 1
  · rw [decide_eq_true hhs] at hstart
    exact ⟨atCompare s, 5, by decide,
      ⟨rfl, rfl, keepsRest_foldl _ s (by decide), Or.inl ⟨rfl, rfl, rfl, Or.inl hhs⟩⟩, hstart⟩
  rw [decide_eq_false hhs] at hstart
  have hmiddle : ∀ fuel, execute memcpyCode (fuel + 8) 0 s = execute memcpyCode fuel
      (if Cond.ls.holds (atCompareEnd s).pstate then 12 else 8) (atCompareEnd s) :=
    fun fuel => hstart (fuel + 3)
  rw [atCompareEnd_ls] at hmiddle
  have hrest : KeepsRest s (atCompareEnd s) :=
    (keepsRest_foldl _ s (by decide)).trans (keepsRest_foldl _ (atCompare s) (by decide))
  by_cases hls : s.x 1 + s.x 2 ≤ s.x 0
  · rw [decide_eq_true hls] at hmiddle
    exact ⟨atCompareEnd s, 8, by decide,
      ⟨rfl, rfl, hrest, Or.inl ⟨rfl, rfl, rfl, Or.inr hls⟩⟩, hmiddle⟩
  · rw [decide_eq_false hls] at hmiddle
    exact ⟨atOverlapEnd s, 12, by decide,
      ⟨rfl, rfl, hrest.trans (keepsRest_foldl _ (atCompareEnd s) (by decide)),
        Or.inr ⟨rfl, rfl, rfl, hhs, hls⟩⟩, fun fuel => hmiddle (fuel + 4)⟩

-- ---------------------------------------------------------------------------
-- The copy
-- ---------------------------------------------------------------------------

/-- Neither way reads a byte that it has written. -/
theorem Entered.copyLoop_eq (h : Entered s t) {n : Nat} (hn : (s.x 2).toNat = n + 1)
    (hdst : (s.x 0).toNat + (s.x 2).toNat ≤ 2 ^ 64)
    (hsrc : (s.x 1).toNat + (s.x 2).toNat ≤ 2 ^ 64) :
    copyLoop (t.x 4) (n + 1) (t.x 0) (t.x 1) t.mem =
      blit s.mem (s.x 0) (n + 1) fun i => s.mem (s.x 1 + BitVec.ofNat 64 i) := by
  have hsize := (s.x 2).isLt
  have hplace : ∀ (a : U64) (i : Nat), a.toNat + (s.x 2).toNat ≤ 2 ^ 64 → i < n + 1 →
      (a + BitVec.ofNat 64 i).toNat = a.toNat + i := by
    intro a i ha hi
    rw [BitVec.toNat_add, BitVec.toNat_ofNat, Nat.mod_eq_of_lt (by omega : i < 2 ^ 64)]
    exact Nat.mod_eq_of_lt (by omega)
  have hne : ∀ i j, i < n + 1 → j < n + 1 → (s.x 1).toNat + i ≠ (s.x 0).toNat + j →
      s.x 1 + BitVec.ofNat 64 i ≠ s.x 0 + BitVec.ofNat 64 j := by
    intro i j hi hj hij he
    have := congrArg BitVec.toNat he
    rw [hplace _ i hsrc hi, hplace _ j hdst hj] at this
    exact hij this
  rw [h.mem]
  rcases h.way with ⟨h4, h0, h1, hway⟩ | ⟨h4, h0, h1, hhs, hls⟩
  · rw [h4, h0, h1]
    refine copyLoop_up (by omega) fun i j hj hi => hne i j hi (by omega) ?_
    rcases hway with hle | hle
    · rw [BitVec.le_def] at hle
      omega
    · -- the sum wraps around only if the source ends with the address space
      rw [BitVec.le_def, BitVec.toNat_add] at hle
      omega
  · have hlast : s.x 2 - 1 = BitVec.ofNat 64 n := by
      have htotal : s.x 2 = BitVec.ofNat 64 (n + 1) := by
        rw [← hn, BitVec.ofNat_toNat, BitVec.setWidth_eq]
      rw [htotal, BitVec.ofNat_add]
      exact BitVec.add_sub_cancel _ _
    rw [h4, h0, h1, hlast]
    refine copyLoop_down (by omega) fun i j hi hj => hne i j (by omega) hj ?_
    rw [BitVec.le_def] at hhs
    omega

/-- **`memmove` and `memcpy`** return, with the source written over the destination. -/
theorem execute_memcpy (s : Cpu) (hdst : (s.x 0).toNat + (s.x 2).toNat ≤ 2 ^ 64)
    (hsrc : (s.x 1).toNat + (s.x 2).toNat ≤ 2 ^ 64) :
    ∃ t, (∀ fuel ≥ 6 * (s.x 2).toNat + 13,
        execute memcpyCode fuel 0 s = some { t with pc := s.x 30 }) ∧
      t.mem = blit s.mem (s.x 0) (s.x 2).toNat (fun i => s.mem (s.x 1 + BitVec.ofNat 64 i)) ∧
      KeepsRest s t := by
  by_cases hx : s.x 2 = 0
  · -- nothing to copy
    refine ⟨(LibaOp.cmpImm 2 0).exec s, fun fuel hfuel => ?_, ?_, ⟨rfl, rfl, rfl, fun _ _ => rfl⟩⟩
    · obtain ⟨fuel, rfl⟩ := Nat.exists_eq_add_of_le' (show 3 ≤ fuel by omega)
      have hz : Cond.eq.holds ((LibaOp.cmpImm 2 0).exec s).pstate = decide (s.x 2 = 0) :=
        getLsbD_cmpFlags_zero s.pstate (s.x 2) 0
      show execute memcpyCode (fuel + 1)
        (if Cond.eq.holds ((LibaOp.cmpImm 2 0).exec s).pstate then 18 else 2)
        ((LibaOp.cmpImm 2 0).exec s) = _
      rw [hz, decide_eq_true hx]
      rfl
    · rw [hx]
      exact (blit_zero s.mem (s.x 0) _).symm
  · obtain ⟨n, hn⟩ := Nat.exists_eq_succ_of_ne_zero
      (fun h0 => hx (BitVec.eq_of_toNat_eq h0) : (s.x 2).toNat ≠ 0)
    obtain ⟨t, steps, hsteps, hentered, hentry⟩ := execute_entry hx
    have hsize : (t.x 2).toNat = n + 1 := by rw [hentered.size, hn]
    obtain ⟨u, hloop, hcopy, hrest⟩ := execute_loop hsize
    rw [hentered.copyLoop_eq hn hdst hsrc] at hcopy
    have hkeeps := hentered.rest.trans hrest
    refine ⟨u, fun fuel hfuel => ?_, by rw [hcopy, hn], hkeeps⟩
    obtain ⟨fuel, rfl⟩ := Nat.exists_eq_add_of_le'
      (show 1 + 6 * (n + 1) + steps ≤ fuel by omega)
    rw [← Nat.add_assoc, hentry, ← Nat.add_assoc, hloop]
    show some { u with pc := u.x 30 } = _
    rw [hkeeps.x 30 (by decide)]

/-- The routine is the `memcpy` of the kernel's C code. -/
theorem execute_memcpy_eq (s : Cpu) {size : U32} (hx : s.x 2 = size.setWidth 64)
    (hdst : (s.x 0).toNat + size.toNat ≤ 2 ^ 64) (hsrc : (s.x 1).toNat + size.toNat ≤ 2 ^ 64) :
    ∃ t, (∀ fuel ≥ 6 * size.toNat + 13, execute memcpyCode fuel 0 s = some t) ∧
      t.mem = memcpy s.mem (s.x 0) s.mem (s.x 1) size := by
  have hsize : (s.x 2).toNat = size.toNat := by
    rw [hx, BitVec.toNat_setWidth, Nat.mod_eq_of_lt (lt_of_lt_of_le size.isLt (by decide))]
  obtain ⟨t, hrun, hmem, -⟩ := execute_memcpy s (by rw [hsize]; exact hdst) (by rw [hsize]; exact hsrc)
  rw [hsize] at hrun hmem
  exact ⟨_, hrun, hmem⟩

/-- **Copies under any overlap.** Neither range wraps around the end of the address space. Then
the routine returns to its caller, each byte of the destination is the one that the source had
there before, and every other byte is as it was; so are `sp` and the registers from `x5` on. -/
theorem memmove_copies (s : Cpu) (hdst : (s.x 0).toNat + (s.x 2).toNat ≤ 2 ^ 64)
    (hsrc : (s.x 1).toNat + (s.x 2).toNat ≤ 2 ^ 64) :
    ∃ t, (∀ fuel ≥ 6 * (s.x 2).toNat + 13, execute memcpyCode fuel 0 s = some t) ∧
      t.pc = s.x 30 ∧
      (∀ i < (s.x 2).toNat,
        t.mem (s.x 0 + BitVec.ofNat 64 i) = s.mem (s.x 1 + BitVec.ofNat 64 i)) ∧
      (∀ x : U64, x.toNat < (s.x 0).toNat ∨ (s.x 0).toNat + (s.x 2).toNat ≤ x.toNat →
        t.mem x = s.mem x) ∧
      t.sp = s.sp ∧ ∀ r : Reg, 5 ≤ r.val → t.x r = s.x r := by
  have hlt := (s.x 2).isLt
  obtain ⟨t, hrun, hmem, hkeeps⟩ := execute_memcpy s hdst hsrc
  refine ⟨_, hrun, rfl, fun i hi => ?_, fun x hx => ?_, hkeeps.sp, hkeeps.x⟩
  · show t.mem _ = _
    rw [hmem, blit, (eq_add_ofNat_iff (by omega)).mp rfl, if_pos hi]
  · show t.mem x = _
    rw [hmem, blit]
    refine if_neg ?_
    rw [BitVec.toNat_sub]
    omega

/-- A call in which the destination begins two bytes behind the source. -/
def overlappingCall : Cpu where
  x r := if r = 0 then 0x1002 else if r = 1 then 0x1000 else if r = 2 then 4 else 0
  sp := 0
  sys _ := 0
  pc := 0
  pstate := 0
  mem x := x.setWidth 8

theorem overlapping_bytes_move : ∃ t, execute memcpyCode 37 0 overlappingCall = some t ∧
    t.mem 0x1002 = 0 ∧ t.mem 0x1003 = 1 ∧ t.mem 0x1004 = 2 ∧ t.mem 0x1005 = 3 := by
  obtain ⟨t, hrun, -, hcopy, -⟩ := memmove_copies overlappingCall (by decide) (by decide)
  exact ⟨t, hrun 37 (by decide), hcopy 0 (by decide), hcopy 1 (by decide), hcopy 2 (by decide),
    hcopy 3 (by decide)⟩

end TinyMultiCore
