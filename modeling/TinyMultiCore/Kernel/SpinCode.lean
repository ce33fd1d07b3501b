import TinyMultiCore.Kernel.Cpu

/-!
# The code of the spin locks

`spin_lock` and `spin_unlock` of `liba.s`, one instruction at a time, on any number of cores.
`ldaxr` sets the exclusive monitor of its core, and `stxr` only writes while the monitor is set: a
store of another core to the watched address resets it, and so may anything else (`lose`). An
`stxr` may also fail for no reason.

`SpinStep` is one step of one core, and `SpinState.next` computes the steps, all but those of
other parts of the kernel (`SpinState.step_of_next`).
-/

namespace TinyMultiCore

open ByteMemory

-- ---------------------------------------------------------------------------
-- The code
-- ---------------------------------------------------------------------------

/-- `w0` to `w30` are the low halves of the registers; a write clears the high half. -/
inductive SpinInstr where
  /-- `mov wa, #v` -/
  | movW (a : Reg) (v : U32)
  /-- `ldaxr wa, [base]` -/
  | ldaxr (a base : Reg)
  /-- `stxr ws, wa, [base]` -/
  | stxr (s a base : Reg)
  /-- `stlr wzr, [base]` -/
  | stlrWzr (base : Reg)
  /-- `cbnz wa`, with the line of its label. -/
  | cbnzW (a : Reg) (line : Nat)
  | yield
  /-- `b`, with the line of its label. -/
  | b (line : Nat)
  | ret
  deriving DecidableEq

inductive Routine where
  | spinLock
  | spinUnlock
  deriving DecidableEq

def Routine.code : Routine → List SpinInstr
  | spinLock =>
    [ .movW 1 1,
      -- `1:`
      .ldaxr 2 0,
      .cbnzW 2 6,
      .stxr 3 1 0,
      .cbnzW 3 1,
      .ret,
      -- `2:`, line 6
      .yield,
      .b 1 ]
  | spinUnlock => [.stlrWzr 0, .ret]

/-- A core: its registers, the routine it is in with the line that comes next, and the address
that its exclusive monitor watches. -/
structure SpinCore where
  x : Reg → U64
  spot : Option (Routine × Nat)
  monitor : Option U64

namespace SpinCore

/-- `wa` -/
def w (p : SpinCore) (a : Reg) : U32 := (p.x a).setWidth 32

def setW (p : SpinCore) (a : Reg) (v : U32) : SpinCore :=
  { p with x := Function.update p.x a (v.setWidth 64) }

def goTo (p : SpinCore) (f : Routine) (line : Nat) : SpinCore := { p with spot := some (f, line) }

end SpinCore

/-- The instructions that concern the core alone, or read. -/
def SpinInstr.exec (mem : Memory) (p : SpinCore) (f : Routine) (line : Nat) :
    SpinInstr → Option SpinCore
  | movW a v => some ((p.setW a v).goTo f (line + 1))
  | ldaxr a base =>
    some { (p.setW a (read32 mem (p.x base))).goTo f (line + 1) with monitor := some (p.x base) }
  | cbnzW a target => some (p.goTo f (if p.w a ≠ 0 then target else line + 1))
  | yield => some (p.goTo f (line + 1))
  | b target => some (p.goTo f target)
  | stxr _ _ _ | stlrWzr _ | ret => none

structure SpinState (κ : Type) where
  mem : Memory
  core : κ → SpinCore

inductive SpinLabel (κ : Type) where
  | call (c : κ) (f : Routine) (l : U64)
  | exec (c : κ)
  /-- `stxr` or `stlr` writes to the lock -/
  | store (c : κ) (l : U64) (v : U32)
  /-- `stxr` fails -/
  | refuse (c : κ)
  | ret (c : κ) (f : Routine) (l : U64)
  | lose (c : κ)
  /-- another part of the kernel -/
  | other (c : κ)

variable {κ : Type} [DecidableEq κ]

namespace SpinState

def setCore (s : SpinState κ) (c : κ) (p : SpinCore) : SpinState κ :=
  { s with core := Function.update s.core c p }

/-- A word is written to the lock: no other core watches it any more. -/
def write (s : SpinState κ) (c : κ) (l : U64) (v : U32) : SpinState κ where
  mem := store s.mem l 4 v.toNat
  core d := if d ≠ c ∧ (s.core d).monitor = some l then { s.core d with monitor := none } else s.core d

end SpinState

/-- One step of one core. The arguments of the calls are the addresses `locks`, whose words nobody
else writes to. -/
inductive SpinStep (locks : Set U64) (s : SpinState κ) : SpinLabel κ → SpinState κ → Prop
  | call (c : κ) (f : Routine) (x : Reg → U64) (hout : (s.core c).spot = none) (hl : x 0 ∈ locks) :
      SpinStep locks s (.call c f (x 0)) (s.setCore c { (s.core c).goTo f 0 with x })
  | exec (c : κ) (f : Routine) (line : Nat) (i : SpinInstr) (p : SpinCore)
      (hspot : (s.core c).spot = some (f, line)) (hi : f.code[line]? = some i)
      (hexec : i.exec s.mem (s.core c) f line = some p) : SpinStep locks s (.exec c) (s.setCore c p)
  | stxr (c : κ) (f : Routine) (line : Nat) (status a base : Reg)
      (hspot : (s.core c).spot = some (f, line))
      (hi : f.code[line]? = some (.stxr status a base))
      (hmonitor : (s.core c).monitor = some ((s.core c).x base)) :
      SpinStep locks s (.store c ((s.core c).x base) ((s.core c).w a))
        ((s.write c ((s.core c).x base) ((s.core c).w a)).setCore c
          { ((s.core c).setW status 0).goTo f (line + 1) with monitor := none })
  | refuse (c : κ) (f : Routine) (line : Nat) (status a base : Reg)
      (hspot : (s.core c).spot = some (f, line))
      (hi : f.code[line]? = some (.stxr status a base)) :
      SpinStep locks s (.refuse c)
        (s.setCore c { ((s.core c).setW status 1).goTo f (line + 1) with monitor := none })
  | stlr (c : κ) (f : Routine) (line : Nat) (base : Reg) (hspot : (s.core c).spot = some (f, line))
      (hi : f.code[line]? = some (.stlrWzr base)) :
      SpinStep locks s (.store c ((s.core c).x base) 0)
        ((s.write c ((s.core c).x base) 0).setCore c ((s.core c).goTo f (line + 1)))
  | ret (c : κ) (f : Routine) (line : Nat) (hspot : (s.core c).spot = some (f, line))
      (hi : f.code[line]? = some .ret) :
      SpinStep locks s (.ret c f ((s.core c).x 0)) (s.setCore c { s.core c with spot := none })
  | lose (c : κ) : SpinStep locks s (.lose c) (s.setCore c { s.core c with monitor := none })
  | other (c : κ) (mem : Memory) (hout : (s.core c).spot = none)
      (hkeeps : ∀ l ∈ locks, read32 mem l = read32 s.mem l) :
      SpinStep locks s (.other c) { s with mem }

/-- The instruction that comes next on the core. -/
def SpinState.instr (s : SpinState κ) (c : κ) : Option (Routine × Nat × SpinInstr) := do
  let (f, line) ← (s.core c).spot
  let i ← f.code[line]?
  return (f, line, i)

/-- The step, when it can be taken; what other parts of the kernel do is left out. A call changes
no register but `x0`. -/
def SpinState.next (locks : List U64) (s : SpinState κ) : SpinLabel κ → Option (SpinState κ)
  | .call c f l =>
    if (s.core c).spot = none ∧ l ∈ locks then
      some (s.setCore c { (s.core c).goTo f 0 with x := Function.update (s.core c).x 0 l })
    else none
  | .exec c => do
    let (f, line, i) ← s.instr c
    let p ← i.exec s.mem (s.core c) f line
    return s.setCore c p
  | .store c l v =>
    match s.instr c with
    | some (f, line, .stxr status a base) =>
      if (s.core c).monitor = some ((s.core c).x base) ∧ l = (s.core c).x base ∧ v = (s.core c).w a then
        some ((s.write c l v).setCore c
          { ((s.core c).setW status 0).goTo f (line + 1) with monitor := none })
      else none
    | some (f, line, .stlrWzr base) =>
      if l = (s.core c).x base ∧ v = 0 then
        some ((s.write c l v).setCore c ((s.core c).goTo f (line + 1)))
      else none
    | _ => none
  | .refuse c =>
    match s.instr c with
    | some (f, line, .stxr status _ _) =>
      some (s.setCore c { ((s.core c).setW status 1).goTo f (line + 1) with monitor := none })
    | _ => none
  | .ret c f l =>
    match s.instr c with
    | some (g, _, .ret) =>
      if f = g ∧ l = (s.core c).x 0 then some (s.setCore c { s.core c with spot := none }) else none
    | _ => none
  | .lose c => some (s.setCore c { s.core c with monitor := none })
  | .other _ => none

omit [DecidableEq κ] in
theorem SpinState.instr_eq_some {s : SpinState κ} {c : κ} {f : Routine} {line : Nat} {i : SpinInstr}
    (h : s.instr c = some (f, line, i)) :
    (s.core c).spot = some (f, line) ∧ f.code[line]? = some i := by
  obtain ⟨⟨g, n⟩, hspot, h⟩ := Option.bind_eq_some_iff.mp h
  obtain ⟨j, hj, h⟩ := Option.bind_eq_some_iff.mp h
  cases h
  exact ⟨hspot, hj⟩

theorem SpinState.step_of_next {locks : List U64} {s s' : SpinState κ} {a : SpinLabel κ}
    (h : s.next locks a = some s') : SpinStep {l | l ∈ locks} s a s' := by
  cases a with
  | call c f l =>
    obtain ⟨⟨hout, hl⟩, he⟩ := Option.ite_none_right_eq_some.mp h
    cases he
    have hx : Function.update (s.core c).x 0 l 0 = l := Function.update_self ..
    have hstep : SpinStep {l | l ∈ locks} s _ _ :=
      .call c f (Function.update (s.core c).x 0 l) hout (by rw [hx]; exact hl)
    rwa [hx] at hstep
  | exec c =>
    obtain ⟨⟨f, line, i⟩, hinstr, h⟩ := Option.bind_eq_some_iff.mp h
    obtain ⟨p, hexec, h⟩ := Option.bind_eq_some_iff.mp h
    cases h
    obtain ⟨hspot, hi⟩ := instr_eq_some hinstr
    exact .exec c f line i p hspot hi hexec
  | store c l v =>
    simp only [next] at h
    split at h
    · rename_i f line status a base hinstr
      obtain ⟨⟨hmonitor, rfl, rfl⟩, he⟩ := Option.ite_none_right_eq_some.mp h
      cases he
      obtain ⟨hspot, hi⟩ := instr_eq_some hinstr
      exact .stxr c f line status a base hspot hi hmonitor
    · rename_i f line base hinstr
      obtain ⟨⟨rfl, rfl⟩, he⟩ := Option.ite_none_right_eq_some.mp h
      cases he
      obtain ⟨hspot, hi⟩ := instr_eq_some hinstr
      exact .stlr c f line base hspot hi
    · cases h
  | refuse c =>
    simp only [next] at h
    split at h
    · rename_i f line status a base hinstr
      cases h
      obtain ⟨hspot, hi⟩ := instr_eq_some hinstr
      exact .refuse c f line status a base hspot hi
    · cases h
  | ret c f l =>
    simp only [next] at h
    split at h
    · rename_i g line hinstr
      obtain ⟨⟨rfl, rfl⟩, he⟩ := Option.ite_none_right_eq_some.mp h
      cases he
      obtain ⟨hspot, hi⟩ := instr_eq_some hinstr
      exact .ret c f line hspot hi
    · cases h
  | lose c =>
    cases h
    exact .lose c
  | other c => cases h

end TinyMultiCore
